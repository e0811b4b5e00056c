import CampusQuery.Archive.Basic
import CampusQuery.Archive.Disk
import CampusQuery.Catalog.Basic
import CampusQuery.Catalog.Dataset
import CampusQuery.Course.Section
import CampusQuery.Database.Basic
import CampusQuery.Database.Config
import CampusQuery.Database.Response
import CampusQuery.Execution.Aggregate
import CampusQuery.Execution.Error
import CampusQuery.Execution.Group
import CampusQuery.Execution.Row
import CampusQuery.Execution.Run
import CampusQuery.Execution.Selection
import CampusQuery.Field
import CampusQuery.FieldKey
import CampusQuery.Json.Basic
import CampusQuery.Json.Decode
import CampusQuery.Json.Token
import CampusQuery.Json.Tree
import CampusQuery.Number.Binary64
import CampusQuery.Number.Bits
import CampusQuery.Number.Decimal
import CampusQuery.Number.Rounding
import CampusQuery.Number.Shortest
import CampusQuery.Number.Text
import CampusQuery.Number.WordDecimal
import CampusQuery.Pattern
import CampusQuery.Proofs.Agreement
import CampusQuery.Proofs.Atomicity
import CampusQuery.Proofs.BinaryMean
import CampusQuery.Proofs.CourseFiles
import CampusQuery.Proofs.DatasetKeys
import CampusQuery.Proofs.DecimalConversion
import CampusQuery.Proofs.DecimalDigits
import CampusQuery.Proofs.DecimalErrors
import CampusQuery.Proofs.DecimalMean
import CampusQuery.Proofs.DecimalRounding
import CampusQuery.Proofs.DecimalSum
import CampusQuery.Proofs.DecimalTotals
import CampusQuery.Proofs.Directory
import CampusQuery.Proofs.Distinct
import CampusQuery.Proofs.Durability
import CampusQuery.Proofs.ExactIntegers
import CampusQuery.Proofs.Execution
import CampusQuery.Proofs.Extremes
import CampusQuery.Proofs.FileContainment
import CampusQuery.Proofs.FileName
import CampusQuery.Proofs.FiniteMap
import CampusQuery.Proofs.Grammar
import CampusQuery.Proofs.GroupExtremes
import CampusQuery.Proofs.GroupPlaces
import CampusQuery.Proofs.GroupRows
import CampusQuery.Proofs.GroupSelection
import CampusQuery.Proofs.GroupTable
import CampusQuery.Proofs.Grouping
import CampusQuery.Proofs.Interruption
import CampusQuery.Proofs.Isolation
import CampusQuery.Proofs.JsonText
import CampusQuery.Proofs.KeyText
import CampusQuery.Proofs.Loading
import CampusQuery.Proofs.MeanBounds
import CampusQuery.Proofs.NearestNumber
import CampusQuery.Proofs.NumberBits
import CampusQuery.Proofs.NumberText
import CampusQuery.Proofs.NumeralText
import CampusQuery.Proofs.Outcome
import CampusQuery.Proofs.PatternMatching
import CampusQuery.Proofs.PatternText
import CampusQuery.Proofs.Pipeline
import CampusQuery.Proofs.Reading
import CampusQuery.Proofs.RecordOrder
import CampusQuery.Proofs.RecordText
import CampusQuery.Proofs.RoundTrip
import CampusQuery.Proofs.RoundedResults
import CampusQuery.Proofs.RoundingInterval
import CampusQuery.Proofs.RowOrder
import CampusQuery.Proofs.Rules
import CampusQuery.Proofs.Saving
import CampusQuery.Proofs.Selection
import CampusQuery.Proofs.ShortestForm
import CampusQuery.Proofs.Store
import CampusQuery.Proofs.ValueDigest
import CampusQuery.Proofs.ValueOrder
import CampusQuery.Proofs.WordReading
import CampusQuery.Proofs.WrittenDecimal
import CampusQuery.Query.Agreement
import CampusQuery.Query.Basic
import CampusQuery.Query.Filter
import CampusQuery.Query.Reading
import CampusQuery.Record
import CampusQuery.Record.Text
import CampusQuery.Text.Blank
import CampusQuery.Value
import CampusQuery.Value.Digest
