import CampusQuery.Catalog.Basic
import CampusQuery.Query.Basic

/-!
# Agreement of a query with itself and a catalog

A well-formed query can still make no sense as a whole: its columns may not come out of its
grouping, its order may use other columns than it lists, its keys may name several datasets.
`Query.resolveAmong` checks six rules in a fixed order, reports the first that is broken as a
`RuleError`, and otherwise yields the id of the one dataset that the query reads:

1. computed values have different names, and with a grouping every column is one of its keys or
   one of its computed values;
2. the order uses columns of the result only;
3. all field keys name one dataset, and there is such a dataset;
4. only numeric fields are aggregated as numbers;
5. without a grouping no column is a computed value;
6. the dataset's kind has every field that is named.

`Query.resolve` does so with the datasets of a catalog.
-/

namespace CampusQuery

/-- Which rule a query breaks. -/
inductive RuleError where
  | repeatedName
  | columnNotGrouped
  | orderNotInColumns (column : Column)
  | noDataset
  | severalDatasets
  | unknownDataset (id : String)
  | numbersNeeded
  | nothingComputed (column : Column)
  | foreignField (key : FieldKey) (kind : Kind) (dataset : String)
deriving DecidableEq

/-- The wording of the error. -/
def RuleError.message : RuleError → String
  | repeatedName => "applykey must be unique for each APPLYRULE."
  | columnNotGrouped => "COLUMN keys must be found in GROUP or APPLY keys."
  | orderNotInColumns column => "ORDER key must be in COLUMNS: " ++ column.name
  | noDataset => "dataset could not be determined"
  | severalDatasets => "Query cannot reference multiple datasets"
  | unknownDataset id => s!"dataset {id} does not exist"
  | numbersNeeded => "MAX, MIN, AVG, SUM should only be applied to numeric fields."
  | nothingComputed column =>
    "COLUMNS key " ++ column.name ++ " is not a field key and the query has no TRANSFORMATIONS"
  | foreignField key kind dataset =>
    key.toText ++ " is not a field of " ++ kind.name ++ s!" dataset {dataset}"

namespace Query

/-- Whether a name occurs again behind its first place. -/
def hasRepetition : List String → Bool
  | [] => false
  | name :: rest => rest.contains name || hasRepetition rest

/-- Refuses the first item of a list that is wrong. -/
def refuseFirst {α : Type} (wrong : α → Bool) (error : α → RuleError) (items : List α) :
    Except RuleError Unit :=
  match items.find? wrong with
  | some item => .error (error item)
  | none => .ok ()

/-- Whether a column is a key or a computed value of a grouping. -/
def isGrouped (g : Grouping) : Column → Bool
  | .field key => g.keys.contains key
  | .computed name => (g.rules.map Rule.name).contains name

/-- The first rule, of a query with a grouping. -/
def checkGrouping (q : Query) : Except RuleError Unit :=
  match q.grouping with
  | none => .ok ()
  | some g =>
    if hasRepetition (g.rules.map Rule.name) then .error .repeatedName
    else if q.columns.all (isGrouped g) then .ok ()
    else .error .columnNotGrouped

/-- The second rule. -/
def checkOrder (q : Query) : Except RuleError Unit :=
  match q.order with
  | none => .ok ()
  | some order => refuseFirst (fun c => !q.columns.contains c) .orderNotInColumns order.columns

/-- The dataset that all field keys name. -/
def sharedDataset (q : Query) : Except RuleError String :=
  match q.fieldKeys with
  | [] => .error .noDataset
  | key :: rest =>
    if rest.any fun k => k.dataset != key.dataset then .error .severalDatasets
    else .ok key.dataset

/-- The third rule: the dataset that all field keys name, and its kind. -/
def knownDataset (q : Query) (kindOf? : String → Option Kind) :
    Except RuleError (String × Kind) := do
  let dataset ← q.sharedDataset
  match kindOf? dataset with
  | none => throw (.unknownDataset dataset)
  | some kind => return (dataset, kind)

/-- The fourth rule. -/
def checkTargets (q : Query) : Except RuleError Unit :=
  match q.grouping with
  | none => .ok ()
  | some g =>
    if g.rules.any fun r => r.aggregation.needsNumbers && !r.target.field.isNumeric then
      .error .numbersNeeded
    else .ok ()

/-- The fifth rule. -/
def checkComputed (q : Query) : Except RuleError Unit :=
  match q.grouping with
  | some _ => .ok ()
  | none => refuseFirst (fun c => c.key?.isNone) .nothingComputed q.columns

/-- The sixth rule. -/
def checkFields (q : Query) (dataset : String) (kind : Kind) : Except RuleError Unit :=
  refuseFirst (fun k => !k.field.belongsTo kind) (.foreignField · kind dataset) q.fieldKeys

/-- The dataset that the query reads, if the query keeps all rules. Of the datasets that there are,
only the kinds are looked at. -/
def resolveAmong (q : Query) (kindOf? : String → Option Kind) : Except RuleError String := do
  q.checkGrouping
  q.checkOrder
  let (dataset, kind) ← q.knownDataset kindOf?
  q.checkTargets
  q.checkComputed
  q.checkFields dataset kind
  return dataset

/-- The dataset of a catalog that the query reads, if the query keeps all rules. -/
def resolve (q : Query) (catalog : Catalog) : Except RuleError String :=
  q.resolveAmong catalog.kind?

end Query

end CampusQuery
