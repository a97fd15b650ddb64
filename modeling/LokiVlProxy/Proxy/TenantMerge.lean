/-
  Proxy/TenantMerge.lean --- the answers of several tenants in one body.

  Source: internal/proxy/multitenant.go (mergeLokiQueryResponses, injectTenantLabel,
  latestStreamTimestampStrings).

  Statistics and encoding flags are left out: no item depends on them.
-/
import LokiVlProxy.Proxy.VectorMatching
import Mathlib.Data.List.Sort

namespace LokiVlProxy.Proxy

open Foundation List

def tenantLabel : Text := "__tenant_id__".toList

def originalTenantLabel : Text := "original___tenant_id__".toList

def injectTenantLabel (labels : LabelSet) (tenantID : Text) : LabelSet :=
  let labels :=
    match labels.find? tenantLabel, labels.find? originalTenantLabel with
    | some existing, none => labels.insert originalTenantLabel existing
    | _, _ => labels
  labels.insert tenantLabel tenantID

inductive ResultType where
  | streams | vector | matrix
  deriving DecidableEq, Repr

/-- An item of a result, with entries `E` and points `P`. -/
inductive ResultItem (E P : Type) where
  | stream (labels : LabelSet) (values : List E)
  | vector (labels : LabelSet) (value : P)
  | matrix (labels : LabelSet) (values : List P)
  deriving DecidableEq

/-- How an entry is read: its first field as text, and the entry with its metadata in one form
(`normalizeMetadataPairTuples`). -/
structure EntryForm (E : Type) where
  timestamp : E → Text
  normalize : E → E

variable {E P : Type} (form : EntryForm E)

def ResultItem.type : ResultItem E P → ResultType
  | .stream _ _ => .streams
  | .vector _ _ => .vector
  | .matrix _ _ => .matrix

/-- An item with the label of its tenant. -/
def ResultItem.tagged (tenantID : Text) : ResultItem E P → ResultItem E P
  | .stream labels values =>
    .stream (injectTenantLabel labels tenantID) (values.map form.normalize)
  | .vector labels value => .vector (injectTenantLabel labels tenantID) value
  | .matrix labels values => .matrix (injectTenantLabel labels tenantID) values

/-- A sample becomes a series of one point. -/
def ResultItem.promoted : ResultItem E P → ResultItem E P
  | .vector labels value => .matrix labels [value]
  | item => item

/-- `latestStreamTimestampStrings`. -/
def ResultItem.latest : ResultItem E P → Text
  | .stream _ (entry :: _) => form.timestamp entry
  | _ => []

/-- `lokiQueryResponse` after decoding: a type, if there is one, is the type of every item. -/
structure QueryResponse (E P : Type) where
  resultType : Option ResultType
  items : List (ResultItem E P)
  typed : ∀ type, resultType = some type → ∀ item ∈ items, item.type = type

/-- What the loop has collected, an accumulator a type. -/
structure Collected (E P : Type) where
  resultType : Option ResultType
  items : ResultType → List (ResultItem E P)

/-- One round of the loop; the items of a response without a type are not read. -/
def Collected.add (c : Collected E P) (response : Text × QueryResponse E P) :
    Collected E P where
  resultType := c.resultType.or response.2.resultType
  items type :=
    if response.2.resultType = some type then
      c.items type ++ response.2.items.map (·.tagged form response.1)
    else c.items type

/-- The end of `mergeLokiQueryResponses`: the type of the body and its items. -/
def Collected.body (c : Collected E P) : Option ResultType × List (ResultItem E P) :=
  if c.items .matrix ≠ [] ∧ (c.resultType = some .vector ∨ c.items .vector ≠ []) then
    (some .matrix, c.items .matrix ++ (c.items .vector).map ResultItem.promoted)
  else
    match c.resultType with
    | some .streams =>
      (some .streams,
        (c.items .streams).insertionSort fun a b => b.latest form ≤ a.latest form)
    | some type => (some type, c.items type)
    | none => (none, [])

/-- The items of all tenants, each with the label of its tenant. -/
def taggedItems (responses : List (Text × QueryResponse E P)) : List (ResultItem E P) :=
  responses.flatMap fun r => r.2.items.map (·.tagged form r.1)

/-- The items of the responses of one type. -/
def bucket (responses : List (Text × QueryResponse E P)) (type : Option ResultType) :
    List (ResultItem E P) :=
  taggedItems form (responses.filter (·.2.resultType = type))

@[simp] theorem ResultItem.type_tagged (tenantID : Text) (item : ResultItem E P) :
    (item.tagged form tenantID).type = item.type := by
  cases item <;> rfl

end LokiVlProxy.Proxy
