import FactorSearch.Panel
import FactorSearch.Vocabulary

/-!
# Feature sets

Named panels of one grid and, optionally, the realised returns of holding each instrument for the
following period.  Names are kept in upper case and found in any letter case.
-/

set_option autoImplicit false

namespace FactorSearch

/-- Feature panels in ascending order of name, one for each name, and explicit forward returns. -/
structure FeatureSet (α : Type) (periods instruments : Nat) where
  panels : List (String × Panel α periods instruments)
  explicitForward : Option (Panel α periods instruments)

namespace FeatureSet

variable {α : Type} {periods instruments : Nat}

def empty : FeatureSet α periods instruments := ⟨[], none⟩

/-- An entry put into a list in ascending order of name, replacing the one of that name. -/
def insertSorted {β : Type} (name : String) (value : β) : List (String × β) → List (String × β)
  | [] => [(name, value)]
  | head :: rest =>
    if name = head.1 then (name, value) :: rest
    else if name < head.1 then (name, value) :: head :: rest
    else head :: insertSorted name value rest

def checkShape (name : String) (values : Grid α) : Result (Panel α periods instruments) :=
  match values.fit? periods instruments with
  | some panel => .ok panel
  | none => .error (.shapeMismatch name (periods, instruments) values.shape)

def insert (set : FeatureSet α periods instruments) (name : String) (values : Grid α) :
    Result (FeatureSet α periods instruments) := do
  let panel ← checkShape name values
  return { set with panels := insertSorted (upperName name) panel set.panels }

def setForward (set : FeatureSet α periods instruments) (values : Grid α) :
    Result (FeatureSet α periods instruments) := do
  let panel ← checkShape "forward_returns" values
  return { set with explicitForward := some panel }

def names (set : FeatureSet α periods instruments) : List String := set.panels.map Prod.fst

def contains (set : FeatureSet α periods instruments) (name : String) : Bool :=
  set.names.contains (upperName name)

def panel (set : FeatureSet α periods instruments) (name : String) :
    Result (Panel α periods instruments) :=
  match set.panels.lookup (upperName name) with
  | some panel => .ok panel
  | none => .error (.unknownFeature name)

def require (set : FeatureSet α periods instruments) (wanted : List String) : Result Unit :=
  match wanted.find? fun name => !set.contains name with
  | some missing => .error (.unknownFeature missing)
  | none => .ok ()

@[specialize] def following [Scalar α] (x : Panel α periods instruments) :
    Panel α periods instruments :=
  Panel.ofFn fun t i => if h : t.val + 1 < periods then x.cell ⟨t.val + 1, h⟩ i else Scalar.nan

/-- The explicit forward returns, or else the returns of the following period. -/
@[specialize] def forwardReturns [Scalar α] (set : FeatureSet α periods instruments) :
    Result (Panel α periods instruments) :=
  match set.explicitForward with
  | some panel => .ok panel
  | none => (set.panel "RET").map following

end FeatureSet

structure Observations (α : Type) where
  periods : Nat
  instruments : Nat
  features : FeatureSet α periods instruments

end FactorSearch
