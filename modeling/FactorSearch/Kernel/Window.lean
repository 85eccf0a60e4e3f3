import FactorSearch.Panel
import FactorSearch.Statistics.Moments

/-!
# Windowed kernels

Functions of the last `w` periods of one instrument.  A cell is missing when its window reaches
before the first period or holds a cell that is not finite; a window of no periods is missing
everywhere.
-/

set_option autoImplicit false

namespace FactorSearch

variable {α : Type} [Scalar α] {periods instruments : Nat}

/-- The cells of the `w` periods up to `t`, oldest first, if there are so many and all of them are
finite. -/
@[specialize] def Panel.window? (x : Panel α periods instruments) (w : Nat) (t : Fin periods)
    (i : Fin instruments) : Option (List α) :=
  if h : 0 < w ∧ w ≤ t.val + 1 then
    let cells := List.ofFn fun j : Fin w => x.cell ⟨t.val + 1 - w + j.val, by omega⟩ i
    if cells.all Scalar.isFinite then some cells else none
  else none

namespace Kernel

@[specialize] def rolling (w : Nat) (f : List α → α) (x : Panel α periods instruments) :
    Panel α periods instruments :=
  Panel.ofFn fun t i => match x.window? w t i with
    | some cells => f cells
    | none => Scalar.nan

@[specialize] def oldest (cells : List α) : α := cells.headD Scalar.nan

@[specialize] def latest (cells : List α) : α := cells.getLastD Scalar.nan

@[specialize] def delay (k : Nat) (x : Panel α periods instruments) : Panel α periods instruments :=
  rolling (k + 1) oldest x

@[specialize] def delta (k : Nat) (x : Panel α periods instruments) : Panel α periods instruments :=
  rolling (k + 1) (fun cells => latest cells - oldest cells) x

@[specialize] def mean (w : Nat) (x : Panel α periods instruments) : Panel α periods instruments :=
  rolling w Statistics.mean x

@[specialize] def deviation (w : Nat) (x : Panel α periods instruments) :
    Panel α periods instruments :=
  rolling w Statistics.deviation x

/-- The mean with weights one to `w`, the latest period heaviest. -/
@[specialize] def decay (w : Nat) (x : Panel α periods instruments) : Panel α periods instruments :=
  let weights : α := Scalar.ofNat (w * (w + 1)) / 2
  rolling w
    (fun cells =>
      Scalar.total ((List.range cells.length).zipWith (fun i v => Scalar.ofNat (i + 1) * v) cells) /
        weights) x

@[specialize] def highest (w : Nat) (x : Panel α periods instruments) :
    Panel α periods instruments :=
  rolling w Scalar.maximum x

end Kernel

end FactorSearch
