import FactorSearch.Failure
import FactorSearch.Tensor

/-!
# Softmax

Weights proportional to the exponentials of scores, which are first moved so that the largest is
zero.  The masked form gives every disallowed entry the weight zero and fails when no allowed
score is finite.
-/

set_option autoImplicit false

namespace FactorSearch

namespace Softmax

variable {α : Type} [Scalar α] {n : Nat}

@[specialize] def weights (x : Vec α n) : Vec α n :=
  let top := Fin.foldl n (fun top i => Scalar.max top (x.get i)) (-Scalar.infinity)
  let powers : Vec α n := Vector.ofFn fun i => Scalar.exp (x.get i - top)
  let total := Tensor.sum fun i : Fin n => powers.get i
  Vector.ofFn fun i => powers.get i / total

def maskOfList (n : Nat) (allowed : List Bool) : Vector Bool n :=
  let entries := allowed.toArray
  Vector.ofFn fun i => entries[i.val]?.getD false

/-- The largest allowed score, missing scores apart. -/
@[specialize] def allowedMaximum (logits : Vec α n) (mask : Vector Bool n) : α :=
  Fin.foldl n (fun top i => if mask.get i then Scalar.max top (logits.get i) else top)
    (-Scalar.infinity)

@[specialize] def masked (logits : Vec α n) (mask : Vector Bool n) : Result (Vec α n) :=
  let top := allowedMaximum logits mask
  if Scalar.isFinite top then
    let powers : Vec α n :=
      Vector.ofFn fun i => if mask.get i then Scalar.exp (logits.get i - top) else 0
    let total := Tensor.sum fun i : Fin n => powers.get i
    .ok (Vector.ofFn fun i => powers.get i / total)
  else .error (.internal .noFiniteLogit)

/-- The entropy of weights; entries that are not positive count nothing. -/
@[specialize] def entropy (p : Vec α n) : α :=
  -(Fin.foldl n (fun total i =>
      if Scalar.lt 0 (p.get i) then total + p.get i * Scalar.log (p.get i) else total) 0)

@[specialize] def logWeight (p : Vec α n) (index : Nat) : α :=
  if h : index < n then Scalar.log p[index] else -Scalar.infinity

end Softmax

end FactorSearch
