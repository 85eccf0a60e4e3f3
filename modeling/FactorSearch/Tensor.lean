import FactorSearch.Scalar

/-!
# Vectors and matrices

The linear algebra of the policy network.  Every entry of a product is a sum taken from the left
over the common index.
-/

set_option autoImplicit false

namespace FactorSearch

abbrev Vec (α : Type) (n : Nat) : Type := Vector α n

abbrev Mat (α : Type) (m n : Nat) : Type := Vector (Vector α n) m

@[simp] theorem Vec.get_ofFn {α : Type} {n : Nat} (f : Fin n → α) (i : Fin n) :
    (Vector.ofFn f).get i = f i := by
  simp only [Vector.get, Vector.toArray_ofFn, Array.getElem_ofFn]
  rfl

namespace Tensor

@[inline] def tabulate {α : Type} {m n : Nat} (f : Fin m → Fin n → α) : Mat α m n :=
  Vector.ofFn fun i => Vector.ofFn fun j => f i j

@[simp] theorem tabulate_apply {α : Type} {m n : Nat} (f : Fin m → Fin n → α) (i : Fin m)
    (j : Fin n) : ((tabulate f).get i).get j = f i j := by
  simp [tabulate]

variable {α : Type} [Scalar α] {m n k : Nat}

/-- The sum of `f 0, …, f (n - 1)` from the left. -/
@[inline] def sum (f : Fin n → α) : α := Fin.foldl n (fun total i => total + f i) 0

@[specialize] def dot (x y : Vec α n) : α := sum fun i : Fin n => x.get i * y.get i

@[specialize] def add (x y : Vec α n) : Vec α n := Vector.ofFn fun i => x.get i + y.get i

@[specialize] def vecMul (x : Vec α m) (a : Mat α m n) : Vec α n :=
  Vector.ofFn fun j => sum fun i : Fin m => x.get i * (a.get i).get j

@[specialize] def mulVec (a : Mat α m n) (x : Vec α n) : Vec α m :=
  Vector.ofFn fun i => dot (a.get i) x

@[specialize] def mul (a : Mat α m k) (b : Mat α k n) : Mat α m n :=
  Vector.ofFn fun i => vecMul (a.get i) b

@[specialize] def mulTranspose (a : Mat α m k) (b : Mat α n k) : Mat α m n :=
  Vector.ofFn fun i => mulVec b (a.get i)

@[specialize] def transposeMul (a : Mat α k m) (b : Mat α k n) : Mat α m n :=
  tabulate fun i j => sum fun l : Fin k => (a.get l).get i * (b.get l).get j

@[specialize] def rowOrZero (a : Mat α m n) (index : Nat) : Vec α n :=
  if h : index < m then a[index] else Vector.replicate n 0

end Tensor

end FactorSearch
