import FactorSearch.Kernel.Elementwise
import FactorSearch.Proofs.Exact.Extended
import FactorSearch.Proofs.Statistics.RankOrder

/-!
# Panels mapped period by period

A panel whose finite cells are those of another one, sent through a real function that each period
chooses; cells that are not finite stay so.  Such are the panels scaled and shifted in every period,
and the negated panel.
-/

set_option autoImplicit false

namespace FactorSearch

namespace Extended

/-- A real function on the finite values. -/
def mapReal (g : ℝ → ℝ) : Extended → Extended
  | finite x => finite (g x)
  | infinite s => infinite s
  | missing => missing

@[simp] theorem mapReal_finite (g : ℝ → ℝ) (x : ℝ) : (finite x).mapReal g = finite (g x) := rfl

@[simp] theorem isFinite_mapReal (g : ℝ → ℝ) (x : Extended) :
    Scalar.isFinite (x.mapReal g) = Scalar.isFinite x := by
  cases x with
  | finite | infinite | missing => rfl

theorem increasing_mapReal {g : ℝ → ℝ} {values : List Extended}
    (known : ∀ v ∈ values, Scalar.isFinite v = true)
    (rises : StrictMonoOn g {r | finite r ∈ values}) :
    Statistics.Increasing (mapReal g) values where
  lt u left v right below := by
    obtain ⟨a, rfl⟩ := exists_real (known u left)
    obtain ⟨b, rfl⟩ := exists_real (known v right)
    rw [lt_finite, decide_eq_true_iff] at below
    rw [mapReal_finite, mapReal_finite, lt_finite, decide_eq_true_iff]
    exact rises left right below
  same u left v right level := by
    obtain ⟨a, rfl⟩ := exists_real (known u left)
    obtain ⟨b, rfl⟩ := exists_real (known v right)
    rw [same_finite, decide_eq_true_iff] at level
    rw [level, mapReal_finite, same_finite, decide_eq_true_iff]

theorem isFinite_neg (x : Extended) : Scalar.isFinite (-x) = Scalar.isFinite x := by
  cases x with
  | finite | infinite | missing => rfl

theorem finite_one_mul (x : Extended) : finite 1 * x = x := by
  change mul (finite 1) x = x
  cases x with
  | finite | infinite => norm_num [mul, grow]
  | missing => rfl

theorem finite_neg_one_mul (x : Extended) : finite (-1) * x = -x := by
  change mul (finite (-1)) x = neg x
  cases x with
  | finite | infinite => norm_num [mul, grow, neg]
  | missing => rfl

theorem isFinite_mul_add (a b : ℝ) (x : Extended) :
    Scalar.isFinite (finite a * x + finite b) = Scalar.isFinite x := by
  rw [isFinite_add_finite]
  change Scalar.isFinite (mul (finite a) x) = _
  cases x with
  | finite | missing => rfl
  | infinite s =>
    rw [mul, grow]
    split
    · rfl
    · rfl

end Extended

open Extended

variable {periods instruments : Nat}

namespace Panel

def transform (g : Fin periods → ℝ → ℝ) (x : Panel Extended periods instruments) :
    Panel Extended periods instruments :=
  ofFn fun t i => (x.cell t i).mapReal (g t)

noncomputable def rescale (scale shift : Fin periods → ℝ) (x : Panel Extended periods instruments) :
    Panel Extended periods instruments :=
  ofFn fun t i => finite (scale t) * x.cell t i + finite (shift t)

/-- The finite cells of `y` are the images of those of `x`. -/
structure Images (g : Fin periods → ℝ → ℝ) (x y : Panel Extended periods instruments) : Prop where
  isFinite : ∀ t i, Scalar.isFinite (y.cell t i) = Scalar.isFinite (x.cell t i)
  value : ∀ t i v, x.cell t i = finite v → y.cell t i = finite (g t v)

def reading (x : Panel Extended periods instruments) (t : Fin periods) (i : Fin instruments) : ℝ :=
  (x.cell t i).toReal

theorem finite_reading {x : Panel Extended periods instruments} {t : Fin periods}
    {i : Fin instruments} (known : Scalar.isFinite (x.cell t i) = true) :
    finite (x.reading t i) = x.cell t i :=
  finite_toReal known

theorem Images.reading_eq {g : Fin periods → ℝ → ℝ} {x y : Panel Extended periods instruments}
    (images : Images g x y) {t : Fin periods} {i : Fin instruments}
    (known : Scalar.isFinite (x.cell t i) = true) : y.reading t i = g t (x.reading t i) := by
  rw [reading, images.value t i _ (finite_reading known).symm, toReal_finite]

theorem images_transform (g : Fin periods → ℝ → ℝ) (x : Panel Extended periods instruments) :
    Images g x (x.transform g) where
  isFinite t i := by rw [transform, cell_ofFn, isFinite_mapReal]
  value t i v known := by rw [transform, cell_ofFn, known, mapReal_finite]

theorem images_rescale (scale shift : Fin periods → ℝ) (x : Panel Extended periods instruments) :
    Images (fun t v => scale t * v + shift t) x (x.rescale scale shift) where
  isFinite t i := by rw [rescale, cell_ofFn, isFinite_mul_add]
  value t i v known := by rw [rescale, cell_ofFn, known, mul_finite, add_finite]

theorem images_neg (x : Panel Extended periods instruments) :
    Images (fun _ v => -v) x (Kernel.neg x) where
  isFinite t i := by rw [Kernel.neg, map, cell_ofFn, isFinite_neg]
  value t i v known := by rw [Kernel.neg, map, cell_ofFn, known, neg_finite]

end Panel

end FactorSearch
