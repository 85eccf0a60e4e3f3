import FactorSearch.Operator
import FactorSearch.Proofs.Evaluation.Periods
import FactorSearch.Proofs.Statistics.Symmetry

/-!
# Panels with their instruments in another order

Every operator gives the reordered value on reordered operands: elementwise and windowed kernels
read one instrument at a time, and a cross-sectional kernel reads its row without the order.
-/

set_option autoImplicit false

namespace FactorSearch

variable {α β γ δ : Type} {periods instruments : Nat}

namespace Panel

def reorder (σ : Equiv.Perm (Fin instruments)) (x : Panel α periods instruments) :
    Panel α periods instruments :=
  ofFn fun t i => x.cell t (σ i)

variable (σ : Equiv.Perm (Fin instruments))

@[simp] theorem cell_reorder (x : Panel α periods instruments) (t : Fin periods)
    (i : Fin instruments) : (x.reorder σ).cell t i = x.cell t (σ i) :=
  cell_ofFn ..

theorem row_reorder (x : Panel α periods instruments) (t : Fin periods) :
    (x.reorder σ).row t = List.ofFn (x.cell t ∘ σ) := by
  rw [row_eq]
  congr 1
  funext i
  exact cell_reorder σ x t i

theorem row_reorder_perm (x : Panel α periods instruments) (t : Fin periods) :
    ((x.reorder σ).row t).Perm (x.row t) := by
  rw [row_reorder, row_eq]
  exact Equiv.Perm.ofFn_comp_perm σ (x.cell t)

theorem map_reorder (f : α → β) (x : Panel α periods instruments) :
    (x.reorder σ).map f = (x.map f).reorder σ := by
  ext t i
  simp [map]

theorem map₂_reorder (f : α → β → γ) (x : Panel α periods instruments)
    (y : Panel β periods instruments) :
    (x.reorder σ).map₂ f (y.reorder σ) = (x.map₂ f y).reorder σ := by
  ext t i
  simp [map₂]

theorem map₃_reorder (f : α → β → γ → δ) (x : Panel α periods instruments)
    (y : Panel β periods instruments) (z : Panel γ periods instruments) :
    (x.reorder σ).map₃ f (y.reorder σ) (z.reorder σ) = (x.map₃ f y z).reorder σ := by
  ext t i
  simp [map₃]

/-- A function of rows that sends each cell to a value that follows from the row without its order
gives the reordered rows. -/
theorem mapRows_reorder (default : β) {f : List α → List β} {g : List α → α → β}
    (cellwise : ∀ row, f row = row.map (g row))
    (unordered : ∀ {row other : List α}, row.Perm other → g row = g other)
    (x : Panel α periods instruments) :
    (x.reorder σ).mapRows default f = (x.mapRows default f).reorder σ := by
  ext t i
  rw [cell_mapRows_cellwise default cellwise, cell_reorder, cell_reorder,
    cell_mapRows_cellwise default cellwise, unordered (row_reorder_perm σ x t)]

variable [Scalar α]

theorem window?_reorder (x : Panel α periods instruments) (w : Nat) (t : Fin periods)
    (i : Fin instruments) : (x.reorder σ).window? w t i = x.window? w t (σ i) := by
  simp only [window?, cell_reorder]

theorem rolling_reorder (w : Nat) (f : List α → α) (x : Panel α periods instruments) :
    Kernel.rolling w f (x.reorder σ) = (Kernel.rolling w f x).reorder σ := by
  ext t i
  simp only [Kernel.rolling, cell_ofFn, cell_reorder, window?_reorder]

theorem rank_reorder [Scalar.Ordered α] (x : Panel α periods instruments) :
    Kernel.rank (x.reorder σ) = (Kernel.rank x).reorder σ :=
  mapRows_reorder σ _ Kernel.rankRow_eq
    (fun order => Kernel.rankCell_perm (order.filter _)) x

theorem zScore_reorder [RightCommutative fun sum value : α => sum + value]
    (x : Panel α periods instruments) :
    Kernel.zScore (x.reorder σ) = (Kernel.zScore x).reorder σ :=
  mapRows_reorder σ _ Kernel.zScoreRow_eq
    (fun order => Kernel.zScoreCell_perm (order.filter _)) x

end Panel

namespace Operator

variable [Scalar α]

theorem apply_of_length_ne (operator : Operator) (operands : List (Panel α periods instruments))
    (count : operands.length ≠ operator.arity) : operator.apply operands = .error (.internal
      (.operandCount operator.description operator.arity operands.length)) := by
  unfold apply
  split <;> first | rfl | exact absurd rfl count

/-- Every operator gives the reordered value, or the same failure. -/
theorem apply_reorder [Scalar.Ordered α] [RightCommutative fun sum value : α => sum + value]
    (σ : Equiv.Perm (Fin instruments)) (operator : Operator)
    (operands : List (Panel α periods instruments)) :
    operator.apply (operands.map (Panel.reorder σ)) =
      (operator.apply operands).map (Panel.reorder σ) := by
  by_cases count : operands.length = operator.arity
  case neg =>
    rw [apply_of_length_ne operator operands count,
      apply_of_length_ne operator _ (by rwa [List.length_map]), List.length_map]
    rfl
  cases operator with
  | feature name =>
    rw [List.length_eq_zero_iff.mp count]
    rfl
  | gate =>
    obtain ⟨x, y, z, rfl⟩ := List.length_eq_three.mp count
    exact congrArg Except.ok (Panel.map₃_reorder σ _ x y z)
  | add | sub | mul | div | max | min =>
    obtain ⟨x, y, rfl⟩ := List.length_eq_two.mp count
    exact congrArg Except.ok (Panel.map₂_reorder σ _ x y)
  | neg | abs | sign =>
    obtain ⟨x, rfl⟩ := List.length_eq_one_iff.mp count
    exact congrArg Except.ok (Panel.map_reorder σ _ x)
  | rank =>
    obtain ⟨x, rfl⟩ := List.length_eq_one_iff.mp count
    exact congrArg Except.ok (Panel.rank_reorder σ x)
  | zScore =>
    obtain ⟨x, rfl⟩ := List.length_eq_one_iff.mp count
    exact congrArg Except.ok (Panel.zScore_reorder σ x)
  | delay | delta | mean | deviation | decay | highest =>
    obtain ⟨x, rfl⟩ := List.length_eq_one_iff.mp count
    exact congrArg Except.ok (Panel.rolling_reorder σ _ _ x)

end Operator

end FactorSearch
