import FactorSearch.Proofs.Exact.Extended
import FactorSearch.Proofs.Policy.StepGradient

/-!
# The length of a gradient

The length is taken tensor by tensor, and a gradient is scaled coordinate by coordinate.  The
tensors list every coordinate once, so the length is the Euclidean one over all coordinates, and
scaling all coordinates scales it.  With missing and infinite values it is finite only where every
coordinate is.
-/

set_option autoImplicit false

namespace FactorSearch

namespace Policy

variable {s : Shape}

/-! ## Coordinates tensor by tensor -/

namespace Coordinate

def grid {m n : Nat} (entry : Fin m → Fin n → Coordinate s) : List (Coordinate s) :=
  (List.finRange m).flatMap fun i => (List.finRange n).map (entry i)

def line {n : Nat} (entry : Fin n → Coordinate s) : List (Coordinate s) :=
  (List.finRange n).map entry

/-- The tensors below the layers: the number of each, and its coordinates. -/
def inner (s : Shape) : List (Nat × List (Coordinate s)) :=
  [(0, grid token), (1, grid position), (2, grid depth), (3, grid query), (4, grid key),
    (5, grid value), (6, grid mixing)]

def layer (l : Fin s.layers) : List (Nat × List (Coordinate s)) :=
  [(7 + 2 * l.val, grid (layerWeight l)), (8 + 2 * l.val, line (layerBias l))]

def outer (s : Shape) : List (Nat × List (Coordinate s)) :=
  [(7 + 2 * s.layers, grid outputWeight), (8 + 2 * s.layers, line outputBias)]

def tensors (s : Shape) : List (Nat × List (Coordinate s)) :=
  inner s ++ (List.finRange s.layers).flatMap layer ++ outer s

theorem forall_mem_grid {m n : Nat} (entry : Fin m → Fin n → Coordinate s)
    (P : Coordinate s → Prop) : (∀ c ∈ grid entry, P c) ↔ ∀ i j, P (entry i j) := by
  simp only [grid, List.forall_mem_flatMap, List.forall_mem_map, List.mem_finRange, true_implies]

theorem forall_mem_line {n : Nat} (entry : Fin n → Coordinate s) (P : Coordinate s → Prop) :
    (∀ c ∈ line entry, P c) ↔ ∀ j, P (entry j) := by
  simp only [line, List.forall_mem_map, List.mem_finRange, true_implies]

theorem forall_mem_tensors (P : Nat × List (Coordinate s) → Prop) :
    (∀ t ∈ tensors s, P t) ↔
      (∀ t ∈ inner s, P t) ∧ (∀ l, ∀ t ∈ layer l, P t) ∧ ∀ t ∈ outer s, P t := by
  simp only [tensors, List.forall_mem_append, List.forall_mem_flatMap, List.mem_finRange,
    true_implies, and_assoc]

theorem tensors_numbered : ∀ t ∈ tensors s, ∀ c ∈ t.2, c.tensor = t.1 := by
  rw [forall_mem_tensors]
  simp [inner, layer, outer, forall_mem_grid, forall_mem_line, tensor]

theorem nodup_grid {m n : Nat} (entry : Fin m → Fin n → Coordinate s)
    (inj : Function.Injective2 entry) : (grid entry).Nodup := by
  rw [grid, List.nodup_flatMap]
  refine ⟨fun i _ => (List.nodup_finRange n).map (inj.right i), ?_⟩
  refine (List.nodup_finRange m).imp fun {i i'} apart c first second => ?_
  obtain ⟨j, -, rfl⟩ := List.mem_map.mp first
  obtain ⟨j', -, same⟩ := List.mem_map.mp second
  exact apart (inj same).1.symm

theorem nodup_line {n : Nat} (entry : Fin n → Coordinate s) (inj : Function.Injective entry) :
    (line entry).Nodup :=
  (List.nodup_finRange n).map inj

theorem tensors_nodup : ∀ t ∈ tensors s, t.2.Nodup := by
  simp only [forall_mem_tensors, inner, layer, outer, List.forall_mem_cons, List.not_mem_nil]
  refine ⟨⟨?_, ?_, ?_, ?_, ?_, ?_, ?_, nofun⟩, fun l => ⟨?_, ?_, nofun⟩, ?_, ?_, nofun⟩
  -- each tensor is the image of its indices under its own constructor
  all_goals
    first
    | exact nodup_grid _ fun _ _ _ _ same => by cases same; exact ⟨rfl, rfl⟩
    | exact nodup_line _ fun _ _ same => by cases same; rfl

theorem tensors_ascend : (tensors s).Pairwise fun t u => t.1 < u.1 := by
  have inside : ∀ t ∈ inner s, t.1 < 7 := by simp [inner]
  have between : ∀ t ∈ (List.finRange s.layers).flatMap layer,
      7 ≤ t.1 ∧ t.1 < 7 + 2 * s.layers := by
    simp [layer]
    omega
  have outside : ∀ t ∈ outer s, 7 + 2 * s.layers ≤ t.1 := by simp [outer]
  rw [tensors, List.pairwise_append, List.pairwise_append, List.pairwise_flatMap]
  refine ⟨⟨by simp [inner], ⟨fun l _ => by simp [layer], ?layers⟩, ?below⟩, by simp [outer], ?above⟩
  case layers =>
    refine (List.pairwise_lt_finRange _).imp fun {l l'} ordered => ?_
    have apart := Fin.lt_def.mp ordered
    simp [layer]
    omega
  case below =>
    intro t first u second
    exact (inside t first).trans_le (between u second).1
  case above =>
    intro t first u second
    refine lt_of_lt_of_le ?_ (outside u second)
    rcases List.mem_append.mp first with first | first
    · exact (inside t first).trans_le (Nat.le_add_right ..)
    · exact (between t first).2

def all (s : Shape) : List (Coordinate s) := (tensors s).flatMap Prod.snd

theorem nodup_all : (all s).Nodup := by
  rw [all, List.nodup_flatMap]
  refine ⟨tensors_nodup, tensors_ascend.imp_of_mem fun {t u} first second below c here there => ?_⟩
  rw [← tensors_numbered t first c here, ← tensors_numbered u second c there] at below
  exact below.false

theorem mem_all (c : Coordinate s) : c ∈ all s := by
  cases c with
  | _ => simp [all, tensors, inner, layer, outer, grid, line, List.flatMap_assoc]

instance : Fintype (Coordinate s) := ⟨⟨all s, nodup_all⟩, mem_all⟩

theorem sum_eq (f : Coordinate s → ℝ) :
    ∑ c, f c = ((tensors s).map fun t => (t.2.map f).sum).sum := by
  have listed : ∑ c, f c = ((all s).map f).sum := rfl
  rw [listed, all, List.map_flatMap, List.flatMap, List.sum_flatten, List.map_map]
  rfl

end Coordinate

namespace Parameters

section Blocks

variable {α : Type}

theorem toList_eq_map_get {n : Nat} (x : Vector α n) : x.toList = (List.finRange n).map x.get := by
  apply List.ext_getElem <;> simp [Vector.get]

theorem values_matrixBlock {m n : Nat} (a : Mat α m n) :
    (matrixBlock a).values =
      (List.finRange m).flatMap fun i => (List.finRange n).map (a.get i).get := by
  rw [matrixBlock, toList_eq_map_get, List.map_map, List.flatMap]
  refine congrArg List.flatten (List.map_congr_left fun i _ => ?_)
  exact toList_eq_map_get _

theorem values_blocks (p : Parameters α s) :
    p.blocks.map Block.values = (Coordinate.tensors s).map fun t => t.2.map p.get := by
  have grid {m n : Nat} (a : Mat α m n) (entry : Fin m → Fin n → Coordinate s)
      (read : ∀ i j, p.get (entry i j) = (a.get i).get j) :
      (matrixBlock a).values = (Coordinate.grid entry).map p.get := by
    rw [values_matrixBlock, Coordinate.grid, List.map_flatMap]
    simp only [List.map_map, Function.comp_def, read]
  have line {n : Nat} (x : Vec α n) (entry : Fin n → Coordinate s)
      (read : ∀ j, p.get (entry j) = x.get j) :
      (vectorBlock x).values = (Coordinate.line entry).map p.get := by
    rw [vectorBlock, toList_eq_map_get, Coordinate.line, List.map_map]
    simp only [Function.comp_def, read]
  have layers : p.tower.toList.flatMap
        (fun layer => [(matrixBlock layer.weight).values, (vectorBlock layer.bias).values]) =
      (List.finRange s.layers).flatMap fun l =>
        [(Coordinate.grid (.layerWeight l)).map p.get,
          (Coordinate.line (.layerBias l)).map p.get] := by
    rw [toList_eq_map_get, List.flatMap_map]
    refine congrArg List.flatten (List.map_congr_left fun l _ => ?_)
    rw [grid (p.tower.get l).weight (.layerWeight l) fun _ _ => rfl,
      line (p.tower.get l).bias (.layerBias l) fun _ => rfl]
  simp only [blocks, Coordinate.tensors, Coordinate.inner, Coordinate.layer, Coordinate.outer,
    List.map_append, List.map_cons, List.map_nil,
    List.map_flatMap, layers, grid p.token .token fun _ _ => rfl,
    grid p.position .position fun _ _ => rfl, grid p.depth .depth fun _ _ => rfl,
    grid p.query .query fun _ _ => rfl, grid p.key .key fun _ _ => rfl,
    grid p.value .value fun _ _ => rfl, grid p.mixing .mixing fun _ _ => rfl,
    grid p.outputWeight .outputWeight fun _ _ => rfl, line p.outputBias .outputBias fun _ => rfl]

end Blocks

theorem norm_eq {α : Type} [Scalar α] (p : Parameters α s) :
    p.norm = Scalar.sqrt (Scalar.total ((Coordinate.tensors s).map fun t =>
      Scalar.total (t.2.map fun c => Scalar.square (p.get c)))) := by
  have squares : (p.blocks.map fun b => Scalar.total (b.values.map Scalar.square)) =
      (p.blocks.map Block.values).map fun values => Scalar.total (values.map Scalar.square) := by
    rw [List.map_map]
    rfl
  rw [norm, squares, values_blocks, List.map_map]
  simp only [Function.comp_def, List.map_map]

/-! ## The Euclidean length -/

noncomputable def length (q : Parameters ℝ s) : ℝ := √(∑ c, q.get c ^ 2)

theorem sum_squares_nonneg (q : Parameters ℝ s) : 0 ≤ ∑ c, q.get c ^ 2 :=
  Finset.sum_nonneg fun _ _ => sq_nonneg _

/-- Scaling every coordinate scales the length. -/
theorem length_scale {q scaled : Parameters ℝ s} {factor : ℝ} (nonneg : 0 ≤ factor)
    (multiple : ∀ c, scaled.get c = q.get c * factor) : scaled.length = q.length * factor := by
  have squares : ∑ c, scaled.get c ^ 2 = (∑ c, q.get c ^ 2) * factor ^ 2 := by
    rw [Finset.sum_mul]
    exact Finset.sum_congr rfl fun c _ => by rw [multiple, mul_pow]
  rw [length, squares, Real.sqrt_mul q.sum_squares_nonneg, Real.sqrt_sq nonneg, length]

end Parameters

end Policy

/-! ## With missing and infinite values -/

namespace Extended

theorem isFinite_add (x y : Extended) :
    Scalar.isFinite (x + y) = (Scalar.isFinite x && Scalar.isFinite y) := by
  change (x.add y).isReal = (x.isReal && y.isReal)
  cases x with
  | finite | missing => cases y <;> rfl
  | infinite s =>
    cases y with
    | finite | missing => rfl
    | infinite t =>
      rw [add]
      split <;> rfl

/-- A sum is finite just when everything in it is: nothing makes up for an infinite value. -/
theorem isFinite_total (values : List Extended) :
    Scalar.isFinite (Scalar.total values) = values.all Scalar.isFinite := by
  induction values using List.reverseRecOn with
  | nil => rfl
  | append_singleton values last ih =>
    rw [Scalar.total, List.foldl_append, List.all_append, ← ih]
    simp only [List.foldl_cons, List.foldl_nil, isFinite_add, List.all_cons, List.all_nil,
      Bool.and_true]
    rfl

theorem isFinite_square (x : Extended) : Scalar.isFinite (Scalar.square x) = Scalar.isFinite x := by
  cases x with
  | finite | infinite | missing => rfl

theorem isFinite_of_sqrt {x : Extended} (finite : Scalar.isFinite (Scalar.sqrt x) = true) :
    Scalar.isFinite x = true := by
  cases x with
  | finite => rfl
  | infinite s =>
    cases s with
    | true | false => cases finite
  | missing => cases finite

end Extended

namespace Policy

namespace Parameters

variable {s : Shape}

/-- Real parameters among those that may be missing or infinite. -/
def embed (q : Parameters ℝ s) : Parameters Extended s := ofFn fun c => .finite (q.get c)

theorem get_embed (q : Parameters ℝ s) (c : Coordinate s) : q.embed.get c = .finite (q.get c) :=
  get_ofFn ..

theorem embed_injective : Function.Injective (embed (s := s)) := fun p q same => by
  refine ext_get _ _ fun c => Extended.finite.inj ?_
  rw [← get_embed, ← get_embed, same]

theorem embed_scale (q : Parameters ℝ s) (factor : ℝ) :
    (q.scale factor).embed = q.embed.scale (.finite factor) := by
  refine ext_get _ _ fun c => ?_
  simp only [scale, embed, get_ofFn, Extended.mul_finite]

theorem norm_embed (q : Parameters ℝ s) : q.embed.norm = .finite q.length := by
  have sums : (Coordinate.tensors s).map (fun t =>
        Scalar.total (t.2.map fun c => Scalar.square (q.embed.get c))) =
      ((Coordinate.tensors s).map fun t => (t.2.map fun c => q.get c ^ 2).sum).map
        Extended.finite := by
    rw [List.map_map]
    refine List.map_congr_left fun t _ => ?_
    rw [Function.comp_apply, ← Extended.total_finite, List.map_map]
    simp only [get_embed, Scalar.square, Extended.mul_finite, pow_two, Function.comp_def]
  rw [norm_eq, sums, Extended.total_finite, ← Coordinate.sum_eq,
    Extended.sqrt_finite q.sum_squares_nonneg, length]

/-- The length is finite only for real parameters. -/
theorem exists_embed {p : Parameters Extended s} (finite : Scalar.isFinite p.norm = true) :
    ∃ q : Parameters ℝ s, q.embed = p := by
  refine ⟨ofFn fun c => (p.get c).toReal, ext_get _ _ fun c => ?_⟩
  rw [embed, get_ofFn, get_ofFn]
  refine Extended.finite_toReal ?_
  obtain ⟨t, listed, member⟩ := List.mem_flatMap.mp (Coordinate.mem_all c)
  rw [norm_eq] at finite
  have whole := Extended.isFinite_of_sqrt finite
  rw [Extended.isFinite_total, List.all_eq_true] at whole
  have part := whole _ (List.mem_map_of_mem listed)
  rw [Extended.isFinite_total, List.all_eq_true] at part
  rw [← Extended.isFinite_square]
  exact part _ (List.mem_map_of_mem member)

end Parameters

end Policy

end FactorSearch
