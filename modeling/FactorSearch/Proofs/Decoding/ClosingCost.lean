import FactorSearch.Decoding.ClosingCost
import Mathlib.Data.List.Basic

/-!
# Closing costs are attained and not undercut

A round of relaxation allows one token more.  After `r` rounds every entry of the table is the
length of a sequence of tokens that closes the stack, and no closing sequence of at most `r`
tokens, kept inside the table, is shorter than the entry.  Once a round changes nothing the table
is right for every number of rounds, so stopping early loses nothing.
-/

set_option autoImplicit false

namespace FactorSearch

namespace Decoding

/-- Some `tokens` tokens take a stack of `depth` values to one value, and no depth on the way
exceeds the limit. -/
inductive Closes (arities : List Nat) (limit : Nat) : Nat → Nat → Prop where
  | done : Closes arities limit 1 0
  | token {depth arity next tokens : Nat} (member : arity ∈ arities)
      (step : depthAfter? depth arity = some next) (inside : next ≤ limit)
      (rest : Closes arities limit next tokens) : Closes arities limit depth (tokens + 1)

theorem depthAfter?_eq_some_iff (depth arity next : Nat) :
    depthAfter? depth arity = some next ↔ arity ≤ depth ∧ next = depth - arity + 1 := by
  simp only [depthAfter?]
  split
  · simp only [reduceCtorEq, false_iff]
    omega
  · simp only [Option.some.injEq]
    omega

/-! ## The cheapest candidate -/

theorem cheaper_eq_some (first second : Option Nat) (cost : Nat)
    (found : cheaper first second = some cost) : first = some cost ∨ second = some cost := by
  cases first with
  | none => exact Or.inr found
  | some a =>
    cases second with
    | none => exact Or.inl found
    | some b =>
      simp only [cheaper, Option.some.injEq] at found ⊢
      rcases Nat.le_total a b with ordered | ordered
      · exact Or.inl ((Nat.min_eq_left ordered).symm.trans found)
      · exact Or.inr ((Nat.min_eq_right ordered).symm.trans found)

theorem cheaper_le (first second : Option Nat) (cost : Nat)
    (offered : first = some cost ∨ second = some cost) :
    ∃ best, best ≤ cost ∧ cheaper first second = some best := by
  rcases offered with rfl | rfl
  · cases second with
    | none => exact ⟨cost, Nat.le_refl _, rfl⟩
    | some b => exact ⟨Nat.min cost b, Nat.min_le_left _ _, rfl⟩
  · cases first with
    | none => exact ⟨cost, Nat.le_refl _, rfl⟩
    | some a => exact ⟨Nat.min a cost, Nat.min_le_right _ _, rfl⟩

theorem foldl_cheaper_eq_some (candidate : Nat → Option Nat) (arities : List Nat)
    (start : Option Nat) (cost : Nat)
    (found : arities.foldl (fun best arity => cheaper best (candidate arity)) start = some cost) :
    start = some cost ∨ ∃ arity ∈ arities, candidate arity = some cost := by
  induction arities generalizing start with
  | nil => exact Or.inl found
  | cons arity rest ih =>
    rcases ih _ found with kept | ⟨other, member, here⟩
    · rcases cheaper_eq_some _ _ _ kept with first | here
      · exact Or.inl first
      · exact Or.inr ⟨arity, List.mem_cons_self .., here⟩
    · exact Or.inr ⟨other, List.mem_cons_of_mem _ member, here⟩

theorem foldl_cheaper_le (candidate : Nat → Option Nat) (arities : List Nat) (start : Option Nat)
    (cost : Nat) (offered : start = some cost ∨ ∃ arity ∈ arities, candidate arity = some cost) :
    ∃ best, best ≤ cost ∧
      arities.foldl (fun best arity => cheaper best (candidate arity)) start = some best := by
  induction arities generalizing start cost with
  | nil =>
    rcases offered with first | ⟨_, member, _⟩
    · exact ⟨cost, Nat.le_refl _, first⟩
    · cases member
  | cons arity rest ih =>
    rw [List.foldl_cons]
    have through (here : start = some cost ∨ candidate arity = some cost) :
        ∃ best, best ≤ cost ∧ rest.foldl (fun best arity => cheaper best (candidate arity))
          (cheaper start (candidate arity)) = some best := by
      obtain ⟨middle, small, kept⟩ := cheaper_le _ _ _ here
      obtain ⟨best, smaller, found⟩ := ih _ middle (Or.inl kept)
      exact ⟨best, Nat.le_trans smaller small, found⟩
    rcases offered with first | ⟨other, member, here⟩
    · exact through (Or.inl first)
    · rcases List.mem_cons.mp member with rfl | member
      · exact through (Or.inr here)
      · exact ih _ cost (Or.inr ⟨other, member, here⟩)

/-! ## One round -/

theorem costThrough_eq_some_iff (table : Array (Option Nat)) (depth arity cost : Nat) :
    costThrough table depth arity = some cost ↔
      ∃ next tokens, depthAfter? depth arity = some next ∧ table[next]? = some (some tokens) ∧
        cost = tokens + 1 := by
  simp only [costThrough]
  cases step : depthAfter? depth arity with
  | none => simp
  | some next =>
    cases entry : table[next]? with
    | none => simp [entry]
    | some stored =>
      cases stored with
      | none => simp [entry]
      | some tokens => simp [entry, eq_comm]

theorem relax_size (arities : List Nat) (table : Array (Option Nat)) :
    (relax arities table).size = table.size := by
  simp [relax]

theorem relax_positive (arities : List Nat) (table : Array (Option Nat)) (depth : Nat)
    (inside : depth < table.size) (positive : 1 ≤ depth) :
    (relax arities table)[depth]? =
      some (arities.foldl (fun best arity => cheaper best (costThrough table depth arity))
        table[depth]) := by
  have nonzero : depth ≠ 0 := by omega
  simp [relax, inside, nonzero]

theorem relax_zero (arities : List Nat) (table : Array (Option Nat)) :
    (relax arities table)[0]? = table[0]? := by
  by_cases inside : 0 < table.size
  · simp [relax, inside]
  · simp [relax, inside]

structure Relaxed (arities : List Nat) (limit rounds : Nat) (table : Array (Option Nat)) :
    Prop where
  size : table.size = limit + 1
  attained : ∀ depth cost, table[depth]? = some (some cost) → Closes arities limit depth cost
  least : ∀ depth tokens, 1 ≤ depth → depth ≤ limit → Closes arities limit depth tokens →
    tokens ≤ rounds → ∃ cost, cost ≤ tokens ∧ table[depth]? = some (some cost)

theorem Relaxed.relax {arities : List Nat} {limit rounds : Nat} {table : Array (Option Nat)}
    (before : Relaxed arities limit rounds table) :
    Relaxed arities limit (rounds + 1) (relax arities table) := by
  have sized := before.size
  refine ⟨(relax_size arities table).trans sized, ?attained, ?least⟩
  case attained =>
    intro depth cost entry
    have inside : depth < table.size := by
      rw [← relax_size arities table]
      exact (Array.getElem?_eq_some_iff.mp entry).1
    rcases Nat.eq_zero_or_pos depth with rfl | positive
    · rw [relax_zero] at entry
      exact before.attained 0 cost entry
    · rw [relax_positive arities table depth inside positive, Option.some.injEq] at entry
      rcases foldl_cheaper_eq_some _ _ _ _ entry with old | ⟨arity, member, through⟩
      · exact before.attained depth cost (Array.getElem?_eq_some_iff.mpr ⟨inside, old⟩)
      · obtain ⟨next, tokens, step, stored, rfl⟩ := (costThrough_eq_some_iff ..).mp through
        have below := (Array.getElem?_eq_some_iff.mp stored).1
        exact .token member step (by omega) (before.attained next tokens stored)
  case least =>
    intro depth tokens positive bounded closes few
    have inside : depth < table.size := by omega
    rw [relax_positive arities table depth inside positive]
    cases closes with
    | done =>
      obtain ⟨cost, small, entry⟩ := before.least 1 0 positive bounded .done (Nat.zero_le _)
      have old := (Array.getElem?_eq_some_iff.mp entry).2
      obtain ⟨best, smaller, found⟩ :=
        foldl_cheaper_le (costThrough table 1) arities _ cost (Or.inl old)
      exact ⟨best, Nat.le_trans smaller small, congrArg some found⟩
    | @token _ arity next tokens member step below rest =>
      have fresh : 1 ≤ next := by
        have grown := ((depthAfter?_eq_some_iff ..).mp step).2
        omega
      obtain ⟨cost, small, entry⟩ := before.least next tokens fresh below rest (by omega)
      have through : costThrough table depth arity = some (cost + 1) :=
        (costThrough_eq_some_iff ..).mpr ⟨next, cost, step, entry, rfl⟩
      obtain ⟨best, smaller, found⟩ := foldl_cheaper_le (costThrough table depth) arities
        table[depth] (cost + 1) (Or.inr ⟨arity, member, through⟩)
      exact ⟨best, by omega, congrArg some found⟩

/-! ## All rounds -/

theorem Relaxed.stable {arities : List Nat} {limit rounds : Nat} {table : Array (Option Nat)}
    (before : Relaxed arities limit rounds table) (still : Decoding.relax arities table = table)
    (more : Nat) : Relaxed arities limit (rounds + more) table := by
  induction more with
  | zero => exact before
  | succ more ih =>
    have again := ih.relax
    rw [still] at again
    exact again

theorem Relaxed.untilStable {arities : List Nat} {limit rounds : Nat} {table : Array (Option Nat)}
    (before : Relaxed arities limit rounds table) (fuel : Nat) :
    Relaxed arities limit (rounds + fuel) (relaxUntilStable arities fuel table) := by
  induction fuel generalizing rounds table with
  | zero => exact before
  | succ fuel ih =>
    simp only [relaxUntilStable]
    by_cases still : Decoding.relax arities table = table
    · rw [if_pos still]
      exact before.stable still (fuel + 1)
    · rw [if_neg still]
      have after := ih before.relax
      have count : rounds + 1 + fuel = rounds + (fuel + 1) := by omega
      rwa [count] at after

theorem closingCosts_relaxed (arities : List Nat) (limit : Nat) :
    Relaxed arities limit (limit + 1) (closingCosts arities limit) := by
  have start : Relaxed arities limit 0
      (Array.ofFn fun depth : Fin (limit + 1) => if depth.val = 1 then some 0 else none) := by
    refine ⟨by simp, ?attained, ?least⟩
    case attained =>
      intro depth cost entry
      rw [Array.getElem?_ofFn] at entry
      split at entry
      · by_cases one : depth = 1
        · subst one
          simp only [if_true, Option.some.injEq] at entry
          subst entry
          exact .done
        · simp [one] at entry
      · contradiction
    case least =>
      intro depth tokens positive bounded closes none
      cases closes with
      | done => exact ⟨0, Nat.le_refl _, by simp [Array.getElem?_ofFn]; omega⟩
      | token => omega
  have after := start.untilStable (limit + 1)
  rwa [Nat.zero_add] at after

end Decoding

end FactorSearch
