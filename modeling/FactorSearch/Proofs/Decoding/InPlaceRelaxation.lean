import FactorSearch.Proofs.Decoding.ShortestClosing

/-!
# Relaxation in place

The table can be found in one array of machine words: the largest word stands for a depth that
cannot be closed, and a sweep over depths and arities lowers entries where they stand, until a sweep
lowers none.  A sum above the largest word and an index beyond the array have no result.  Every
lowered entry lowers the sum of the array, so the sweeps end; entries stay lengths of runs, and once
no entry can be lowered none is above a shortest run.  So there is a result, and it is the table.
-/

set_option autoImplicit false

namespace FactorSearch

namespace Decoding

namespace InPlace

/-- The sum of two words, unless it is above the largest word. -/
def add? (top a b : Nat) : Option Nat := if a + b ≤ top then some (a + b) else none

/-- An array of costs, and whether any has been lowered in this sweep. -/
structure Pass where
  costs : Array Nat
  changed : Bool

/-- A token of one arity tried at one depth. -/
def lower? (top limit : Nat) (pass : Pass) (depth arity : Nat) : Option Pass :=
  if depth < arity then some pass
  else do
    let next ← add? top (depth - arity) 1
    if limit < next then some pass
    else do
      let onward ← pass.costs[next]?
      if onward = top then some pass
      else do
        let candidate ← add? top onward 1
        let current ← pass.costs[depth]?
        if candidate < current then some ⟨pass.costs.setIfInBounds depth candidate, true⟩
        else some pass

def moves (arities : List Nat) (limit : Nat) : List (Nat × Nat) :=
  (List.range' 1 limit).product arities

def sweep? (top : Nat) (arities : List Nat) (limit : Nat) (costs : Array Nat) : Option Pass :=
  (moves arities limit).foldlM (fun pass move => lower? top limit pass move.1 move.2) ⟨costs, false⟩

/-! ## What one token can do -/

/-- A token of the arity does not make the cost at the depth lower. -/
def Tight (top limit : Nat) (costs : Array Nat) (depth arity : Nat) : Prop :=
  ∀ next onward, depthAfter? depth arity = some next → next ≤ limit →
    costs[next]? = some onward → onward ≠ top → ∃ current ≤ onward + 1, costs[depth]? = some current

/-- A pass stays as it is, or its cost at the depth becomes lower. -/
inductive Lowers (top limit : Nat) (pass : Pass) (depth arity : Nat) : Pass → Prop where
  | kept (tight : Tight top limit pass.costs depth arity) : Lowers top limit pass depth arity pass
  | lowered {next onward current : Nat} (step : depthAfter? depth arity = some next)
      (inside : next ≤ limit) (entry : pass.costs[next]? = some onward) (known : onward ≠ top)
      (here : pass.costs[depth]? = some current) (better : onward + 1 < current) :
      Lowers top limit pass depth arity ⟨pass.costs.setIfInBounds depth (onward + 1), true⟩

theorem add?_eq_some_iff (top a b sum : Nat) :
    add? top a b = some sum ↔ a + b ≤ top ∧ a + b = sum := by
  simp [add?]

theorem lower?_cases {top limit : Nat} {pass after : Pass} {depth arity : Nat}
    (done : lower? top limit pass depth arity = some after) :
    Lowers top limit pass depth arity after := by
  rw [lower?] at done
  by_cases short : depth < arity
  · rw [if_pos short] at done
    cases done
    refine .kept fun next onward step => ?_
    rw [depthAfter?, if_pos short] at step
    cases step
  rw [if_neg short] at done
  obtain ⟨next, added, done⟩ := Option.bind_eq_some_iff.mp done
  have step : depthAfter? depth arity = some next := by
    rw [depthAfter?, if_neg short, ((add?_eq_some_iff ..).mp added).2]
  by_cases outside : limit < next
  · rw [if_pos outside] at done
    cases done
    refine .kept fun other onward again inside => ?_
    cases step.symm.trans again
    omega
  rw [if_neg outside] at done
  obtain ⟨onward, entry, done⟩ := Option.bind_eq_some_iff.mp done
  by_cases unknown : onward = top
  · rw [if_pos unknown] at done
    cases done
    refine .kept fun other cost again _ found known => ?_
    cases step.symm.trans again
    cases entry.symm.trans found
    exact absurd unknown known
  rw [if_neg unknown] at done
  obtain ⟨candidate, added, done⟩ := Option.bind_eq_some_iff.mp done
  obtain ⟨-, rfl⟩ := (add?_eq_some_iff ..).mp added
  obtain ⟨current, here, done⟩ := Option.bind_eq_some_iff.mp done
  by_cases better : onward + 1 < current
  · rw [if_pos better] at done
    cases done
    exact .lowered step (not_lt.mp outside) entry unknown here better
  · rw [if_neg better] at done
    cases done
    refine .kept fun other cost again _ found _ => ?_
    cases step.symm.trans again
    cases entry.symm.trans found
    exact ⟨current, not_lt.mp better, here⟩

/-! ## The sum of the costs falls -/

theorem sum_set_lt (costs : List Nat) (depth cost current : Nat)
    (here : costs[depth]? = some current) (better : cost < current) :
    (costs.set depth cost).sum < costs.sum := by
  induction costs generalizing depth with
  | nil => cases here
  | cons first rest ih =>
    cases depth with
    | zero =>
      cases Option.some.inj here
      simpa using better
    | succ depth =>
      have later := ih depth here
      simpa using later

theorem Lowers.keeps_or_falls {top limit depth arity : Nat} {pass after : Pass}
    (lowers : Lowers top limit pass depth arity after) :
    after = pass ∧ Tight top limit pass.costs depth arity ∨
      after.changed = true ∧ after.costs.toList.sum < pass.costs.toList.sum := by
  cases lowers with
  | kept tight => exact .inl ⟨rfl, tight⟩
  | lowered _ _ _ _ here better =>
    refine .inr ⟨rfl, ?_⟩
    rw [Array.toList_setIfInBounds]
    rw [← Array.getElem?_toList] at here
    exact sum_set_lt _ _ _ _ here better

/-- Moves leave the pass as it is, as none can lower a cost, or they lower the sum of the costs. -/
theorem fold_keeps_or_falls {top limit : Nat} {pass after : Pass} (moves : List (Nat × Nat))
    (done : moves.foldlM (fun pass move => lower? top limit pass move.1 move.2) pass = some after) :
    (after = pass ∧ ∀ move ∈ moves, Tight top limit pass.costs move.1 move.2) ∨
      after.changed = true ∧ after.costs.toList.sum < pass.costs.toList.sum := by
  induction moves generalizing pass with
  | nil =>
    cases Option.some.inj done
    exact .inl ⟨rfl, nofun⟩
  | cons move rest ih =>
    rw [List.foldlM_cons] at done
    obtain ⟨middle, first, later⟩ := Option.bind_eq_some_iff.mp done
    rcases (lower?_cases first).keeps_or_falls with ⟨rfl, tight⟩ | ⟨changed, fell⟩
    · rcases ih later with ⟨rfl, others⟩ | fell
      · exact .inl ⟨rfl, List.forall_mem_cons.mpr ⟨tight, others⟩⟩
      · exact .inr fell
    · rcases ih later with ⟨rfl, -⟩ | ⟨changed, further⟩
      · exact .inr ⟨changed, fell⟩
      · exact .inr ⟨changed, further.trans fell⟩

theorem sweep?_falls {top limit : Nat} {arities : List Nat} {costs : Array Nat} {after : Pass}
    (done : sweep? top arities limit costs = some after) (changed : after.changed = true) :
    after.costs.toList.sum < costs.toList.sum := by
  rcases fold_keeps_or_falls _ done with ⟨rfl, -⟩ | ⟨-, fell⟩
  · cases changed
  · exact fell

/-- Sweeping until a sweep changes nothing. -/
def settle? (top : Nat) (arities : List Nat) (limit : Nat) (costs : Array Nat) :
    Option (Array Nat) :=
  match _swept : sweep? top arities limit costs with
  | none => none
  | some pass =>
    if _changed : pass.changed then settle? top arities limit pass.costs else some pass.costs
termination_by costs.toList.sum
decreasing_by exact sweep?_falls _swept _changed

/-- The costs of the depths from zero to the limit. -/
def closingCosts? (top : Nat) (arities : List Nat) (limit : Nat) : Option (Array Nat) := do
  let length ← add? top limit 1
  let start := Array.replicate length top
  settle? top arities limit (if 1 ≤ limit then start.setIfInBounds 1 0 else start)

/-! ## No overflow, and costs that runs attain -/

structure Sound (top : Nat) (arities : List Nat) (limit : Nat) (costs : Array Nat) : Prop where
  size : costs.size = limit + 1
  word : ∀ depth cost : Nat, costs[depth]? = some cost → cost ≤ top
  bottom : costs[0]? = some top
  closed : costs[1]? = some 0
  attained : ∀ depth cost : Nat, costs[depth]? = some cost → cost ≠ top →
    Closes arities limit depth cost

variable {top limit depth arity : Nat} {arities : List Nat} {costs : Array Nat}

theorem Sound.exists_cost (sound : Sound top arities limit costs) (inside : depth ≤ limit) :
    ∃ cost, costs[depth]? = some cost :=
  ⟨_, Array.getElem?_eq_getElem (by rw [sound.size]; omega)⟩

theorem Sound.lowers {pass after : Pass} (sound : Sound top arities limit pass.costs)
    (positive : 1 ≤ depth) (member : arity ∈ arities)
    (lowers : Lowers top limit pass depth arity after) :
    Sound top arities limit after.costs := by
  cases lowers with
  | kept => exact sound
  | @lowered next onward current step inside entry known here better =>
    have stored (other : Nat) : (pass.costs.setIfInBounds depth (onward + 1))[other]? =
        if depth = other then some (onward + 1) else pass.costs[other]? := by
      rw [Array.getElem?_setIfInBounds, if_pos (Array.getElem?_eq_some_iff.mp here).1]
    have bounded := sound.word depth current here
    have several : depth ≠ 1 := by
      rintro rfl
      cases here.symm.trans sound.closed
      omega
    refine ⟨?size, ?word, ?bottom, ?closed, ?attained⟩
    case size => rw [Array.size_setIfInBounds, sound.size]
    case word =>
      intro other cost found
      rw [stored] at found
      split at found
      · cases found
        omega
      · exact sound.word other cost found
    case bottom => rw [stored, if_neg (by omega), sound.bottom]
    case closed => rw [stored, if_neg several, sound.closed]
    case attained =>
      intro other cost found finite
      rw [stored] at found
      split at found
      · rename_i same
        subst same
        cases found
        exact .token member step inside (sound.attained next onward entry known)
      · exact sound.attained other cost found finite

theorem Sound.exists_lower {pass : Pass} (sound : Sound top arities limit pass.costs)
    (wide : limit < top) (inside : depth ≤ limit) (arity : Nat) :
    ∃ after, lower? top limit pass depth arity = some after := by
  rw [lower?]
  by_cases short : depth < arity
  · exact ⟨pass, if_pos short⟩
  have next : add? top (depth - arity) 1 = some (depth - arity + 1) := if_pos (by omega)
  rw [if_neg short, next]
  by_cases outside : limit < depth - arity + 1
  · exact ⟨pass, if_pos outside⟩
  obtain ⟨onward, entry⟩ := sound.exists_cost (not_lt.mp outside)
  by_cases unknown : onward = top
  · simp [outside, entry, unknown]
  have bounded := sound.word _ onward entry
  have candidate : add? top onward 1 = some (onward + 1) := if_pos (by omega)
  obtain ⟨current, here⟩ := sound.exists_cost inside
  simp only [Option.bind_eq_bind, Option.bind_some, outside, entry, unknown, candidate, here,
    if_false]
  split
  · exact ⟨_, rfl⟩
  · exact ⟨_, rfl⟩

theorem mem_moves {move : Nat × Nat} (member : move ∈ moves arities limit) :
    1 ≤ move.1 ∧ move.1 ≤ limit ∧ move.2 ∈ arities := by
  obtain ⟨depth, arity⟩ := move
  obtain ⟨deep, known⟩ := List.mem_product.mp member
  have range := List.mem_range'_1.mp deep
  exact ⟨by omega, by omega, known⟩

theorem Sound.fold {pass : Pass} (sound : Sound top arities limit pass.costs) (wide : limit < top)
    (steps : List (Nat × Nat)) (among : ∀ move ∈ steps, move ∈ moves arities limit) :
    ∃ after, steps.foldlM (fun pass move => lower? top limit pass move.1 move.2) pass = some after ∧
      Sound top arities limit after.costs := by
  induction steps generalizing pass with
  | nil => exact ⟨pass, rfl, sound⟩
  | cons move rest ih =>
    obtain ⟨first, others⟩ := List.forall_mem_cons.mp among
    obtain ⟨positive, inside, member⟩ := mem_moves first
    obtain ⟨middle, done⟩ := sound.exists_lower wide inside move.2
    rw [List.foldlM_cons, done]
    exact ih (sound.lowers positive member (lower?_cases done)) others

theorem Sound.sweep (sound : Sound top arities limit costs) (wide : limit < top) :
    ∃ after, sweep? top arities limit costs = some after ∧
      Sound top arities limit after.costs := by
  have start : Sound top arities limit (Pass.mk costs false).costs := sound
  exact start.fold wide _ fun _ member => member

/-! ## The end of the sweeps -/

def Settled (top : Nat) (arities : List Nat) (limit : Nat) (costs : Array Nat) : Prop :=
  ∀ depth arity, 1 ≤ depth → depth ≤ limit → arity ∈ arities → Tight top limit costs depth arity

theorem settled_of_sweep? {after : Pass} (done : sweep? top arities limit costs = some after)
    (still : after.changed = false) : after.costs = costs ∧ Settled top arities limit costs := by
  rcases fold_keeps_or_falls _ done with ⟨rfl, tight⟩ | ⟨changed, -⟩
  · refine ⟨rfl, fun depth arity positive inside member => tight (depth, arity) ?_⟩
    exact List.mem_product.mpr ⟨List.mem_range'_1.mpr (by omega), member⟩
  · rw [still] at changed
    cases changed

theorem Sound.settle (sound : Sound top arities limit costs) (wide : limit < top) :
    ∃ final, settle? top arities limit costs = some final ∧ Sound top arities limit final ∧
      Settled top arities limit final := by
  fun_induction settle? top arities limit costs with
  | case1 costs none =>
    obtain ⟨after, done, -⟩ := sound.sweep wide
    cases none.symm.trans done
  | case2 costs pass swept changed ih =>
    obtain ⟨after, done, kept⟩ := sound.sweep wide
    cases swept.symm.trans done
    exact ih kept
  | case3 costs pass swept still =>
    obtain ⟨same, settled⟩ := settled_of_sweep? swept (Bool.not_eq_true _ ▸ still)
    rw [same]
    exact ⟨costs, rfl, sound, settled⟩

/-- A settled cost is not above the length of any run. -/
theorem Sound.least {count : Nat} (sound : Sound top arities limit costs)
    (settled : Settled top arities limit costs) (closes : Closes arities limit depth count)
    (positive : 1 ≤ depth) (inside : depth ≤ limit) (few : count < top) :
    ∃ cost ≤ count, costs[depth]? = some cost := by
  induction closes with
  | done => exact ⟨0, Nat.le_refl _, sound.closed⟩
  | @token depth arity next count member step below rest ih =>
    have fresh := ((depthAfter?_eq_some_iff ..).mp step).2
    obtain ⟨onward, small, entry⟩ := ih (by omega) below (by omega)
    obtain ⟨current, lower, here⟩ :=
      settled depth arity positive inside member next onward step below entry (by omega)
    exact ⟨current, by omega, here⟩

/-- What an array of words says about a depth: the largest word says that it cannot be closed. -/
def known? (top cost : Nat) : Option Nat := if cost = top then none else some cost

theorem known?_eq_some_iff (cost count : Nat) :
    known? top cost = some count ↔ cost ≠ top ∧ cost = count := by
  simp [known?]

theorem Sound.isSmallest {cost : Nat} (sound : Sound top arities limit costs)
    (settled : Settled top arities limit costs) (wide : limit < top) (positive : 1 ≤ depth)
    (inside : depth ≤ limit) (here : costs[depth]? = some cost) :
    IsSmallest {count | Closes arities limit depth count} (known? top cost) := by
  refine isSmallest_of_attained positive inside (fun count found => ?_) fun count few closes => ?_
  · obtain ⟨finite, rfl⟩ := (known?_eq_some_iff ..).mp found
    exact sound.attained depth cost here finite
  · obtain ⟨found, small, stored⟩ := sound.least settled closes positive inside (by omega)
    cases here.symm.trans stored
    exact ⟨cost, small, (known?_eq_some_iff ..).mpr ⟨by omega, rfl⟩⟩

theorem sound_start (top : Nat) (arities : List Nat) (positive : 1 ≤ limit) :
    Sound top arities limit ((Array.replicate (limit + 1) top).setIfInBounds 1 0) := by
  have stored (depth : Nat) : ((Array.replicate (limit + 1) top).setIfInBounds 1 0)[depth]? =
      if depth = 1 then some 0 else if depth < limit + 1 then some top else none := by
    rw [Array.getElem?_setIfInBounds, Array.getElem?_replicate]
    grind
  refine ⟨?size, ?word, ?bottom, ?closed, ?attained⟩
  case size => simp
  case word =>
    intro depth cost found
    rw [stored] at found
    grind
  case bottom => rw [stored]; simp
  case closed => rw [stored, if_pos rfl]
  case attained =>
    intro depth cost found finite
    rw [stored] at found
    split at found
    · rename_i one
      subst one
      cases found
      exact .done
    · grind

theorem Sound.map_known (sound : Sound top arities limit costs)
    (settled : Settled top arities limit costs) (wide : limit < top) :
    costs.map (known? top) = closingCosts arities limit := by
  have sized := (closingCosts_relaxed arities limit).size
  refine Array.ext_getElem? fun depth => ?_
  rw [Array.getElem?_map]
  rcases Nat.eq_zero_or_pos depth with rfl | positive
  · rw [sound.bottom, closingCosts_zero]
    simp [known?]
  rcases le_or_gt depth limit with inside | outside
  · obtain ⟨cost, here⟩ := sound.exists_cost inside
    obtain ⟨entry, stored, smallest⟩ := closingCosts_isSmallest arities positive inside
    rw [here, stored, Option.map_some]
    exact congrArg some ((sound.isSmallest settled wide positive inside here).unique smallest)
  · rw [Array.getElem?_eq_none (by rw [sound.size]; exact outside),
      Array.getElem?_eq_none (by rw [sized]; exact outside), Option.map_none]

end InPlace

/-- Relaxation in place ends without overflow wherever the length of the array is a word, and gives
the table.  The entry of a depth is the smallest number of tokens that close a stack of that depth,
however high it grows in between, and the largest word just where no tokens do. -/
theorem closingCosts_shortest (arities : List Nat) (limit : Nat) (positive : 1 ≤ limit)
    (fits : ∀ arity ∈ arities, arity ≤ limit) :
    (∀ top, limit < top → ∃ costs, InPlace.closingCosts? top arities limit = some costs ∧
      costs.map (InPlace.known? top) = closingCosts arities limit) ∧
    ∀ depth, 1 ≤ depth → depth ≤ limit → ∃ entry,
      (closingCosts arities limit)[depth]? = some entry ∧
        IsSmallest (closingLengths arities depth) entry := by
  refine ⟨fun top wide => ?_, fun depth above inside => ?_⟩
  · obtain ⟨costs, done, sound, settled⟩ :=
      (InPlace.sound_start top arities positive).settle wide
    refine ⟨costs, ?_, sound.map_known settled wide⟩
    have length : InPlace.add? top limit 1 = some (limit + 1) := if_pos wide
    rw [InPlace.closingCosts?, length, Option.bind_eq_bind, Option.bind_some]
    dsimp only
    rw [if_pos positive, done]
  · obtain ⟨entry, stored, smallest⟩ := closingCosts_isSmallest arities above inside
    exact ⟨entry, stored, (isSmallest_closingLengths_iff fits above inside entry).mpr smallest⟩

/-- Two values wait for two leaves before a token of four values can close the stack. -/
theorem waiting_pair_closes :
    (1 ≤ 4 ∧ ∀ arity ∈ [0, 4], arity ≤ 4) ∧
    (∃ costs, InPlace.closingCosts? (2 ^ 64 - 1) [0, 4] 4 = some costs ∧
      costs.map (InPlace.known? (2 ^ 64 - 1)) = closingCosts [0, 4] 4) ∧
    IsLeast (closingLengths [0, 4] 2) 3 := by
  have fits : ∀ arity ∈ [0, 4], arity ≤ 4 := by decide
  obtain ⟨words, entries⟩ := closingCosts_shortest [0, 4] 4 (by decide) fits
  obtain ⟨entry, stored, smallest⟩ := entries 2 (by decide) (by decide)
  have three : (closingCosts [0, 4] 4)[2]? = some (some 3) := by decide +kernel
  cases three.symm.trans stored
  exact ⟨⟨by decide, fits⟩, words _ (by decide), smallest⟩

end Decoding

end FactorSearch
