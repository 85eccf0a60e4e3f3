import FactorSearch.Formula.Tree
import Mathlib.Data.List.OfFn

/-!
# Postorder listings and stack runs

A meaning gives every entry of the vocabulary a function of its operands' values.  `Tree.fold`
applies it by recursion on a tree and `Program.foldOnto` along a list of tokens, on a stack.  The
two agree on postorder listings.  With trees themselves as values the stack run reads a listing
back, so a tree is determined by its listing, and what a run leaves is what it has read.
-/

set_option autoImplicit false

namespace FactorSearch

variable {v : Vocabulary} {β : Type}

namespace Vocabulary

theorem size_le_token_range (v : Vocabulary) : v.entries.length ≤ 30 := by
  rcases v with ⟨_ | _⟩ <;> decide

end Vocabulary

namespace Token

theorem index_ofNat_of_lt (index : Nat) (small : index < 65536) :
    (Token.ofNat index).index = index := by
  simp only [Token.ofNat, Token.index, UInt16.toNat_ofNat']
  exact Nat.mod_eq_of_lt small

theorem ofNat_index (token : Token) : Token.ofNat token.index = token := by
  simp [Token.ofNat, Token.index]

theorem index_ofNat_entry (entry : Fin v.entries.length) :
    (Token.ofNat entry.val).index = entry.val := by
  have bound := v.size_le_token_range
  exact index_ofNat_of_lt entry.val (by omega)

end Token

/-- What every entry makes of the values of its operands. -/
abbrev Meaning (v : Vocabulary) (β : Type) : Type :=
  (entry : Fin v.entries.length) → (Fin (v.entries.get entry).arity → β) → β

namespace Tree

def fold (f : Meaning v β) : Tree v → β
  | node entry children => f entry fun i => (children i).fold f

theorem fold_node (tree : Tree v) : tree.fold Tree.node = tree := by
  induction tree with
  | node entry children ih =>
    simp only [fold]
    exact congrArg (Tree.node entry) (funext ih)

theorem length_postorder_pos (tree : Tree v) : 1 ≤ tree.postorder.length := by
  cases tree with
  | node entry children => simp [postorder]

end Tree

namespace Program

/-- The top `count` values of a stack in the order in which they were pushed. -/
def operands (stack : List β) (count : Nat) (enough : count ≤ stack.length) (i : Fin count) : β :=
  stack.get ⟨count - 1 - i.val, by omega⟩

/-- The stack after one token, the latest value first; none for an unknown token and for one that
finds too few values. -/
def push? (f : Meaning v β) (token : Token) (stack : List β) : Option (List β) :=
  if known : token.index < v.entries.length then
    let entry : Fin v.entries.length := ⟨token.index, known⟩
    if enough : (v.entries.get entry).arity ≤ stack.length then
      some (f entry (operands stack _ enough) :: stack.drop (v.entries.get entry).arity)
    else none
  else none

def foldOnto (f : Meaning v β) (stack : List β) : Program → Option (List β)
  | [] => some stack
  | token :: rest =>
    match push? f token stack with
    | none => none
    | some next => foldOnto f next rest

theorem ofFn_operands (stack : List β) (count : Nat) (enough : count ≤ stack.length) :
    List.ofFn (operands stack count enough) = (stack.take count).reverse := by
  apply List.ext_getElem
  · simp only [List.length_ofFn, List.length_reverse, List.length_take]
    omega
  · intro i inside _
    have taken : (stack.take count).length = count := by
      rw [List.length_take]
      omega
    simp only [List.getElem_ofFn, operands, List.get_eq_getElem, List.getElem_reverse,
      List.getElem_take, taken]

theorem operands_reverse_ofFn {count : Nat} (values : Fin count → β) (rest : List β)
    (enough : count ≤ ((List.ofFn values).reverse ++ rest).length) :
    operands ((List.ofFn values).reverse ++ rest) count enough = values := by
  funext i
  have inside : count - 1 - i.val < (List.ofFn values).reverse.length := by
    simp only [List.length_reverse, List.length_ofFn]
    omega
  simp only [operands, List.get_eq_getElem]
  rw [List.getElem_append_left inside, List.getElem_reverse, List.getElem_ofFn]
  congr 1
  apply Fin.ext
  simp only [List.length_ofFn]
  omega

theorem push?_entry (f : Meaning v β) (entry : Fin v.entries.length) (stack : List β) :
    push? f (Token.ofNat entry.val) stack =
      if enough : (v.entries.get entry).arity ≤ stack.length then
        some (f entry (operands stack _ enough) :: stack.drop (v.entries.get entry).arity)
      else none := by
  have same : (⟨(Token.ofNat entry.val).index, by
      rw [Token.index_ofNat_entry]; exact entry.isLt⟩ : Fin v.entries.length) = entry :=
    Fin.ext (Token.index_ofNat_entry entry)
  have known : (Token.ofNat entry.val).index < v.entries.length := by
    rw [Token.index_ofNat_entry]
    exact entry.isLt
  simp only [push?, known, dif_pos]
  rw [same]

theorem push?_values (f : Meaning v β) (entry : Fin v.entries.length)
    (values : Fin (v.entries.get entry).arity → β) (rest : List β) :
    push? f (Token.ofNat entry.val) ((List.ofFn values).reverse ++ rest) =
      some (f entry values :: rest) := by
  have enough : (v.entries.get entry).arity ≤ ((List.ofFn values).reverse ++ rest).length := by
    simp
  have dropped : ((List.ofFn values).reverse ++ rest).drop (v.entries.get entry).arity = rest :=
    List.drop_left' (by simp)
  rw [push?_entry, dif_pos enough, operands_reverse_ofFn values rest enough, dropped]

theorem foldOnto_append (f : Meaning v β) (stack : List β) (program rest : Program) :
    foldOnto f stack (program ++ rest) =
      (foldOnto f stack program).bind fun next => foldOnto f next rest := by
  induction program generalizing stack with
  | nil => rfl
  | cons token program ih =>
    simp only [List.cons_append, foldOnto]
    cases push? f token stack with
    | none => rfl
    | some next => exact ih next

theorem foldOnto_listings (f : Meaning v β) (trees : List (Tree v))
    (agrees : ∀ tree ∈ trees, ∀ stack,
      foldOnto f stack tree.postorder = some (tree.fold f :: stack))
    (stack : List β) :
    foldOnto f stack (trees.map Tree.postorder).flatten =
      some ((trees.map (Tree.fold f)).reverse ++ stack) := by
  induction trees generalizing stack with
  | nil => rfl
  | cons tree trees ih =>
    have head := agrees tree (List.mem_cons_self ..) stack
    have tail := ih (fun other member => agrees other (List.mem_cons_of_mem _ member))
      (tree.fold f :: stack)
    simp only [List.map_cons, List.flatten_cons, foldOnto_append, head, Option.bind_some, tail,
      List.reverse_cons, List.append_assoc, List.singleton_append]

/-- Running the listing of a tree leaves the value of the tree. -/
theorem foldOnto_postorder (f : Meaning v β) (tree : Tree v) (stack : List β) :
    foldOnto f stack tree.postorder = some (tree.fold f :: stack) := by
  induction tree generalizing stack with
  | node entry children ih =>
    have listings : (List.ofFn fun i => (children i).postorder) =
        (List.ofFn children).map Tree.postorder := by
      rw [List.map_ofFn]
      rfl
    have values : (List.ofFn children).map (Tree.fold f) =
        List.ofFn fun i => (children i).fold f := by
      rw [List.map_ofFn]
      rfl
    have run := foldOnto_listings f (List.ofFn children)
      (by
        intro tree member
        obtain ⟨i, rfl⟩ := (List.mem_ofFn' _ _).mp member
        exact ih i)
      stack
    simp only [Tree.postorder, Tree.fold, foldOnto_append, listings, run, values, Option.bind_some,
      foldOnto, push?_values]

theorem push?_eq_some (f : Meaning v β) (token : Token) (stack next : List β)
    (pushed : push? f token stack = some next) :
    ∃ (entry : Fin v.entries.length) (enough : (v.entries.get entry).arity ≤ stack.length),
      token = Token.ofNat entry.val ∧
        next = f entry (operands stack _ enough) :: stack.drop (v.entries.get entry).arity := by
  simp only [push?] at pushed
  split at pushed
  · rename_i known
    split at pushed
    · rename_i enough
      exact ⟨⟨token.index, known⟩, enough, token.ofNat_index.symm, (Option.some.inj pushed).symm⟩
    · contradiction
  · contradiction

theorem postorder_node_operands (entry : Fin v.entries.length) (stack : List (Tree v))
    (enough : (v.entries.get entry).arity ≤ stack.length) :
    (Tree.node entry (operands stack _ enough)).postorder =
      ((stack.take (v.entries.get entry).arity).reverse.map Tree.postorder).flatten ++
        [Token.ofNat entry.val] := by
  rw [← ofFn_operands stack _ enough, List.map_ofFn]
  rfl

/-- What a run with trees as values leaves is what it has read. -/
theorem flatten_foldOnto_node (program : Program) (stack out : List (Tree v))
    (run : foldOnto Tree.node stack program = some out) :
    (out.reverse.map Tree.postorder).flatten =
      (stack.reverse.map Tree.postorder).flatten ++ program := by
  induction program generalizing stack with
  | nil =>
    cases Option.some.inj run
    exact (List.append_nil _).symm
  | cons token rest ih =>
    simp only [foldOnto] at run
    cases pushed : push? Tree.node token stack with
    | none => simp [pushed] at run
    | some next =>
      rw [pushed] at run
      obtain ⟨entry, enough, rfl, rfl⟩ := push?_eq_some Tree.node token stack next pushed
      have cut : stack.reverse =
          (stack.drop (v.entries.get entry).arity).reverse ++
            (stack.take (v.entries.get entry).arity).reverse := by
        rw [← List.reverse_append, List.take_append_drop]
      rw [ih _ run, List.reverse_cons, cut]
      simp only [List.map_append, List.map_cons, List.map_nil, List.flatten_append,
        List.flatten_cons, List.flatten_nil, List.append_nil, postorder_node_operands,
        List.append_assoc, List.singleton_append]

end Program

namespace Tree

theorem postorder_injective (first second : Tree v) (same : first.postorder = second.postorder) :
    first = second := by
  have one := Program.foldOnto_postorder Tree.node first []
  have two := Program.foldOnto_postorder Tree.node second []
  rw [same, two, fold_node, fold_node] at one
  exact (List.cons.inj (Option.some.inj one)).1.symm

end Tree

end FactorSearch
