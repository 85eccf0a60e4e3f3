import FactorSearch.Formula.Program

/-!
# Expression trees

What a program stands for: a tree whose nodes carry vocabulary entries, each with as many children
as its operator takes.  A tree has a listing of its tokens in postorder and a rendering in prefix
notation.
-/

set_option autoImplicit false

namespace FactorSearch

inductive Tree (v : Vocabulary) : Type where
  | node (entry : Fin v.entries.length)
      (children : Fin (v.entries.get entry).arity → Tree v) : Tree v

namespace Tree

variable {v : Vocabulary}

/-- The tokens with every operand before its operator. -/
def postorder : Tree v → Program
  | node entry children =>
    (List.ofFn fun i => (children i).postorder).flatten ++ [Token.ofNat entry.val]

def size : Tree v → Nat
  | node _ children => (List.ofFn fun i => (children i).size).sum + 1

def render : Tree v → String
  | node entry children =>
    Program.renderCall (v.entries.get entry).name (List.ofFn fun i => (children i).render)

end Tree

end FactorSearch
