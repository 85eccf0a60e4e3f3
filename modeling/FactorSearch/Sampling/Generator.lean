import FactorSearch.Decoding.Grammar
import FactorSearch.Formula.Program
import FactorSearch.Policy.Forward
import FactorSearch.Sampling.Choice

/-!
# Generating programs

Programs are drawn token by token: the grammar masks the actions, the policy weighs those that are
left, and a word of the stream picks one.  A draw ends when it stops, when nothing is allowed, or
when it is as long as it may be; what it emitted is then validated.  How a word picks among weights
is a parameter; `sample` and `samples` take `Choice.draw` for it.
-/

set_option autoImplicit false

namespace FactorSearch

namespace Sampling

inductive Draw where
  | valid (program : Program) (formula : String)
  | rejected (reason : Rejection)
  deriving DecidableEq

namespace Draw

def isValid : Draw → Bool
  | valid _ _ => true
  | rejected _ => false

def formula? : Draw → Option String
  | valid _ formula => some formula
  | rejected _ => none

end Draw

/-- One decision of a decode: the forward pass, the action that was drawn, and the logarithm of its
probability. -/
structure Decision (α : Type) (s : Policy.Shape) where
  trace : Policy.Trace α s
  action : Nat
  logProbability : α

structure Sample (α : Type) (s : Policy.Shape) where
  draw : Draw
  decisions : List (Decision α s)

namespace Sample

variable {α : Type} [Scalar α] {s : Policy.Shape}

def actions (sample : Sample α s) : List Nat := sample.decisions.map Decision.action

@[specialize] def logProbability (sample : Sample α s) : α :=
  Scalar.total (sample.decisions.map Decision.logProbability)

@[specialize] def entropy (sample : Sample α s) : α :=
  Scalar.total (sample.decisions.map fun decision => decision.trace.entropy)

end Sample

/-- A decode: its decisions, the tokens emitted, and the depth of the stack if it did not stop. -/
structure Walk (α : Type) (s : Policy.Shape) where
  decisions : List (Decision α s)
  tokens : List Nat
  open? : Option Nat

/-- The grammar that masks, and the vocabulary and length that draws are validated with. -/
structure Generator where
  vocabulary : Vocabulary
  grammar : Grammar
  limit : Nat

namespace Generator

def ofVocabulary (v : Vocabulary) (maxLength : Nat) : Generator :=
  ⟨v, .ofVocabulary v maxLength, maxLength⟩

variable {α : Type} [Scalar α] {s : Policy.Shape}

@[specialize] def walk (pick : List α → UInt64 → Result Nat) (g : Grammar)
    (p : Policy.Parameters α s) :
    Nat → DecodeState → List Nat → WordStream → Result (Walk α s) × WordStream
  | 0, state, tokens, stream => (.ok ⟨[], tokens, some state.depth⟩, stream)
  | fuel + 1, state, tokens, stream =>
    let mask := g.mask state
    if !mask.any (fun allowed => allowed) then (.ok ⟨[], tokens, some state.depth⟩, stream)
    else
      match Policy.forward p tokens state.depth mask with
      | .error failure => (.error failure, stream)
      | .ok trace =>
        let (word, drawn) := stream.next
        match pick trace.probabilities.toList word with
        | .error failure => (.error failure, stream)
        | .ok action =>
          let decision : Decision α s := ⟨trace, action, trace.logProbability action⟩
          if action = g.stop then (.ok ⟨[decision], tokens, none⟩, drawn)
          else
            match g.advance? state action with
            | none => (.error (.internal (.actionNotApplicable action state.depth)), drawn)
            | some next =>
              match walk pick g p fuel next (tokens ++ [action]) drawn with
              | (.ok rest, last) =>
                (.ok { rest with decisions := decision :: rest.decisions }, last)
              | (.error failure, last) => (.error failure, last)

def drawOf (g : Generator) (tokens : List Nat) : Option Nat → Draw
  | some depth => .rejected (.unclosed depth)
  | none =>
    let program : Program := tokens.map Token.ofNat
    match program.validate g.vocabulary g.limit with
    | .ok formula => .valid program formula
    | .error reason => .rejected reason

@[specialize] def sampleWith (pick : List α → UInt64 → Result Nat) (g : Generator)
    (p : Policy.Parameters α s) (stream : WordStream) : Result (Sample α s) × WordStream :=
  match walk pick g.grammar p (g.grammar.maxLength + 1) .initial [] stream with
  | (.ok walk, stream) => (.ok ⟨g.drawOf walk.tokens walk.open?, walk.decisions⟩, stream)
  | (.error failure, stream) => (.error failure, stream)

/-- A batch of samples, drawn one after the other up to the first failure. -/
@[specialize] def samplesWith (pick : List α → UInt64 → Result Nat) (g : Generator)
    (p : Policy.Parameters α s) : Nat → WordStream → Result (List (Sample α s)) × WordStream
  | 0, stream => (.ok [], stream)
  | count + 1, stream =>
    match g.sampleWith pick p stream with
    | (.error failure, stream) => (.error failure, stream)
    | (.ok first, stream) =>
      match samplesWith pick g p count stream with
      | (.error failure, stream) => (.error failure, stream)
      | (.ok rest, stream) => (.ok (first :: rest), stream)

@[specialize] def sample (g : Generator) (p : Policy.Parameters α s) (stream : WordStream) :
    Result (Sample α s) × WordStream :=
  g.sampleWith Choice.draw p stream

@[specialize] def samples (g : Generator) (p : Policy.Parameters α s) (count : Nat)
    (stream : WordStream) : Result (List (Sample α s)) × WordStream :=
  g.samplesWith Choice.draw p count stream

end Generator

/-- The logarithm of the probability of a list of actions under the grammar, up to the first one
that ends the decode. -/
@[specialize] def sequenceLogProbability {α : Type} [Scalar α] {s : Policy.Shape} (g : Grammar)
    (p : Policy.Parameters α s) (state : DecodeState) (tokens : List Nat) (total : α) :
    List Nat → Result α
  | [] => .ok total
  | action :: rest =>
    match Policy.forward p tokens state.depth (g.mask state) with
    | .error failure => .error failure
    | .ok trace =>
      let total := total + trace.logProbability action
      match g.advance? state action with
      | none => .ok total
      | some next => sequenceLogProbability g p next (tokens ++ [action]) total rest

end Sampling

end FactorSearch
