import FactorSearch.Scalar

/-!
# Streams of words

The randomness of a search is an infinite sequence of words of sixty-four bits and a position in
it.  A seeded sequence mixes an arithmetic progression; a cyclic one repeats a list.
-/

set_option autoImplicit false

namespace FactorSearch

structure WordStream where
  word : Nat → UInt64
  position : Nat

namespace WordStream

def next (stream : WordStream) : UInt64 × WordStream :=
  (stream.word stream.position, { stream with position := stream.position + 1 })

def mix (word : UInt64) : UInt64 :=
  let z := (word ^^^ (word >>> 30)) * 0xBF58476D1CE4E5B9
  let z := (z ^^^ (z >>> 27)) * 0x94D049BB133111EB
  z ^^^ (z >>> 31)

/-- The stream of a seed: the mixed terms of an arithmetic progression that starts one difference
above the seed. -/
def ofSeed (seed : UInt64) : WordStream where
  word index := mix (seed + UInt64.ofNat (index + 1) * 0x9E3779B97F4A7C15)
  position := 0

def cycle (words : List UInt64) : WordStream :=
  let table := words.toArray
  ⟨fun index => table[index % table.size]?.getD 0, 0⟩

variable {α : Type} [Scalar α]

/-- The number from zero up to but not including one that a word's upper fifty-two bits spell. -/
@[specialize] def unit (word : UInt64) : α :=
  Scalar.ofNat (word >>> 12).toNat / Scalar.ofNat (Nat.pow 2 52)

/-- A number with mean zero and deviation one from the four quarters of a word: their sum is close
to normal. -/
@[specialize] def bell (word : UInt64) : α :=
  let quarter (shift : UInt64) : Nat := ((word >>> shift) % 65536).toNat
  let total := quarter 0 + quarter 16 + quarter 32 + quarter 48
  (Scalar.ofNat total / Scalar.ofNat 65536 - 2) * Scalar.sqrt 3

end WordStream

end FactorSearch
