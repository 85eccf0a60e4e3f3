import FactorSearch.Features
import FactorSearch.Sampling.WordStream

/-!
# A synthetic market

Observations to try a search on.  Returns revert weakly and follow the sentiment of the period
before; volatility follows the size of returns, and the number of news items the size of sentiment.
The same seed gives the same market.
-/

set_option autoImplicit false

namespace FactorSearch

structure SyntheticMarket where
  instruments : Nat
  featureCount : Nat
  periods : Nat
  seed : UInt64
  deriving DecidableEq, Repr

namespace SyntheticMarket

structure Tick (α : Type) where
  ret : α
  vol : α
  volumeChange : α
  turnover : α
  sentiment : α
  news : α

variable {α : Type} [Scalar α]

def Tick.origin : Tick α := ⟨0, 0.01, 0, 0, 0, 0⟩

/-- How many of at most `fuel` partial sums of a Poisson law lie at or below `target`, from the
term for `count` on. -/
@[specialize] def poissonCount (mean target : α) : Nat → Nat → α → α → Nat
  | 0, _, _, _ => 0
  | fuel + 1, count, term, sum =>
    let sum := sum + term
    if Scalar.le sum target then
      poissonCount mean target fuel (count + 1) (term * mean / Scalar.ofNat (count + 1)) sum + 1
    else 0

@[specialize] def poisson (mean target : α) : Nat :=
  poissonCount mean target 64 0 (Scalar.exp (-mean)) 0

/-- The observations that follow those of the period before, from five words. -/
@[specialize] def Tick.next (before : Tick α) (word : Nat → UInt64) : Tick α :=
  let sentiment := 0.8 * before.sentiment + 0.5 * WordStream.bell (word 0)
  let ret := -(0.1 * before.ret) + 0.004 * before.sentiment + 0.01 * WordStream.bell (word 1)
  { ret := ret
    vol := 0.9 * before.vol + 0.1 * Scalar.abs ret
    volumeChange := 0.1 * WordStream.bell (word 2) + 2 * Scalar.abs ret
    turnover := Scalar.exp (-3 + 0.3 * WordStream.bell (word 3))
    sentiment := sentiment
    news := Scalar.ofNat (poisson (2 + Scalar.abs sentiment) (WordStream.unit (word 4))) }

@[specialize] def simulate (stream : WordStream) {instruments : Nat} :
    Nat → Nat → Vector (Tick α) instruments → List (Vector (Tick α) instruments)
  | 0, _, _ => []
  | count + 1, period, before =>
    let row : Vector (Tick α) instruments := Vector.ofFn fun i =>
      before[i].next fun k => stream.word ((period * instruments + i.val) * 5 + k)
    row :: simulate stream count (period + 1) row

def columns : List (String × (Tick α → α)) :=
  [("RET", Tick.ret), ("VOL", Tick.vol), ("VOLUME_CHG", Tick.volumeChange),
    ("TURNOVER", Tick.turnover), ("SENTIMENT", Tick.sentiment), ("NEWS_COUNT", Tick.news)]

/-- A market needs four to six features, an instrument, and two periods. -/
def validate (m : SyntheticMarket) : Result Unit :=
  if m.featureCount < 4 ∨ 6 < m.featureCount then
    .error (.configuration (.featureCount m.featureCount))
  else if m.instruments = 0 ∨ m.periods < 2 then .error (.configuration .emptyMarket)
  else .ok ()

@[specialize] def generate (m : SyntheticMarket) :
    Result (FeatureSet α m.periods m.instruments) := do
  m.validate
  let stream := WordStream.ofSeed m.seed
  let rows := (simulate stream m.periods 0 (Vector.replicate m.instruments Tick.origin)).toArray
  let ticks : Panel (Tick α) m.periods m.instruments :=
    ⟨Vector.ofFn fun t => rows[t.val]?.getD (Vector.replicate m.instruments Tick.origin)⟩
  (columns.take m.featureCount).foldlM
    (fun set column => set.insert column.1 ⟨m.periods, m.instruments, ticks.map column.2⟩)
    FeatureSet.empty

end SyntheticMarket

end FactorSearch
