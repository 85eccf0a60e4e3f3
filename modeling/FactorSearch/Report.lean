import FactorSearch.Miner
import FactorSearch.Text.Json
import FactorSearch.Training.Run

/-!
# Reports

Outcomes, step records and summaries as JSON.  Every report takes the way in which its numbers are
written.
-/

set_option autoImplicit false

namespace FactorSearch

namespace Report

variable {α : Type}

def rejection : Rejection → Json
  | .empty => .object [("kind", .text "empty")]
  | .unknownToken position id =>
    .object [("kind", .text "unknown_token"), ("position", .nat position), ("id", .nat id)]
  | .underflow position required depth =>
    .object [("kind", .text "underflow"), ("position", .nat position),
      ("required", .nat required), ("depth", .nat depth)]
  | .unclosed depth => .object [("kind", .text "unclosed"), ("depth", .nat depth)]
  | .tooLong length limit =>
    .object [("kind", .text "too_long"), ("len", .nat length), ("max", .nat limit)]

def degeneracy (number : α → Json) : Degeneracy α → Json
  | .empty => .object [("kind", .text "empty")]
  | .tooManyMissing ratio =>
    .object [("kind", .text "too_many_missing"), ("ratio", number ratio)]
  | .constant ratio => .object [("kind", .text "constant"), ("ratio", number ratio)]
  | .nonFinite => .object [("kind", .text "non_finite")]

def metrics (number : α → Json) (m : Metrics α) : Json :=
  .object
    [("sortino", number m.sortino), ("sharpe", number m.sharpe), ("ic", number m.ic),
      ("rank_ic", number m.rankIc), ("max_drawdown", number m.maxDrawdown),
      ("turnover", number m.turnover), ("mean_return", number m.meanReturn)]

def outcome (number : α → Json) : Outcome α → Json
  | .scored formula m reward =>
    .object [("outcome", .text "scored"), ("formula", .text formula),
      ("metrics", metrics number m), ("reward", number reward)]
  | .invalid reason reward =>
    .object [("outcome", .text "invalid"), ("reason", rejection reason),
      ("reward", number reward)]
  | .degenerate formula reason reward =>
    .object [("outcome", .text "degenerate"), ("formula", .text formula),
      ("reason", degeneracy number reason), ("reward", number reward)]

def stepRecord (number : α → Json) (r : Training.StepRecord α) : Json :=
  .object
    [("step", .nat r.step), ("avg_reward", number r.averageReward),
      ("max_reward", number r.maxReward), ("loss", number r.loss),
      ("valid_ratio", number r.validRatio),
      ("best_score", Json.optional number r.bestScore),
      ("best_formula", Json.optional .text r.bestFormula)]

def runState : Training.RunState → Json
  | .idle => .object [("state", .text "idle")]
  | .running step => .object [("state", .text "running"), ("step", .nat step)]
  | .completed => .object [("state", .text "completed")]
  | .aborted => .object [("state", .text "aborted")]
  | .failed failure =>
    .object [("state", .text "error"), ("message", .text failure.message)]

def factor (number : α → Json) (f : Factor α) : Json :=
  .object [("formula", .text f.formula), ("reward", number f.reward),
    ("metrics", metrics number f.metrics), ("step", .nat f.step)]

def summary (number : α → Json) (s : Training.Summary α) : Json :=
  .object
    [("best_score", Json.optional number s.bestScore),
      ("best_formula", Json.optional .text s.bestFormula),
      ("best_metrics", Json.optional (metrics number) s.bestMetrics),
      ("total_steps", .nat s.totalSteps), ("state", runState s.state),
      ("hall_of_fame", .list (s.hall.map (factor number)))]

def padLeft (width : Nat) (s : String) : String := "".pushn ' ' (width - s.length) ++ s

def padRight (width : Nat) (s : String) : String := s.pushn ' ' (width - s.length)

/-- One line for a vocabulary entry: index, name, arity and category. -/
def entryLine (index : Nat) (e : Entry) : String :=
  padLeft 3 (toString index) ++ "  " ++ padRight 12 e.name ++ " arity " ++ toString e.arity ++
    "  " ++ e.category.name ++ "\n"

def vocabulary (v : Vocabulary) : String :=
  String.join (v.entries.zipIdx.map fun (e, index) => entryLine index e)

end Report

end FactorSearch
