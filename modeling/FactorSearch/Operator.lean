import FactorSearch.Failure
import FactorSearch.Kernel.CrossSection
import FactorSearch.Kernel.Elementwise
import FactorSearch.Kernel.Window

/-!
# Operators

The closed set of operators of the formula language.  An operator takes a fixed number of operand
panels, of one grid, to a panel of that grid; a feature is a leaf that is looked up instead.
-/

set_option autoImplicit false

namespace FactorSearch

inductive Category where
  | arithmetic
  | unary
  | timeSeries
  | conditional
  | special
  | leaf
  deriving DecidableEq, Repr

namespace Category

def name : Category → String
  | arithmetic => "Arithmetic"
  | unary => "Unary"
  | timeSeries => "TimeSeries"
  | conditional => "Conditional"
  | special => "Special"
  | leaf => "Leaf"

end Category

inductive Operator where
  | add
  | sub
  | mul
  | div
  | neg
  | abs
  | sign
  | gate
  | max
  | min
  | delay (periods : Nat)
  | delta (periods : Nat)
  | mean (window : Nat)
  | deviation (window : Nat)
  | decay (window : Nat)
  | highest (window : Nat)
  | rank
  | zScore
  | feature (name : String)
  deriving DecidableEq, Repr

namespace Operator

def arity : Operator → Nat
  | feature _ => 0
  | neg | abs | sign | rank | zScore => 1
  | delay _ | delta _ | mean _ | deviation _ | decay _ | highest _ => 1
  | add | sub | mul | div | max | min => 2
  | gate => 3

def category : Operator → Category
  | add | sub | mul | div => .arithmetic
  | neg | abs | sign => .unary
  | gate | max | min => .conditional
  | delay _ | delta _ | mean _ | deviation _ | decay _ | highest _ => .timeSeries
  | rank | zScore => .special
  | feature _ => .leaf

/-- The operator as messages about operands name it. -/
def description : Operator → String
  | add => "Add"
  | sub => "Sub"
  | mul => "Mul"
  | div => "Div"
  | neg => "Neg"
  | abs => "Abs"
  | sign => "Sign"
  | gate => "Gate"
  | max => "Max"
  | min => "Min"
  | delay k => s!"Delay({k})"
  | delta k => s!"Delta({k})"
  | mean w => s!"Mean({w})"
  | deviation w => s!"Std({w})"
  | decay w => s!"Decay({w})"
  | highest w => s!"TsMax({w})"
  | rank => "Rank"
  | zScore => "ZScore"
  | feature name => "Feature(\"" ++ name ++ "\")"

variable {α : Type} [Scalar α] {periods instruments : Nat}

@[specialize] def apply (operator : Operator) (operands : List (Panel α periods instruments)) :
    Result (Panel α periods instruments) :=
  match operator, operands with
  | add, [x, y] => .ok (Kernel.add x y)
  | sub, [x, y] => .ok (Kernel.sub x y)
  | mul, [x, y] => .ok (Kernel.mul x y)
  | div, [x, y] => .ok (Kernel.div x y)
  | neg, [x] => .ok (Kernel.neg x)
  | abs, [x] => .ok (Kernel.abs x)
  | sign, [x] => .ok (Kernel.sign x)
  | gate, [c, x, y] => .ok (Kernel.gate c x y)
  | max, [x, y] => .ok (Kernel.max x y)
  | min, [x, y] => .ok (Kernel.min x y)
  | delay k, [x] => .ok (Kernel.delay k x)
  | delta k, [x] => .ok (Kernel.delta k x)
  | mean w, [x] => .ok (Kernel.mean w x)
  | deviation w, [x] => .ok (Kernel.deviation w x)
  | decay w, [x] => .ok (Kernel.decay w x)
  | highest w, [x] => .ok (Kernel.highest w x)
  | rank, [x] => .ok (Kernel.rank x)
  | zScore, [x] => .ok (Kernel.zScore x)
  | feature name, [] => .error (.internal (.noKernel name))
  | _, _ =>
    .error (.internal (.operandCount operator.description operator.arity operands.length))

end Operator

end FactorSearch
