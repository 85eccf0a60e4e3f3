/-!
# Failures

Why an operation gave no result, as causes.  `Failure.message` is the only place that words them.
Failures of files and of documents in a foreign format have no wording here: a reader of those
formats has its own.
-/

set_option autoImplicit false

namespace FactorSearch

/-- A setting or a count that no computation can start from.  Numbers that may be fractional are
held as they are spelled. -/
inductive ConfigurationFault where
  | headsDoNotDivide (width heads : Nat)
  | noLength
  | lengthBeyondParser (length limit : Nat)
  | emptyPolicy
  | emptyBatch
  | learningRate
  | baselineDecay
  | entropyCoefficient
  | gradientNorm
  | penaltyOrder (invalid constant : String)
  | costOrThreshold
  | degeneracyRatio
  | varianceEpsilon
  | featureCount (count : Nat)
  | emptyMarket
  | noSuchFile (path : String)
  deriving DecidableEq, Repr

inductive FormulaFault where
  | tooLarge (names calls limit : Nat)
  | noFormula
  | unknownName (name : String)
  | argumentCount (name : String) (expected given : Nat)
  deriving DecidableEq, Repr

/-- A broken promise between two parts of the library, or unusable numbers in the policy. -/
inductive InternalFault where
  | operandCount (operator : String) (expected given : Nat)
  | noKernel (feature : String)
  | unknownToken (id position : Nat)
  | stackUnderflow (position : Nat) (name : String)
  | stackResidue (count : Nat)
  | decodeRange (length depth : Nat)
  | maskLength (entries actions : Nat)
  | noFiniteLogit
  | noWeights
  | invalidWeight
  | zeroWeights
  | actionNotApplicable (action depth : Nat)
  | finishedRun (state : String)
  deriving DecidableEq, Repr

inductive LoadingFault where
  | unreadable
  | noDates
  | noInstruments
  | incomplete (feature : String)
  deriving DecidableEq, Repr

inductive Failure where
  | configuration (fault : ConfigurationFault)
  | unknownFeature (name : String)
  | malformedFormula (fault : FormulaFault)
  | shapeMismatch (name : String) (expected actual : Nat × Nat)
  | internal (fault : InternalFault)
  | dataLoading (fault : LoadingFault)
  | file
  | table
  | settings
  | settingsOutput
  deriving DecidableEq, Repr

namespace ConfigurationFault

def message : ConfigurationFault → String
  | headsDoNotDivide width heads =>
    s!"d_model ({width}) must be a positive multiple of nhead ({heads})"
  | noLength => "max_seq_len must be at least 1"
  | lengthBeyondParser length limit =>
    s!"max_seq_len ({length}) exceeds the formula parser limit ({limit})"
  | emptyPolicy => "policy needs a non-empty vocabulary and max_seq_len > 0"
  | emptyBatch => "Batch size must be at least 1"
  | learningRate => "Learning rate must be positive"
  | baselineDecay => "Baseline decay must be in [0, 1)"
  | entropyCoefficient => "Entropy coefficient must be non-negative"
  | gradientNorm => "Max gradient norm must be positive"
  | penaltyOrder invalid constant =>
    s!"Penalties must satisfy invalid ({invalid}) <= constant ({constant}) < -1"
  | costOrThreshold => "Cost rate and signal threshold must be non-negative"
  | degeneracyRatio => "Degeneracy ratios must be between 0 and 1"
  | varianceEpsilon => "Variance epsilon must be non-negative"
  | featureCount count => s!"num_features must be between 4 and 6, got {count}"
  | emptyMarket => "synthetic market needs at least one instrument and two periods"
  | noSuchFile path => s!"Config file not found: {path}"

end ConfigurationFault

namespace FormulaFault

def message : FormulaFault → String
  | tooLarge names calls limit =>
    s!"formula too large: {names} names, {calls} nested calls (limit {limit})"
  | noFormula => "syntax"
  | unknownName name => s!"unknown name '{name}'"
  | argumentCount name expected given => s!"{name} expects {expected} arguments, got {given}"

end FormulaFault

namespace InternalFault

def message : InternalFault → String
  | operandCount operator expected given =>
    s!"{operator} expects {expected} operands, got {given}"
  | noKernel feature => s!"feature leaf {feature} has no kernel"
  | unknownToken id position => s!"unknown token #{id} at {position}"
  | stackUnderflow position name => s!"stack underflow at {position} ({name})"
  | stackResidue count => s!"stack residue: {count} values"
  | decodeRange length depth => s!"decode state out of range: length {length}, depth {depth}"
  | maskLength entries actions => s!"mask has {entries} entries for {actions} actions"
  | noFiniteLogit => "no finite logit among allowed actions"
  | noWeights => "cannot sample policy: No weights provided in distribution"
  | invalidWeight => "cannot sample policy: A weight is invalid in distribution"
  | zeroWeights => "cannot sample policy: All weights are zero in distribution"
  | actionNotApplicable action depth => s!"action {action} not applicable at depth {depth}"
  | finishedRun state => s!"step requested on a finished run ({state})"

end InternalFault

namespace LoadingFault

def message : LoadingFault → String
  | unreadable => "Failed to read CSV"
  | noDates => "missing date column"
  | noInstruments => "missing instrument column"
  | incomplete feature => s!"Panel incomplete: Unknown feature: {feature}"

end LoadingFault

namespace Failure

def shapeText (shape : Nat × Nat) : String := s!"({shape.1}, {shape.2})"

def message : Failure → String
  | configuration fault => "Configuration error: " ++ fault.message
  | unknownFeature name => "Unknown feature: " ++ name
  | malformedFormula fault => "Malformed formula: " ++ fault.message
  | shapeMismatch name expected actual =>
    "Shape mismatch for " ++ name ++ ": expected " ++ shapeText expected ++ ", got " ++
      shapeText actual
  | internal fault => "Internal invariant violated: " ++ fault.message
  | dataLoading fault => "Data loading error: " ++ fault.message
  | file => ""
  | table => ""
  | settings => ""
  | settingsOutput => ""

def isConfiguration : Failure → Bool
  | configuration _ => true
  | unknownFeature _ => true
  | malformedFormula _ => true
  | shapeMismatch _ _ _ => true
  | settings => true
  | _ => false

end Failure

abbrev Result (β : Type) := Except Failure β

end FactorSearch
