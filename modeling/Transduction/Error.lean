import Transduction.Symbol
import Transduction.StateSet
import Transduction.Text.Quoted
import Transduction.Output

/-!
# Failures

Three things can go wrong, each at its own time. An expression has no machine (`CompileError`); a
machine gives some word two computations (`AmbiguityError`); or one word, while it is read, shows
two computations (`EvalError`). Every failure names the states, symbols and outputs that it is
about, and has one wording, which `message` gives.
-/

namespace Transduction

/-- Why an expression has no machine. -/
inductive CompileError where
  /-- The branches of a union emit different outputs on the empty word. -/
  | ambiguousUnion (lhs rhs : Output)
  /-- The body of a star emits an output on the empty word. -/
  | ambiguousStar (out : Output)
  /-- A named expression. -/
  | unsupportedVariable (name : String)
  /-- A range whose bounds stand in the wrong order. -/
  | invalidRange (range : SymbolRange)
deriving DecidableEq

/-- Why a machine is not known to have at most one computation for each word. -/
inductive AmbiguityError where
  /-- Two states that are active together accept. -/
  | acceptance (first second : StateId) (firstOut secondOut : Output)
  /-- Two edges out of states that are active together read one symbol and lead to one state. -/
  | transitions (firstSource secondSource target : StateId) (input : Symbol)
  /-- More sets of states can be active together than were allowed. -/
  | explorationLimit (limit : Nat)
deriving DecidableEq

/-- Why a word has no single computation. -/
inductive EvalError where
  /-- After `position` symbols, a state is reached in two ways. -/
  | paths (position : Nat) (target firstSource secondSource : StateId)
  /-- After the last symbol, two states accept. -/
  | acceptance (first second : StateId)
  /-- The recorded steps do not lead back to the initial state. -/
  | brokenBacktrack (state : StateId)
deriving DecidableEq

/-- Any failure. -/
inductive Error where
  /-- The expression has no machine. -/
  | compile (e : CompileError)
  /-- The machine may be ambiguous. -/
  | ambiguity (e : AmbiguityError)
  /-- The word is ambiguous. -/
  | eval (e : EvalError)
deriving DecidableEq

/-- An output as messages show it. -/
def Output.quoted (out : Output) : String := String.ofList (Text.quote out)

/-- The wording of a failure. -/
def CompileError.message : CompileError → String
  | ambiguousUnion lhs rhs =>
    s!"ambiguous epsilon output: union branches emit {lhs.quoted} and {rhs.quoted} " ++
      "on the empty word"
  | ambiguousStar out =>
    s!"ambiguous epsilon output: Kleene closure over an expression emitting {out.quoted} " ++
      "on the empty word"
  | unsupportedVariable name =>
    s!"unsupported construct: variable `{name}` cannot be compiled"
  | invalidRange range => s!"invalid symbol range [{range.lower}, {range.upper}]"

/-- The wording of a failure. -/
def AmbiguityError.message : AmbiguityError → String
  | acceptance first second firstOut secondOut =>
    s!"ambiguous acceptance: states {first} ({firstOut.quoted}) and " ++
      s!"{second} ({secondOut.quoted}) accept simultaneously"
  | transitions firstSource secondSource target input =>
    s!"conflicting transitions: state {target} reached from both " ++
      s!"{firstSource} and {secondSource} over input {input}"
  | explorationLimit limit => s!"exploration limit reached after {limit} superpositions"

/-- The wording of a failure. -/
def EvalError.message : EvalError → String
  | paths position target firstSource secondSource =>
    s!"runtime ambiguity: state {target} at position {position} reached from both " ++
      s!"{firstSource} and {secondSource}"
  | acceptance first second =>
    s!"runtime ambiguity: states {first} and {second} accept simultaneously"
  | brokenBacktrack state =>
    s!"backtracking from state {state} did not end at the initial state"

/-- The wording of a failure. -/
def Error.message : Error → String
  | compile e => e.message
  | ambiguity e => e.message
  | eval e => e.message

end Transduction
