import Transduction.Error
import Transduction.Expr.Denotation

/-!
# The empty word

Whether an expression has a machine depends on what its parts emit on the empty word, and on nothing
else but its ranges and variables. `Expr.emptyWord` finds this from the expression alone: the output
on the empty word if there is one, or the first failure from left to right, parts before the whole.

## Main definitions

* `Expr.emptyWord`: the output on the empty word, or why the expression has no machine;
* `Expr.parts`, `Expr.Sound`: the parts of an expression, and what is asked of each of them;
* `CompileError.Shortens`: the same failure, or a union whose branches have lost a common end.
-/

namespace Transduction

/-- The failure that an expression keeps when outputs are taken out of its unions: the outputs that
a union emits on the empty word may lose a common end, and all else stays. -/
inductive CompileError.Shortens : CompileError → CompileError → Prop
  /-- The branches lose the same end `s`. -/
  | union (lhs rhs s : Output) :
    Shortens (.ambiguousUnion (lhs ++ s) (rhs ++ s)) (.ambiguousUnion lhs rhs)
  /-- The star keeps its output. -/
  | star (out : Output) : Shortens (.ambiguousStar out) (.ambiguousStar out)
  /-- The variable keeps its name. -/
  | var (name : String) : Shortens (.unsupportedVariable name) (.unsupportedVariable name)
  /-- The range keeps its bounds. -/
  | range (range : SymbolRange) : Shortens (.invalidRange range) (.invalidRange range)

namespace Expr

/-- Branches of a union that emit the given outputs on the empty word. -/
def emptyUnion : Option Output → Option Output → Except CompileError (Option Output)
  | some a, some b => if a = b then .ok (some a) else .error (.ambiguousUnion a b)
  | a, b => .ok (a.or b)

/-- A star whose body emits the given output on the empty word. -/
def emptyStar : Option Output → Except CompileError (Option Output)
  | none | some [] => .ok (some [])
  | some out => .error (.ambiguousStar out)

/-- The output on the empty word; `none` if the empty word is not accepted, and a failure if the
expression has no machine. -/
def emptyWord : Expr → Except CompileError (Option Output)
  | union l r => do emptyUnion (← l.emptyWord) (← r.emptyWord)
  | concat l r => do return Output.join? (← l.emptyWord) (← r.emptyWord)
  | star b => do emptyStar (← b.emptyWord)
  | literal word out => .ok (if word.isEmpty then some out else none)
  | range r _ => if r.IsEmpty then .error (.invalidRange r) else .ok none
  | emit b out => do return (← b.emptyWord).map (· ++ out)
  | var name => .error (.unsupportedVariable name)

/-- The parts of the expression, from the outside in, the expression itself first. -/
def parts : Expr → List Expr
  | union l r => union l r :: (l.parts ++ r.parts)
  | concat l r => concat l r :: (l.parts ++ r.parts)
  | star b => star b :: b.parts
  | literal word out => [literal word out]
  | range r out => [range r out]
  | emit b out => emit b out :: b.parts
  | var name => [var name]

/-- A part that is no obstacle to a machine. The condition is on the words and outputs that the part
denotes: how it is checked does not matter. -/
structure Sound (e : Expr) : Prop where
  /-- It is no variable. -/
  not_var : ∀ name, e ≠ var name
  /-- It is no range without symbols. -/
  not_isEmpty : ∀ r out, e = range r out → ¬ r.IsEmpty
  /-- It has one output at most on the empty word. -/
  unique : ∀ o o', e.Denotes [] o → e.Denotes [] o' → o = o'

end Expr

end Transduction
