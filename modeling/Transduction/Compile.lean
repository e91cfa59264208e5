import Transduction.PositionGraph.Build
import Transduction.Transducer.OfGraph
import Transduction.Transducer.Functional

/-!
# Compilation

An expression is numbered from zero and its position graph is laid out as a transducer.
-/

namespace Transduction.Expr

/-- The transducer of an expression. -/
def compile (e : Expr) : Except CompileError Transducer :=
  ((PositionGraph.build e).runFrom 0).1.map Transducer.ofGraph

/-- The transducer of an expression, if every word has at most one computation in it. -/
def compileFunctional (e : Expr) : Except Error Transducer :=
  match e.compile with
  | .error err => .error (.compile err)
  | .ok m =>
    match m.checkFunctional with
    | .error err => .error (.ambiguity err)
    | .ok () => .ok m

end Transduction.Expr
