import Transduction.Transducer.Basic

/-!
# Tables as they are given

The parts of a machine are its lists of edges, its final outputs and its initial state. Parts can be
given by hand, and then they need not fit together; `Transducer.ofParts?` makes a machine of those
that do. `Transducer.parts` takes a machine apart again.

## Main definitions

* `Transducer.Parts`: a table as it is given;
* `Transducer.parts`: the parts of a machine.
-/

namespace Transduction.Transducer

/-- A table as it is given. It need not fit together. -/
structure Parts where
  /-- The edges of each state. -/
  edges : List (List Edge)
  /-- What each state emits when it accepts; `none` if it does not. -/
  finals : List (Option Output)
  /-- The initial state. -/
  initial : StateId
deriving DecidableEq

/-- The parts of a machine. -/
def parts (m : Transducer) : Parts := ⟨m.edgeLists, m.finals, m.initial⟩

end Transduction.Transducer
