import Transduction.Expr.Denotation
import Transduction.Expr.Normalize
import Transduction.Expr.Occurrences
import Transduction.Expr.Size
import Transduction.Text.Bytes

/-!
# Common ends cut by bytes

Normalisation takes the common end of two branches out of a union. Here the end is measured in
bytes, on the output of the one branch, and cut from both branches by this number, each being
searched for its last node anew. Nothing is left out of the answer if no text is cut inside of a
character and no text is shorter than what is cut from it.

## Main definitions

* `Expr.stripByBytes?`: an expression without the last bytes of its trailing output, and these;
* `Expr.choiceByBytes?`: two expressions as branches of a union, the common end being cut by bytes;
* `Expr.CutsOff`: an expression loses an end of its trailing output and nothing else.
-/

namespace Transduction.Expr

/-- The expression without the last `n` bytes of its trailing output, and these; none if there are
not as many, or if a character would be cut. -/
def stripByBytes? (n : Nat) : Expr → Option (Expr × Output)
  | literal word out => do
    let (rest, cut) ← out.splitOff? n
    return (literal word rest, cut)
  | range r out => do
    let (rest, cut) ← out.splitOff? n
    return (range r rest, cut)
  | emit b out => do
    let (rest, cut) ← out.splitOff? n
    return (if rest.isEmpty then b else emit b rest, cut)
  | concat l r => do
    let (rest, cut) ← r.stripByBytes? n
    return (concat l rest, cut)
  | e => some (e, [])

/-- The number of bytes of the longest common end of the trailing outputs; zero if one of them is
missing, and none if a character would be cut. -/
def sharedBytes? (l r : Expr) : Option Nat :=
  match l.trailingOutput?, r.trailingOutput? with
  | some a, some b => (Output.commonSuffixByBytes? a b).map Output.byteLength
  | _, _ => some 0

/-- Two expressions as branches of a union. If their trailing outputs have a common end, both lose
it, and what the left one loses is emitted after the union. -/
def choiceByBytes? (l r : Expr) : Option Expr := do
  let shared ← sharedBytes? l r
  if shared = 0 then return union l r
  let (l', cut) ← l.stripByBytes? shared
  let (r', _) ← r.stripByBytes? shared
  return (union l' r').withSuffix cut

/-- The expression loses an end of its trailing output, which is cut by its number of bytes, and
`rest` is left. -/
structure CutsOff (e : Expr) (cut : Output) (rest : Expr) : Prop where
  /-- The bytes are there, no character is cut, and what is cut is the end itself. -/
  strips : e.stripByBytes? cut.byteLength = some (rest, cut)
  /-- No other text is lost, and none is kept. -/
  outputs : rest.outputs ++ cut = e.outputs
  /-- The same symbols are read at the same places. -/
  ranges : rest.occurrenceRanges = e.occurrenceRanges
  /-- The end after what is left means what the expression did. -/
  denotes : ∀ w o, e.Denotes w o ↔ ∃ p, rest.Denotes w p ∧ o = p ++ cut

end Transduction.Expr
