import Transduction.Output

/-!
# Texts measured in bytes

In UTF-8 a character takes one to four bytes. A text that is stored so is measured and cut by bytes,
and it cannot be cut inside of a character.

## Main definitions

* `Output.byteLength`: the number of bytes of a text;
* `Output.cutAt?`: a text cut after a number of bytes;
* `Output.splitOff?`: a text cut before its last bytes;
* `Output.commonSuffixByBytes?`: the longest common end, found by counting its bytes.
-/

namespace Transduction.Output

/-- The number of bytes of the text. -/
def byteLength : Output → Nat
  | [] => 0
  | c :: out => c.utf8Size + byteLength out

/-- What stands before the given number of bytes, and what after it; none if the text is shorter, or
if a character would be cut. -/
def cutAt? : Output → Nat → Option (Output × Output)
  | out, 0 => some ([], out)
  | [], _ + 1 => none
  | c :: out, n + 1 =>
    if c.utf8Size ≤ n + 1 then
      (cutAt? out (n + 1 - c.utf8Size)).map fun (before, after) ↦ (c :: before, after)
    else none

/-- The text without its last `n` bytes, and these; none if the text is shorter, or if a character
would be cut. -/
def splitOff? (out : Output) (n : Nat) : Option (Output × Output) :=
  if n ≤ out.byteLength then out.cutAt? (out.byteLength - n) else none

/-- The number of bytes of the characters that agree, from the back on. -/
def commonBytes (a b : Output) : Nat :=
  byteLength (((a.reverse.zip b.reverse).takeWhile fun (c, d) ↦ c = d).map Prod.fst)

/-- The end of the first text that has as many bytes as agree; none if a character would be cut. -/
def commonSuffixByBytes? (a b : Output) : Option Output :=
  (a.splitOff? (commonBytes a b)).map Prod.snd

end Transduction.Output
