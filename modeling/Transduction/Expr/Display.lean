import Transduction.Expr.Basic
import Transduction.Text.Quoted

/-!
# Written expressions

The text of an expression. Unions and stars are parenthesised, the sides of a concatenation stand
beside each other, a literal stands between single quotes and a range between brackets. An output
follows its part after a colon, between double quotes; the empty output is left out.

Symbols have an escape rule of their own, which is not that of quoted text: a symbol is written by
its number if it is no character, a control, a single quote or a backslash, and as the character
itself otherwise.
-/

namespace Transduction

/-- The control characters: those below the space, and those from `U+007F` to `U+009F`. -/
def Text.isControl (c : Char) : Bool :=
  c.toNat < 0x20 || (0x7F ≤ c.toNat && c.toNat ≤ 0x9F)

/-- A symbol as it is written in a literal or as a bound of a range. -/
def Symbol.display (x : Symbol) : List Char :=
  match x.toChar? with
  | some c =>
    if Text.isControl c || c = '\x27' || c = '\\' then Text.codePoint x.toNat else [c]
  | none => Text.codePoint x.toNat

/-- An output as it follows its part: nothing if it is empty. -/
def Output.display (out : Output) : List Char :=
  if out.isEmpty then [] else ':' :: Text.quote out

namespace Expr

/-- A text between parentheses. -/
def parenthesised (text : List Char) : List Char := '(' :: (text ++ [')'])

/-- The text of an expression. -/
def display : Expr → List Char
  | union l r => parenthesised (l.display ++ [' ', '|', ' '] ++ r.display)
  | concat l r => l.display ++ [' '] ++ r.display
  | star b => parenthesised b.display ++ ['*']
  | literal w out => '\x27' :: (w.flatMap Symbol.display ++ ['\x27'] ++ out.display)
  | range r out =>
    '[' :: (r.lower.display ++ ['-'] ++ r.upper.display ++ [']'] ++ out.display)
  | emit b out => parenthesised b.display ++ out.display
  | var name => name.toList

end Expr

end Transduction
