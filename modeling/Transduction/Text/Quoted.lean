import Transduction.Text.GraphemeBase

/-!
# Quoted text

Text in messages and in written expressions stands between double quotes. Six characters have short
names; a character that shows as a glyph of its own stands for itself; every other one is written by
its code point.

A base character shows as a glyph of its own unless it is blank: the plain space is the only space
that stands for itself, and the fillers of Hangul are letters without a shape. Among the characters
that extend the one before them, the half-width sound marks take a place of their own, and so they
stand for themselves.

## Main definitions

* `codePoint`: a number as `\u` and its hexadecimal digits in braces;
* `escape`: one character inside quotes;
* `quote`: a whole text with its quotes.
-/

namespace Transduction.Text

/-- A number as an escaped code point: lower-case hexadecimal digits without leading zeros. -/
def codePoint (n : Nat) : List Char :=
  '\\' :: 'u' :: '{' :: (Nat.toDigits 16 n ++ ['}'])

/-- The space separators of Unicode. -/
def isSpaceSeparator (c : Char) : Bool :=
  [0x0020, 0x00A0, 0x1680, 0x202F, 0x205F, 0x3000].contains c.toNat ||
    (0x2000 ≤ c.toNat && c.toNat ≤ 0x200A)

/-- The fillers of Hangul: letters that keep the place of a missing one and show nothing. -/
def isFiller (c : Char) : Bool :=
  [0x115F, 0x1160, 0x3164, 0xFFA0].contains c.toNat

/-- The half-width voiced and semi-voiced sound marks of katakana. -/
def isSoundMark (c : Char) : Bool :=
  [0xFF9E, 0xFF9F].contains c.toNat

/-- The character stands for itself inside quotes, unless it has a name. -/
def isPlain (c : Char) : Bool :=
  c = ' ' || isSoundMark c || (isGraphemeBase c && !isSpaceSeparator c && !isFiller c)

/-- A character as it is written inside quotes. -/
def escape (c : Char) : List Char :=
  match c with
  | '\x00' => ['\\', '0']
  | '\t' => ['\\', 't']
  | '\n' => ['\\', 'n']
  | '\r' => ['\\', 'r']
  | '"' => ['\\', '"']
  | '\\' => ['\\', '\\']
  | _ => if isPlain c then [c] else codePoint c.toNat

/-- A text between quotes. -/
def quote (text : List Char) : List Char := '"' :: (text.flatMap escape ++ ['"'])

end Transduction.Text
