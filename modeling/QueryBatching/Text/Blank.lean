/-
Blank and control characters, trimming, and bringing texts to a width.

`Text.isBlank` is the Unicode property `White_Space`; `Text.isControl` is the general
category `Cc`.  Both are closed sets of the standard, written out as ranges.  Error
texts show a control or blank character by its code point, since the character itself
would be invisible; command output and settings are trimmed of blanks.

Widths have 16 bits.  A text is brought to no greater width, and asking for one is a mistake
that ends the program.
-/

namespace QueryBatching.Text

/-- The Unicode property `White_Space`. -/
def isBlank (c : Char) : Bool :=
  let n := c.toNat
  (0x09 ≤ n && n ≤ 0x0D) || n == 0x20 || n == 0x85 || n == 0xA0 || n == 0x1680 ||
    (0x2000 ≤ n && n ≤ 0x200A) || n == 0x2028 || n == 0x2029 || n == 0x202F ||
    n == 0x205F || n == 0x3000

/-- The Unicode general category `Cc`. -/
def isControl (c : Char) : Bool :=
  let n := c.toNat
  n ≤ 0x1F || (0x7F ≤ n && n ≤ 0x9F)

/-- The text without the blanks it ends in. -/
def trimEnd (text : String) : String :=
  String.ofList (text.toList.reverse.dropWhile isBlank).reverse

/-- The text without the blanks it starts and ends in. -/
def trim (text : String) : String :=
  String.ofList ((trimEnd text).toList.dropWhile isBlank)

/-- Upper-case hexadecimal digits of `n`, at least four of them. -/
def codePoint (n : Nat) : String :=
  let digits := (Nat.toDigits 16 n).map Char.toUpper
  String.ofList (List.replicate (4 - digits.length) '0' ++ digits)

/-- A text of as many spaces as it takes to bring `text` to `width` characters, then `text`. -/
def alignRight (width : Nat) (text : String) : String :=
  String.ofList (List.replicate (width - text.length) ' ') ++ text

/-- The greatest width there is. -/
def maxWidth : Nat := 65535

/-- The text brought to a width, if there is such a width. -/
def alignRight? (width : Nat) (text : String) : Option String :=
  if width ≤ maxWidth then some (alignRight width text) else none

end QueryBatching.Text
