/-
Why a source text has no reading as tokens.

Each fault says what went wrong and keeps just enough of the text to say so.  Where the
fault stands in the source is a matter of the scan that found it, so it is not part of
the fault; `LexError` puts the two together.
-/
import QueryBatching.Source.Position
import QueryBatching.Text.Blank

namespace QueryBatching

/-- What is wrong with a number. -/
inductive NumberFlaw where
  /-- A digit follows a leading zero. -/
  | leadingZero
  /-- No digit follows the exponent's mark and sign. -/
  | emptyExponent
  /-- A letter, an underscore or a dot follows the number. -/
  | trailingCharacter
deriving DecidableEq, Repr, Inhabited

/-- Why no token starts at some place. -/
inductive LexFault where
  /-- `c` starts no token. -/
  | unexpectedCharacter (c : Char)
  /-- A single dot. -/
  | oneDot
  /-- Two dots that are not part of three. -/
  | twoDots
  /-- A quoted string that its line or the text ends. -/
  | unterminatedString
  /-- A block string that the text ends. -/
  | unterminatedBlock
  /-- A minus sign without a digit. -/
  | loneMinus
  /-- A number that goes wrong after `read`, at the character `next` or the end of the text. -/
  | badNumber (flaw : NumberFlaw) (read : List Char) (next : Option Char)
deriving DecidableEq, Repr, Inhabited

namespace NumberFlaw

/-- The flaw in words. -/
def describe : NumberFlaw → String
  | leadingZero => "Invalid number: leading zeros are not allowed"
  | emptyExponent => "Invalid number: exponent must have at least one digit"
  | trailingCharacter => "Invalid number: unexpected character after numeric literal"

end NumberFlaw

namespace LexFault

/-- The four classes of faults a caller may tell apart. -/
inductive Class where
  | unexpectedCharacter
  | unterminatedString
  | invalidNumber
  | invalidDots
deriving DecidableEq, Repr, Inhabited

/-- The class of a fault. -/
def classOf : LexFault → Class
  | unexpectedCharacter _ => .unexpectedCharacter
  | oneDot | twoDots => .invalidDots
  | unterminatedString | unterminatedBlock => .unterminatedString
  | loneMinus | badNumber .. => .invalidNumber

/-- The text between the start of the token and the place where the fault is reported. -/
def skipped : LexFault → List Char
  | badNumber _ read _ => read
  | _ => []

/-- The character the fault is about.  At the end of the text a bad number names its sign. -/
def character : LexFault → Char
  | unexpectedCharacter c => c
  | oneDot | twoDots => '.'
  | unterminatedString | unterminatedBlock => '"'
  | loneMinus => '-'
  | badNumber _ _ next => next.getD '-'

/-- A character as messages show it: by its code point where it would be invisible. -/
def describeCharacter (c : Char) : String :=
  if Text.isControl c || (Text.isBlank c && c != ' ') then "U+" ++ Text.codePoint c.toNat
  else "`" ++ String.singleton c ++ "`"

/-- The fault in words. -/
def message : LexFault → String
  | unexpectedCharacter c => "Unexpected character " ++ describeCharacter c
  | oneDot => "Unexpected `.`"
  | twoDots => "Unexpected `..` (use `...` for spread operator)"
  | unterminatedString => "Unterminated string literal"
  | unterminatedBlock => "Unterminated block string"
  | loneMinus => "Unexpected `-`"
  | badNumber flaw read _ => flaw.describe ++ ": `" ++ String.ofList read ++ "`"

end LexFault

/-- A fault and where it stands. -/
structure LexError where
  fault : LexFault
  position : Position
deriving DecidableEq, Repr, Inhabited

namespace LexError

/-- The error on one line: its place, then the fault in words. -/
def message (error : LexError) : String := error.position.text ++ ": " ++ error.fault.message

end LexError

end QueryBatching
