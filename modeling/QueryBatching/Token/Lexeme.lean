/-
The lexemes: which stretch of characters at the front of a text makes up one token.

Each reader here looks at the characters from some place on and answers with the
stretch it takes, never with a position or a rest.  What is left over is the text
without that stretch, so no reader can lose or repeat a character, and the scan that
calls them needs to know nothing but the length of the answer.

`Lexeme.read` answers for a first character and the text after it, and its answer leaves
out the first character.  A lexeme therefore always takes at least that one.
-/
import QueryBatching.Token.Fault
import QueryBatching.Token.Kind

namespace QueryBatching.Lexeme

open QueryBatching.Token (Kind)

/-! ### Classes of characters -/

/-- Characters between tokens that mean nothing: blanks, line terminators, a byte order mark. -/
def isIgnored (c : Char) : Bool :=
  c = ' ' || c = '\t' || c = '\n' || c = '\r' || c = '\uFEFF'

/-- The two characters that end a line. -/
def isTerminator (c : Char) : Bool := c = '\n' || c = '\r'

/-- An ASCII digit. -/
def isDigit (c : Char) : Bool := '0' ≤ c && c ≤ '9'

/-- What a name may start with. -/
def isNameStart (c : Char) : Bool :=
  c = '_' || ('a' ≤ c && c ≤ 'z') || ('A' ≤ c && c ≤ 'Z')

/-- What a name may go on with. -/
def isNamePart (c : Char) : Bool := isNameStart c || isDigit c

/-! ### Comments and numbers -/

/-- The rest of a comment, up to the end of its line. -/
def comment (cs : List Char) : List Char := cs.takeWhile fun c => !isTerminator c

/-- The digits at the front. -/
def digits (cs : List Char) : List Char := cs.takeWhile isDigit

/-- The minus sign at the front, if there is one. -/
def minus : List Char → List Char
  | '-' :: _ => ['-']
  | _ => []

/-- The sign of an exponent at the front, if there is one. -/
def exponentSign : List Char → List Char
  | '+' :: _ => ['+']
  | '-' :: _ => ['-']
  | _ => []

/-- A dot and digits at the front.  A dot that no digit follows belongs to something else. -/
def fraction : List Char → List Char
  | '.' :: cs => if digits cs = [] then [] else '.' :: digits cs
  | _ => []

/-- An exponent at the front: the stretch read, and whether it is whole. -/
def exponent : List Char → List Char × Bool
  | c :: cs =>
    if c = 'e' ∨ c = 'E' then
      let sign := exponentSign cs
      let power := digits (cs.drop sign.length)
      (c :: (sign ++ power), !power.isEmpty)
    else ([], true)
  | [] => ([], true)

/-- Whether a character directly after a number spoils it: `123abc` is not two tokens. -/
def spoilsNumber (c : Char) : Bool := isNameStart c || c = '.'

/-- The number at the front of `cs`, which starts with a minus sign or a digit. -/
def number (cs : List Char) : Except LexFault (Kind × List Char) :=
  let sign := minus cs
  match digits (cs.drop sign.length) with
  | [] => .error .loneMinus
  | '0' :: next :: _ => .error (.badNumber .leadingZero (sign ++ ['0']) (some next))
  | whole =>
    let base := sign ++ whole
    let part := fraction (cs.drop base.length)
    let mantissa := base ++ part
    let (power, isWhole) := exponent (cs.drop mantissa.length)
    let text := mantissa ++ power
    let next := (cs.drop text.length).head?
    if !isWhole then .error (.badNumber .emptyExponent text next)
    else if next.any spoilsNumber then .error (.badNumber .trailingCharacter text next)
    else .ok (if part.isEmpty && power.isEmpty then .intLiteral else .floatLiteral, text)

/-! ### Strings -/

/--
What follows the opening quote of a string, up to and with the closing one.  A backslash
takes the character after it along, whatever it is.
-/
def quoted : List Char → Option (List Char)
  | [] => none
  | '"' :: _ => some ['"']
  | '\\' :: c :: cs => (quoted cs).map fun text => '\\' :: c :: text
  | c :: cs => if isTerminator c then none else (quoted cs).map (c :: ·)

/--
What follows the three opening quotes of a block string, up to and with the three
closing ones.  Three quotes after a backslash do not close it.
-/
def block : List Char → Option (List Char)
  | [] => none
  | '\\' :: '"' :: '"' :: '"' :: cs =>
    (block cs).map fun text => '\\' :: '"' :: '"' :: '"' :: text
  | '"' :: '"' :: '"' :: _ => some ['"', '"', '"']
  | c :: cs => (block cs).map (c :: ·)

/-- What follows the first quote of a string or a block string. -/
def string : List Char → Except LexFault (List Char)
  | '"' :: '"' :: cs =>
    match block cs with
    | some text => .ok ('"' :: '"' :: text)
    | none => .error .unterminatedBlock
  | cs =>
    match quoted cs with
    | some text => .ok text
    | none => .error .unterminatedString

/-! ### Any lexeme -/

/-- What follows the first of three dots. -/
def dots : List Char → Except LexFault (List Char)
  | '.' :: '.' :: _ => .ok ['.', '.']
  | '.' :: _ => .error .twoDots
  | _ => .error .oneDot

/--
The lexeme that starts with `c` in front of `cs`: its kind, and its characters after
the first.
-/
def read (c : Char) (cs : List Char) : Except LexFault (Kind × List Char) :=
  match Kind.ofSign? c with
  | some kind => .ok (kind, [])
  | none =>
    if c = '.' then (dots cs).map fun tail => (.ellipsis, tail)
    else if c = '"' then (string cs).map fun tail => (.stringLiteral, tail)
    else if isNameStart c then
      let tail := cs.takeWhile isNamePart
      .ok (Kind.ofWord (String.ofList (c :: tail)), tail)
    else if c = '-' ∨ isDigit c = true then
      (number (c :: cs)).map fun (kind, text) => (kind, text.tail)
    else .error (.unexpectedCharacter c)

end QueryBatching.Lexeme
