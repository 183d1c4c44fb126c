/-
Reading a JSON text.

The reader follows the JSON grammar and keeps the order of members and the text of
numbers.  Every nested value starts with a character of its own, so the length of the
text bounds the depth and the number of steps; `Json.read?` starts with that bound, and
it is never used up.

The grammar lets a string escape half of a UTF-16 pair on its own, which is no character.
A reader that needs the text refuses it; one that only has to get past the string takes
it for U+FFFD.  `Json.read?` needs every text.  `Json.readOutline?` needs the keys of the
outermost object and gets past all that is below.
-/
import QueryBatching.Json.Basic

namespace QueryBatching.Json

/-- The blanks JSON allows between its signs. -/
def isBlank (c : Char) : Bool := c = ' ' || c = '\t' || c = '\n' || c = '\r'

/-- The text without the blanks at its front. -/
def skipBlanks (cs : List Char) : List Char := cs.dropWhile isBlank

/-! ### Strings -/

/-- The value of a hexadecimal digit. -/
def hexValue? (c : Char) : Option Nat :=
  if '0' ≤ c ∧ c ≤ '9' then some (c.toNat - '0'.toNat)
  else if 'a' ≤ c ∧ c ≤ 'f' then some (c.toNat - 'a'.toNat + 10)
  else if 'A' ≤ c ∧ c ≤ 'F' then some (c.toNat - 'A'.toNat + 10)
  else none

/-- The value of four hexadecimal digits. -/
def codeUnit? (a b c d : Char) : Option Nat := do
  return (((← hexValue? a) * 16 + (← hexValue? b)) * 16 + (← hexValue? c)) * 16 + (← hexValue? d)

/-- Whether a UTF-16 code unit is the first half of a pair. -/
def isLeading (unit : Nat) : Bool := 0xD800 ≤ unit && unit < 0xDC00

/-- Whether a UTF-16 code unit is the second half of a pair. -/
def isTrailing (unit : Nat) : Bool := 0xDC00 ≤ unit && unit < 0xE000

/-- The character a backslash and `c` stand for. -/
def unescape? : Char → Option Char
  | '"' => some '"'
  | '\\' => some '\\'
  | '/' => some '/'
  | 'b' => some (Char.ofNat 8)
  | 'f' => some (Char.ofNat 12)
  | 'n' => some '\n'
  | 'r' => some '\r'
  | 't' => some '\t'
  | _ => none

/-- What becomes of half a pair that stands alone. -/
inductive LoneHalf where
  | refused
  | replaced
deriving DecidableEq, Repr, Inhabited

/-- The character a UTF-16 code unit stands for on its own. -/
def unitCharacter? (lone : LoneHalf) (unit : Nat) : Option Char :=
  if isLeading unit || isTrailing unit then
    match lone with
    | .refused => none
    | .replaced => some '\uFFFD'
  else some (Char.ofNat unit)

/-- The character two UTF-16 code units stand for together. -/
def pairCharacter? (first second : Nat) : Option Char :=
  if isLeading first && isTrailing second then
    some (Char.ofNat (0x10000 + (first - 0xD800) * 0x400 + (second - 0xDC00)))
  else none

/--
What follows an opening quote: the characters of the string, put in front of `done` in
reverse, and the rest after the closing quote.
-/
def readString (lone : LoneHalf) (done : List Char) : List Char → Option (String × List Char)
  | [] => none
  | '"' :: rest => some (String.ofList done.reverse, rest)
  | '\\' :: 'u' :: a :: b :: c :: d :: '\\' :: 'u' :: e :: f :: g :: h :: rest =>
    match codeUnit? a b c d, codeUnit? e f g h with
    | some first, some second =>
      match pairCharacter? first second with
      | some character => readString lone (character :: done) rest
      | none =>
        match unitCharacter? lone first with
        | some character =>
          readString lone (character :: done) ('\\' :: 'u' :: e :: f :: g :: h :: rest)
        | none => none
    | _, _ => none
  | '\\' :: 'u' :: a :: b :: c :: d :: rest =>
    match (codeUnit? a b c d).bind (unitCharacter? lone) with
    | some character => readString lone (character :: done) rest
    | none => none
  | '\\' :: c :: rest =>
    match unescape? c with
    | some plain => readString lone (plain :: done) rest
    | none => none
  | c :: rest => if c.toNat < 32 then none else readString lone (c :: done) rest

/-! ### Numbers -/

/-- The digits at the front. -/
def digits (cs : List Char) : List Char := cs.takeWhile Char.isDigit

/-- The integer part of a number at the front: one zero, or digits that start with no zero. -/
def integerPart (cs : List Char) : Option (List Char) :=
  match digits cs with
  | [] => none
  | '0' :: _ :: _ => none
  | whole => some whole

/-- The fraction at the front, which may be missing but not empty. -/
def fractionPart : List Char → Option (List Char)
  | '.' :: cs => if digits cs = [] then none else some ('.' :: digits cs)
  | _ => some []

/-- The exponent at the front, which may be missing but not empty. -/
def exponentPart : List Char → Option (List Char)
  | c :: cs =>
    if c = 'e' ∨ c = 'E' then
      let sign := cs.take (if cs.head? = some '+' ∨ cs.head? = some '-' then 1 else 0)
      let power := digits (cs.drop sign.length)
      if power = [] then none else some (c :: (sign ++ power))
    else some []
  | [] => some []

/-- The number at the front, and the rest. -/
def readNumber (cs : List Char) : Option (Json × List Char) := do
  let sign := cs.take (if cs.head? = some '-' then 1 else 0)
  let whole ← integerPart (cs.drop sign.length)
  let base := sign ++ whole
  let part ← fractionPart (cs.drop base.length)
  let power ← exponentPart (cs.drop (base ++ part).length)
  let text := base ++ part ++ power
  return (.number (String.ofList text), cs.drop text.length)

/-! ### Values -/

/-- The rest after `word`, if the text starts with it. -/
def afterWord? (word : List Char) (cs : List Char) : Option (List Char) :=
  if cs.take word.length = word then some (cs.drop word.length) else none

mutual

/--
The value at the front and the rest, in at most so many steps.  `keys` is for the keys of
the value itself, and `lone` for all strings below it.
-/
def readValue (keys lone : LoneHalf) : Nat → List Char → Option (Json × List Char)
  | 0, _ => none
  | steps + 1, cs =>
    match skipBlanks cs with
    | '"' :: rest => (readString lone [] rest).map fun (text, rest) => (.string text, rest)
    | '[' :: rest =>
      match skipBlanks rest with
      | ']' :: rest => some (.array [], rest)
      | _ => (readItems lone steps rest).map fun (items, rest) => (.array items, rest)
    | '{' :: rest =>
      match skipBlanks rest with
      | '}' :: rest => some (.object [], rest)
      | _ => (readMembers keys lone steps rest).map fun (members, rest) => (.object members, rest)
    | 't' :: rest => (afterWord? ['r', 'u', 'e'] rest).map fun rest => (.bool true, rest)
    | 'f' :: rest => (afterWord? ['a', 'l', 's', 'e'] rest).map fun rest => (.bool false, rest)
    | 'n' :: rest => (afterWord? ['u', 'l', 'l'] rest).map fun rest => (.null, rest)
    | cs => readNumber cs

/-- The items of an array that is not empty, up to its closing bracket. -/
def readItems (lone : LoneHalf) : Nat → List Char → Option (List Json × List Char)
  | 0, _ => none
  | steps + 1, cs =>
    match readValue lone lone steps cs with
    | none => none
    | some (item, rest) =>
      match skipBlanks rest with
      | ',' :: rest => (readItems lone steps rest).map fun (items, rest) => (item :: items, rest)
      | ']' :: rest => some ([item], rest)
      | _ => none

/-- The members of an object that is not empty, up to its closing brace. -/
def readMembers (keys lone : LoneHalf) :
    Nat → List Char → Option (List (String × Json) × List Char)
  | 0, _ => none
  | steps + 1, cs =>
    match skipBlanks cs with
    | '"' :: rest =>
      match readString keys [] rest with
      | none => none
      | some (key, rest) =>
        match skipBlanks rest with
        | ':' :: rest =>
          match readValue lone lone steps rest with
          | none => none
          | some (value, rest) =>
            match skipBlanks rest with
            | ',' :: rest =>
              (readMembers keys lone steps rest).map fun (members, rest) =>
                ((key, value) :: members, rest)
            | '}' :: rest => some ([(key, value)], rest)
            | _ => none
        | _ => none
    | _ => none

end

/-- The value a whole text spells, with blanks around it allowed. -/
def readWhole? (keys lone : LoneHalf) (text : String) : Option Json :=
  let cs := text.toList
  match readValue keys lone (cs.length + 1) cs with
  | some (value, rest) => if skipBlanks rest = [] then some value else none
  | none => none

/-- The value a text spells. -/
def read? (text : String) : Option Json := readWhole? .refused .refused text

/-- The value a text spells, with only the keys of its outermost object needed as text. -/
def readOutline? (text : String) : Option Json := readWhole? .refused .replaced text

end QueryBatching.Json
