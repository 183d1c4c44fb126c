/-
The kinds of tokens a query text is made of.

Keywords have no kind of their own: `query`, `on` and `fragment` are names wherever the
grammar does not ask for them, so they stay names here and the grammar asks by spelling.
The three literals `true`, `false` and `null` do have kinds, because no rule of the
grammar takes them for a name.
-/

namespace QueryBatching.Token

/-- What a token is, without its text. -/
inductive Kind where
  | atSign
  | bang
  | colon
  | comma
  | braceClose
  | braceOpen
  | dollar
  | ellipsis
  | equals
  | parenClose
  | parenOpen
  | bracketClose
  | bracketOpen
  | name
  | intLiteral
  | floatLiteral
  | stringLiteral
  | trueLiteral
  | falseLiteral
  | nullLiteral
  | endOfInput
deriving DecidableEq, Repr, Inhabited

namespace Kind

/-- Every kind, each once. -/
def all : List Kind :=
  [atSign, bang, colon, comma, braceClose, braceOpen, dollar, ellipsis, equals, parenClose,
    parenOpen, bracketClose, bracketOpen, name, intLiteral, floatLiteral, stringLiteral,
    trueLiteral, falseLiteral, nullLiteral, endOfInput]

/-- The kind as messages show it. -/
def describe : Kind → String
  | atSign => "`@`"
  | bang => "`!`"
  | colon => "`:`"
  | comma => "`,`"
  | braceClose => "`\x7d`"
  | braceOpen => "`\x7b`"
  | dollar => "`$`"
  | ellipsis => "`...`"
  | equals => "`=`"
  | parenClose => "`)`"
  | parenOpen => "`(`"
  | bracketClose => "`]`"
  | bracketOpen => "`[`"
  | name => "name"
  | intLiteral => "integer"
  | floatLiteral => "float"
  | stringLiteral => "string"
  | trueLiteral => "`true`"
  | falseLiteral => "`false`"
  | nullLiteral => "`null`"
  | endOfInput => "end of input"

/-- Whether the kind is a fixed sign. -/
def isPunctuator : Kind → Bool
  | name | intLiteral | floatLiteral | stringLiteral | trueLiteral | falseLiteral
  | nullLiteral | endOfInput => false
  | _ => true

/-- Whether the kind is a constant value. -/
def isLiteral : Kind → Bool
  | intLiteral | floatLiteral | stringLiteral | trueLiteral | falseLiteral | nullLiteral => true
  | _ => false

/-- The sign of one character that `c` is, if it is one. -/
def ofSign? : Char → Option Kind
  | '@' => some atSign
  | '!' => some bang
  | ':' => some colon
  | ',' => some comma
  | '}' => some braceClose
  | '{' => some braceOpen
  | '$' => some dollar
  | '=' => some equals
  | ')' => some parenClose
  | '(' => some parenOpen
  | ']' => some bracketClose
  | '[' => some bracketOpen
  | _ => none

/-- The kind of a word: one of the three named literals, or a name. -/
def ofWord (word : String) : Kind :=
  if word = "true" then trueLiteral
  else if word = "false" then falseLiteral
  else if word = "null" then nullLiteral
  else name

end Kind

/-- A coarse classification of tokens. -/
inductive Category where
  | punctuation
  | identifier
  | keyword
  | literal
  | endOfInput
deriving DecidableEq, Repr, Inhabited

end QueryBatching.Token
