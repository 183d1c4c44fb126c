/-
A token is its kind, its exact text, and the position of its first character.
-/
import QueryBatching.Source.Position
import QueryBatching.Token.Kind

namespace QueryBatching

/-- A token of a query text. -/
structure Token where
  kind : Token.Kind
  /-- The source text it was read from; empty at the end of the input. -/
  text : String
  /-- Where its first character stands. -/
  position : Position
deriving DecidableEq, Repr, Inhabited

namespace Token

/-- The names that mean something in a document.  They remain ordinary names elsewhere. -/
def keywords : List String := ["fragment", "mutation", "on", "query", "subscription"]

/-- Whether the token is the name `word`. -/
def isWord (token : Token) (word : String) : Bool :=
  token.kind = .name && token.text = word

/-- The class of a token.  A name is a keyword by its spelling alone. -/
def category (token : Token) : Category :=
  match token.kind with
  | .endOfInput => .endOfInput
  | .name => if token.text ∈ keywords then .keyword else .identifier
  | kind => if kind.isLiteral then .literal else .punctuation

end Token

end QueryBatching
