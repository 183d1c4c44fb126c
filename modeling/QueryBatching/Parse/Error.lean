/-
Errors in the syntax of a query.

A fault says what is wrong; the error adds where.  Apart from a token in the wrong place
and brackets nested too deep there are three faults of documents that are well formed
but cannot be sent as one call.
-/
import QueryBatching.Parse.Failure
import QueryBatching.Source.Diagnostic
import QueryBatching.Token.Basic
import QueryBatching.Token.Fault

namespace QueryBatching

/-- The classes of parse errors a caller may tell apart, with what they carry. -/
inductive ParseErrorKind where
  /-- A token, by its text, where one of the expected kinds should stand. -/
  | unexpectedToken (expected : List Token.Kind) (found : String)
  /-- The end of the input where one of the expected kinds should stand. -/
  | unexpectedEnd (expected : List Token.Kind)
  | nestingTooDeep (limit : Nat)
  | unsupportedDocument
deriving DecidableEq, Repr, Inhabited

namespace ParseErrorKind

/-- The class in words. -/
def describe : ParseErrorKind → String
  | unexpectedToken _ found => "unexpected token: `" ++ found ++ "`"
  | unexpectedEnd _ => "unexpected end of input"
  | nestingTooDeep limit => "maximum nesting depth of " ++ toString limit ++ " exceeded"
  | unsupportedDocument => "unsupported document"

/-- The kinds of tokens that were expected; none unless it is about one token. -/
def expected : ParseErrorKind → List Token.Kind
  | unexpectedToken kinds _ => kinds
  | unexpectedEnd kinds => kinds
  | nestingTooDeep _ => []
  | unsupportedDocument => []

end ParseErrorKind

/-- Why a list of tokens is no document, or a document is no call. -/
inductive ParseFault where
  /-- A token of the kind and text given stands where one of the expected kinds should. -/
  | unexpected (expected : List Token.Kind) (kind : Token.Kind) (text : String)
  /-- Brackets nest deeper than the limit. -/
  | nestingTooDeep (limit : Nat)
  /-- A call needs one operation, and the document has another number of them. -/
  | operationCount (count : Nat)
  /-- The fragment is defined a second time. -/
  | repeatedFragment (name : String)
  /-- The fragment is spread and nowhere defined. -/
  | undefinedFragment (name : String)
deriving DecidableEq, Repr, Inhabited

namespace ParseFault

/-- Expected kinds in words. -/
def describeExpected (kinds : List Token.Kind) : String :=
  match kinds.map Token.Kind.describe with
  | [] => "more input"
  | [only] => only
  | first :: rest =>
    let names := first :: rest
    "one of " ++ ", ".intercalate names.dropLast ++ " or " ++ names.getLastD first

/-- The fault in words. -/
def message : ParseFault → String
  | unexpected expected .endOfInput _ =>
    "expected " ++ describeExpected expected ++ ", found end of input"
  | unexpected expected kind text =>
    "expected " ++ describeExpected expected ++ ", found " ++ kind.describe ++ " `" ++ text ++ "`"
  | nestingTooDeep _ => "maximum nesting depth exceeded"
  | operationCount count =>
    "expected exactly one operation definition, found " ++ toString count
  | repeatedFragment name => "fragment `" ++ name ++ "` is defined more than once"
  | undefinedFragment name => "fragment `" ++ name ++ "` is spread but never defined"

/-- The class of the fault. -/
def kind : ParseFault → ParseErrorKind
  | unexpected expected .endOfInput _ => .unexpectedEnd expected
  | unexpected expected _ text => .unexpectedToken expected text
  | nestingTooDeep limit => .nestingTooDeep limit
  | operationCount _ | repeatedFragment _ | undefinedFragment _ => .unsupportedDocument

end ParseFault

/-- A fault and where it stands. -/
structure ParseError where
  fault : ParseFault
  position : Position
deriving DecidableEq, Repr, Inhabited

namespace ParseError

/-- The error as a message about its place. -/
def diagnostic (error : ParseError) : Diagnostic := ⟨error.fault.message, error.position⟩

/-- The error on one line. -/
def message (error : ParseError) : String := error.diagnostic.oneLine

/--
The error that a failure over `tokens` amounts to.  A failure past the last token is
about the last one, and one over no tokens at all is about the end of an empty input.
-/
def ofFailure (failure : Parse.Failure) (tokens : List Token) : ParseError :=
  let found := (tokens[failure.index]?.or tokens.getLast?).getD ⟨.endOfInput, "", {}⟩
  ⟨.unexpected failure.expected found.kind found.text, found.position⟩

end ParseError

/-- Why a source text has no reading as a document. -/
inductive SyntaxError where
  | lex (error : LexError)
  | parse (error : ParseError)
deriving DecidableEq, Repr, Inhabited

namespace SyntaxError

/-- The error on one line. -/
def message : SyntaxError → String
  | lex error => error.message
  | parse error => error.message

end SyntaxError

end QueryBatching
