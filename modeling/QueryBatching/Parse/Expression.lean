/-
Parsers written down as data.

An expression names the combinators a parser is built from, so a grammar can be read,
stored and reasoned about as a term: what holds of every parser that can be built is an
induction over expressions.  The values such a parser gives are trees of the tokens taken.

Rules let expressions refer to each other by name.  An expression that reaches one of its
own rules again without having taken a token would never end, so the number of rules
times the number of places in the input bounds how deeply rules nest in any parse that
ends at all, and `Expression.run` allows exactly that many.
-/
import QueryBatching.Json.Basic
import QueryBatching.Parse.Parser

namespace QueryBatching

/-- What the parser of an expression gives. -/
inductive ParseTree where
  | token (token : Token)
  | items (items : List ParseTree)
  | optional (value? : Option ParseTree)
  | tagged (tag : String) (value : ParseTree)
  /-- A value that no token stands for. -/
  | constant (value : Json)
deriving Repr, Inhabited

/-- A parser as a term. -/
inductive Expression where
  | expect (kind : Token.Kind)
  | keyword (word : String)
  | sequence (parts : List Expression)
  | choice (parts : List Expression)
  | many (item : Expression)
  | many1 (item : Expression)
  | optional (item : Expression)
  | separatedBy (item separator : Expression)
  | left (first second : Expression)
  | right (first second : Expression)
  | delimited (opening inner closing : Expression)
  /-- The same parser with its value under a tag. -/
  | tagged (tag : String) (inner : Expression)
  /-- The rule of that name. -/
  | rule (name : String)
  /-- Succeeds with a value, taking nothing. -/
  | succeed (value : Json) (failure? : Option Parse.Failure)
  /-- Fails, with the given failure or with no expectation. -/
  | fail (failure? : Option Parse.Failure)
deriving Repr, Inhabited

namespace Expression

open Parse

mutual

/-- The parser an expression stands for, given those of the rules. -/
def parser (rules : String → Parser ParseTree) : Expression → Parser ParseTree
  | .expect kind => (Parser.expect kind).map .token
  | .keyword word => (Parser.keyword word).map .token
  | .sequence parts => (Parser.sequence (parsers rules parts)).map .items
  | .choice parts => Parser.choice (parsers rules parts)
  | .many item => (Parser.many (parser rules item)).map .items
  | .many1 item => (Parser.many1 (parser rules item)).map .items
  | .optional item => (Parser.optional (parser rules item)).map .optional
  | .separatedBy item separator =>
    (Parser.separatedBy (parser rules item) (parser rules separator)).map .items
  | .left first second => Parser.left (parser rules first) (parser rules second)
  | .right first second => Parser.right (parser rules first) (parser rules second)
  | .delimited opening inner closing =>
    Parser.delimited (parser rules opening) (parser rules inner) (parser rules closing)
  | .tagged tag inner => (parser rules inner).map (.tagged tag)
  | .rule name => rules name
  | .succeed value failure? => Parser.succeed (.constant value) failure?
  | .fail failure? => fun here => .error (failure?.getD ⟨here.index, []⟩)

/-- The parsers several expressions stand for. -/
def parsers (rules : String → Parser ParseTree) : List Expression → List (Parser ParseTree)
  | [] => []
  | part :: rest => parser rules part :: parsers rules rest

end

/-- The parser of a rule, with at most `depth` rules inside one another.  A name without a rule
fails. -/
def ruleParser (rules : Assoc String Expression) (depth : Nat) (name : String)
    (here : Cursor) : Outcome ParseTree :=
  match depth with
  | 0 => Parser.stop here
  | depth + 1 =>
    match Assoc.get? rules name with
    | some expression => parser (ruleParser rules depth) expression here
    | none => Parser.stop here

/-- What an expression makes of the tokens from the cursor on. -/
def run (rules : Assoc String Expression) (expression : Expression) (here : Cursor) :
    Outcome ParseTree :=
  let depth := rules.length * (here.ahead.length + 1)
  parser (ruleParser rules depth) expression here

end Expression

end QueryBatching
