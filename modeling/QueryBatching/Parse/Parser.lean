/-
Parsers over tokens, and the ways to combine them.

A parser looks at the tokens ahead of a cursor and either gives a value and the cursor
after it, or a failure.  Nothing else carries state: going back is calling another
parser at the same cursor.  A success also carries the furthest failure met on the way
to it, for instance the attempt that ended a repetition.  It changes nothing about the
success, but a later failure is reported together with it.

A cursor holds the tokens ahead and the number of tokens behind.  A parser can therefore
not look back, and what it does depends on the tokens behind only through that number.

Repetitions stop when an item takes no token.  That is what makes them end for every
parser they are given, and `many` and `separatedBy` recurse on the tokens ahead.
-/
import QueryBatching.Parse.Failure
import QueryBatching.Token.Basic

namespace QueryBatching

namespace Parse

/-- A place between two tokens. -/
structure Cursor where
  /-- How many tokens are behind. -/
  index : Nat
  /-- The tokens ahead. -/
  ahead : List Token
deriving Repr, Inhabited

namespace Cursor

/-- The cursor that has the first `index` tokens behind it. -/
def ofTokens (tokens : List Token) (index : Nat) : Cursor := ⟨index, tokens.drop index⟩

/-- Where the next token stands in the source. -/
def position (here : Cursor) : Position :=
  match here.ahead with
  | token :: _ => token.position
  | [] => {}

end Cursor

/-- A success: the value, the cursor after it, and the furthest failure met on the way. -/
structure Parsed (α : Type) where
  value : α
  next : Cursor
  furthest? : Option Failure := none
deriving Repr, Inhabited

namespace Parsed

variable {α β : Type}

/-- The same success with another value. -/
def map (f : α → β) (parsed : Parsed α) : Parsed β :=
  { value := f parsed.value, next := parsed.next, furthest? := parsed.furthest? }

/-- The same success, having met one more failure. -/
def meeting (parsed : Parsed α) (failure? : Option Failure) : Parsed α :=
  { parsed with furthest? := Failure.furthest parsed.furthest? failure? }

end Parsed

/-- What a parser answers. -/
abbrev Outcome (α : Type) := Except Failure (Parsed α)

end Parse

open Parse

/-- A parser of values of type `α`. -/
abbrev Parser (α : Type) := Cursor → Outcome α

namespace Parser

variable {α β γ : Type}

/-! ### Single tokens -/

/-- Takes nothing and gives `value`, as if `failure?` had been met on the way. -/
def succeed (value : α) (failure? : Option Failure) : Parser α := fun here =>
  .ok ⟨value, here, failure?⟩

/-- Fails here, with no expectation. -/
def stop : Parser α := fun here => .error ⟨here.index, []⟩

/-- Takes one token that `accepts` lets through; otherwise a token of `kind` was expected. -/
def token (accepts : Token → Bool) (kind : Token.Kind) : Parser Token := fun here =>
  match here.ahead with
  | next :: ahead =>
    if accepts next then .ok ⟨next, ⟨here.index + 1, ahead⟩, none⟩
    else .error ⟨here.index, [kind]⟩
  | [] => .error ⟨here.index, [kind]⟩

/-- Takes one token of `kind`. -/
def expect (kind : Token.Kind) : Parser Token := token (fun next => next.kind = kind) kind

/-- Takes the name `word`.  A keyword is a name, and a name is what is reported as expected. -/
def keyword (word : String) : Parser Token := token (fun next => next.isWord word) .name

/-! ### One parser and its value -/

/-- The same parser with other values. -/
def map (f : α → β) (p : Parser α) : Parser β := fun here => (p here).map (Parsed.map f)

/-- The same parser, its values told where in the source they start. -/
def placed (f : Position → α → β) (p : Parser α) : Parser β := fun here =>
  map (f here.position) p here

/-- Gives nothing, and takes nothing, where `p` fails. -/
def optional (p : Parser α) : Parser (Option α) := fun here =>
  match p here with
  | .ok parsed => .ok (parsed.map some)
  | .error failure => .ok ⟨none, here, some failure⟩

/-! ### One parser after another -/

/-- `p` and then `q`, giving both values. -/
def both (p : Parser α) (q : Parser β) : Parser (α × β) := fun here =>
  match p here with
  | .error failure => .error failure
  | .ok a =>
    match q a.next with
    | .ok b => .ok ⟨(a.value, b.value), b.next, Failure.furthest a.furthest? b.furthest?⟩
    | .error failure => .error (failure.mergedWith a.furthest?)

/-- `p` and then `q`, giving the value of `p`. -/
def left (p : Parser α) (q : Parser β) : Parser α := map Prod.fst (both p q)

/-- `p` and then `q`, giving the value of `q`.  The failures `q` met come first. -/
def right (p : Parser α) (q : Parser β) : Parser β := fun here =>
  match p here with
  | .error failure => .error failure
  | .ok a =>
    match q a.next with
    | .ok b => .ok (b.meeting a.furthest?)
    | .error failure => .error (failure.mergedWith a.furthest?)

/-- `inner` between `opening` and `closing`. -/
def delimited (opening : Parser α) (inner : Parser β) (closing : Parser γ) : Parser β :=
  left (right opening inner) closing

/-- All parsers of a list one after another, giving all values. -/
def sequence (ps : List (Parser α)) : Parser (List α) :=
  ps.foldl (fun front p => map (fun (values, value) => values ++ [value]) (both front p))
    (succeed [] none)

/-! ### One parser or another -/

/-- The first success of a list of parsers, after those before it failed with `failure?`. -/
def choiceAfter (failure? : Option Failure) : List (Parser α) → Parser α
  | [], here => .error (failure?.getD ⟨here.index, []⟩)
  | p :: ps, here =>
    match p here with
    | .ok parsed => .ok (parsed.meeting failure?)
    | .error failure => choiceAfter (Failure.furthest failure? (some failure)) ps here

/-- The first success of a list of parsers, or all their failures together. -/
def choice (ps : List (Parser α)) : Parser α := choiceAfter none ps

/-! ### One parser again and again -/

/-- The values of `p` from `here` on, up to its first failure or to a value of no tokens. -/
def repeated (p : Parser α) (here : Cursor) : Parsed (List α) :=
  match p here with
  | .error failure => ⟨[], here, some failure⟩
  | .ok parsed =>
    if parsed.next.ahead.length < here.ahead.length then
      let rest := repeated p parsed.next
      ⟨parsed.value :: rest.value, rest.next, Failure.furthest parsed.furthest? rest.furthest?⟩
    else ⟨[], here, parsed.furthest?⟩
termination_by here.ahead.length

/-- As many values of `p` as there are. -/
def many (p : Parser α) : Parser (List α) := fun here => .ok (repeated p here)

/-- As many values of `p` as there are, but at least one. -/
def many1 (p : Parser α) : Parser (List α) := fun here =>
  let parsed := repeated p here
  if parsed.value.isEmpty then .error (parsed.furthest?.getD ⟨here.index, []⟩) else .ok parsed

/-- The values of `item` from `here` on, each after a `separator`. -/
def separated (item : Parser α) (separator : Parser β) (here : Cursor) : Parsed (List α) :=
  match separator here with
  | .error failure => ⟨[], here, some failure⟩
  | .ok gap =>
    match item gap.next with
    | .error failure => ⟨[], here, Failure.furthest gap.furthest? (some failure)⟩
    | .ok parsed =>
      if parsed.next.ahead.length < here.ahead.length then
        let rest := separated item separator parsed.next
        ⟨parsed.value :: rest.value, rest.next,
          Failure.furthest (Failure.furthest gap.furthest? parsed.furthest?) rest.furthest?⟩
      else ⟨[], here, gap.furthest?⟩
termination_by here.ahead.length

/-- Any number of values of `item` with `separator` between them.  A last separator is not taken. -/
def separatedBy (item : Parser α) (separator : Parser β) : Parser (List α) := fun here =>
  match item here with
  | .error failure => .ok ⟨[], here, some failure⟩
  | .ok first =>
    let rest := separated item separator first.next
    .ok ⟨first.value :: rest.value, rest.next,
      Failure.furthest first.furthest? rest.furthest?⟩

end Parser

end QueryBatching
