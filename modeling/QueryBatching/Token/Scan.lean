/-
Reading a source text as tokens.

The scan walks over the characters once, one at a time.  Where a token starts it asks
`Lexeme.read` for the whole lexeme, emits it, and remembers in `pending` how many of the
characters ahead already belong to it; those it only counts off.  Ignored stretches and
comments are passed over the same way.  So the recursion is on the characters, every
character moves the location exactly once, and no position is ever computed twice.

A scan ends with the end of the input, which is a token of its own, or with the first
error.  After either there is nothing more to ask for.
-/
import QueryBatching.Token.Basic
import QueryBatching.Token.Lexeme

namespace QueryBatching.Token

/-- One answer of a scan. -/
abbrev Scanned := Except LexError Token

/-- The answers of a scan at `here`, of whose characters the first `pending` are spoken for. -/
def scanFrom : (pending : Nat) → (here : Location) → List Char → List Scanned
  | _, here, [] => [.ok ⟨.endOfInput, "", here.position⟩]
  | pending + 1, here, c :: cs => scanFrom pending (here.advance c) cs
  | 0, here, c :: cs =>
    if Lexeme.isIgnored c then scanFrom 0 (here.advance c) cs
    else if c = '#' then scanFrom (Lexeme.comment cs).length (here.advance c) cs
    else match Lexeme.read c cs with
      | .ok (kind, tail) =>
        .ok ⟨kind, String.ofList (c :: tail), here.position⟩ ::
          scanFrom tail.length (here.advance c) cs
      | .error fault =>
        [.error ⟨fault, (here.advanceAll fault.skipped).position⟩]

/-- The answers of a scan over a whole source text. -/
def scan (source : String) : List Scanned := scanFrom 0 {} source.toList

/-- All tokens of a scan, or its error. -/
def collect : List Scanned → Except LexError (List Token)
  | [] => .ok []
  | .ok token :: rest => (collect rest).map (token :: ·)
  | .error error :: _ => .error error

/-- The tokens of a source text, the end of the input last, or the first error. -/
def tokenize (source : String) : Except LexError (List Token) := collect (scan source)

/-- What `count` requests for the next token of a source text give.  A scan that is over gives
nothing more. -/
def pulls (source : String) (count : Nat) : List (Option Scanned) :=
  let answers := (scan source).take count
  answers.map some ++ List.replicate (count - answers.length) none

end QueryBatching.Token
