/-
Failures of a parse, and which of several to report.

A failure says at which token no alternative could go on, and which kinds of tokens
would have let one.  Of two failures the one further into the input counts; two at the
same token are taken together, the expectations of the first before the new ones of the
second.  So a parse that carries along the furthest failure it has seen, through its
successes too, can always report the deepest point up to which the input made sense.
-/
import QueryBatching.Token.Kind

namespace QueryBatching.Parse

/-- Where a parse could not go on, and what would have let it. -/
structure Failure where
  /-- The number of tokens before the one the failure is about. -/
  index : Nat
  /-- The kinds of tokens that were expected there. -/
  expected : List Token.Kind
deriving DecidableEq, Repr, Inhabited

namespace Failure

/-- The kinds with `kind` at the end, unless it is among them. -/
def addKind (kinds : List Token.Kind) (kind : Token.Kind) : List Token.Kind :=
  if kind ∈ kinds then kinds else kinds ++ [kind]

/-- The further of two failures; at the same token, both together. -/
def merge (a b : Failure) : Failure :=
  if a.index < b.index then b
  else if a.index = b.index then { a with expected := b.expected.foldl addKind a.expected }
  else a

/-- A failure together with one that may have been met before. -/
def mergedWith (a : Failure) : Option Failure → Failure
  | some b => a.merge b
  | none => a

/-- The further of two failures that may be missing. -/
def furthest : Option Failure → Option Failure → Option Failure
  | some a, some b => some (a.merge b)
  | a, none => a
  | none, b => b

end Failure

end QueryBatching.Parse
