import Mathlib.Data.List.Basic

/-!
# Statement text and its placeholders

A printed statement is a list of tokens, so that a `?` the printer wrote for a
value can be told from one that stands inside a quoted name, an operator or a
fragment the caller wrote.  `render` gives the text.  `placeholders` lists the
unquoted `?` of the text in order, each with the value it was written for, or
`none` when no value was.

`Aligned ts bs` says the placeholders of `ts` and the list `bs` line up one for
one: as many of each, and the `i`-th placeholder written for the `i`-th value.
-/

namespace Hesape.Sql

/-- Counts the unquoted `?`; a doubled one is an operator.  The first argument
is the quote the text is inside of. -/
def marksFrom : Option Char → List Char → Nat
  | _, [] => 0
  | none, '?' :: '?' :: r => marksFrom none r
  | none, '?' :: r => marksFrom none r + 1
  | none, c :: r =>
    marksFrom (if c = '\'' ∨ c = '"' ∨ c = Char.ofNat 96 then some c else none) r
  | some q, c :: r => marksFrom (if c = q then none else some q) r

/-- The number of unquoted `?` of a text. -/
def marks (s : String) : Nat := marksFrom none s.toList

/-- One piece of a statement's text. -/
inductive Tok (V : Type)
  /-- keywords and punctuation of the printer's own, free of `?` -/
  | kw (s : String) (clean : marks s = 0 := by exact Eq.refl Nat.zero)
  /-- a number written into the text -/
  | num (n : Int)
  /-- an operator, read for placeholders as written -/
  | op (s : String)
  /-- a quoted name, a quoted literal or a comment -/
  | quoted (s : String)
  /-- the placeholder of one value -/
  | param (v : V)
  /-- a fragment the caller wrote, with the values written beside it -/
  | raw (s : String) (args : List V)
  deriving DecidableEq

section

variable {V : Type}

namespace Tok

def text : Tok V → String
  | kw s _ => s
  | num n => toString n
  | op s => s
  | quoted s => s
  | param _ => "?"
  | raw s _ => s

def placeholders : Tok V → List (Option V)
  | kw _ _ => []
  | num _ => []
  | op s => List.replicate (marks s) none
  | quoted _ => []
  | param v => [some v]
  | raw s args => (List.range (marks s)).map fun i => args[i]?

end Tok

/-- The text of a token list. -/
def render (ts : List (Tok V)) : String := String.join (ts.map Tok.text)

/-- The unquoted `?` of a token list, in order. -/
def placeholders (ts : List (Tok V)) : List (Option V) := ts.flatMap Tok.placeholders

/-- The placeholders of `ts` stand for the values `bs`, one for one. -/
def Aligned (ts : List (Tok V)) (bs : List V) : Prop := placeholders ts = bs.map some

end

end Hesape.Sql
