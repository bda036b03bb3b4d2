/-
# MATCH predicates

Text analysis and the compiled `MATCH` predicate (`index/fulltext.rs`): the
analyzer of a `#[fulltext]` column, the items of a query and the test of a row.
-/
import Fluxum.Query.Condition

namespace Fluxum

open List

inductive Language where
  | simple
  | english
deriving DecidableEq, Repr

structure Analyzer where
  language : Language
  stopWords : Bool
  stemming : Bool
deriving DecidableEq, Repr

/-- Maximal runs of alphanumeric characters; `current` is the run being read, reversed. -/
def tokenize (p : Platform) : List Char → List Char → List (List Char)
  | [], current => if current = [] then [] else [current.reverse]
  | c :: cs, current =>
    if p.isAlphanumeric c then tokenize p cs (c :: current)
    else if current = [] then tokenize p cs []
    else current.reverse :: tokenize p cs []

def englishStopWords : List String :=
  ["a", "an", "and", "are", "as", "at", "be", "but", "by", "for", "from", "has", "have", "he",
    "her", "his", "in", "into", "is", "it", "its", "of", "on", "or", "she", "that", "the", "their",
    "then", "there", "these", "they", "this", "to", "was", "were", "which", "who", "will", "with"]

/-- `strip_suffix`, keeping a stem of at least `least` bytes. -/
def stripEnding (word ending : String) (least : Nat) : Option String :=
  if ending.toList <:+ word.toList then
    some (String.ofList (word.toList.take (word.toList.length - ending.toList.length))) |>.filter
      (least ≤ ·.utf8ByteSize)
  else none

/-- The first rule that applies. -/
def stemEnglish (word : String) : String :=
  match stripEnding word "ies" 2 with
  | some stem => stem ++ "y"
  | none =>
    match stripEnding word "sses" 2 with
    | some stem => stem ++ "ss"
    | none =>
      match [("ing", 4), ("edly", 3), ("ed", 3), ("ly", 3), ("es", 3)].findSome? fun r => stripEnding word r.1 r.2 with
      | some stem => stem
      | none =>
        -- a plural `-s`, but never `-ss`, on a long enough word
        if ['s'] <:+ word.toList ∧ ¬ ['s', 's'] <:+ word.toList ∧ 3 < word.utf8ByteSize then
          String.ofList word.toList.dropLast
        else word

/-- One token as a term, if it is kept. -/
def Analyzer.term (p : Platform) (a : Analyzer) (raw : List Char) : Option String :=
  let folded := p.toLowercase (String.ofList raw)
  if a.stopWords ∧ a.language = .english ∧ folded ∈ englishStopWords then none
  else
    let term := if a.stemming ∧ a.language = .english then stemEnglish folded else folded
    if term = "" then none else some term

/-- Terms in document order. Positions count every token, the dropped ones too. -/
def Analyzer.analyze (p : Platform) (a : Analyzer) (text : String) : List (String × Nat) :=
  (tokenize p text.toList []).zipIdx.filterMap fun t => (a.term p t.1).map (·, min t.2 (2 ^ 32 - 1))

/-- One analyzed `MATCH` item. -/
inductive FtsItem where
  | term (t : String)
  /-- A trailing `*`: any term that starts with the stem. -/
  | startsWith (stem : String)
  | phrase (terms : List (String × Nat))
deriving DecidableEq, Repr

/-- A compiled `MATCH` predicate over one column: all items together. -/
structure FtsQuery where
  column : Nat
  items : List FtsItem
  analyzer : Analyzer
  raw : String

namespace FtsQuery

variable (p : Platform)

def trim (text : List Char) : List Char := ((text.dropWhile p.isWhitespace).reverse.dropWhile p.isWhitespace).reverse

/-- Whether the terms of a text, with their positions, satisfy one item. -/
def itemHolds (terms : List (String × Nat)) : FtsItem → Bool
  | .term t => terms.any (·.1 = t)
  | .startsWith stem => terms.any fun t => stem.toList.isPrefixOf t.1.toList
  | .phrase [] => false
  | .phrase (first :: rest) =>
    terms.any fun anchor => anchor.1 = first.1 ∧ rest.all fun t => (t.1, anchor.2 + (t.2 - first.2)) ∈ terms

def matchesText (q : FtsQuery) (text : String) : Bool := q.items.all (itemHolds (q.analyzer.analyze p text))

def strOf : RowValue → Option String
  | .scalar (.str s) => some s
  | _ => none

/-- The text of a `#[fulltext]` column, as the test of a row reads it. -/
def textOf : RowValue → Option String
  | .optSome v => strOf v
  | .list values => (values.mapM strOf).map (" ".intercalate ·)
  | v => strOf v

def matchesRow (q : FtsQuery) (row : Row) : Bool := (row[q.column]?.bind textOf).any (q.matchesText p)

end FtsQuery

end Fluxum
