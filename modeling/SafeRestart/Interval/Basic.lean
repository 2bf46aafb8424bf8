import SafeRestart.Error

/-!
# Sets of program points

A set of program points is kept as its maximal runs: half-open spans in ascending order, none
empty, no two of them touching.  Two sets with the same points are therefore the same list of
spans.
-/

namespace SafeRestart

/-- The points from `start` up to but without `stop`; none when `stop ≤ start`. -/
structure Span where
  start : Nat
  stop : Nat
deriving DecidableEq

namespace Span

/-- Splits `candidate` against a span that ends after the start of `candidate`.

Answers the part of `candidate` before `conflict`, if there is one, and the point from which the
rest of `candidate` is still to be looked at.  That point may lie beyond the end of
`candidate`. -/
def split (candidate conflict : Span) : Option Span × Nat :=
  if candidate.stop ≤ conflict.start then (some candidate, candidate.stop)
  else if conflict.start ≤ candidate.start then (none, conflict.stop)
  else (some ⟨candidate.start, conflict.start⟩, conflict.stop)

end Span

structure IntervalSet where
  spans : List Span
deriving DecidableEq

namespace IntervalSet

def empty : IntervalSet := ⟨[]⟩

/-!
# Looking at a set
-/

/-- The first span that ends after `p`: it holds `p` or lies wholly after it. -/
def find (s : IntervalSet) (p : Nat) : Option Span :=
  s.spans.find? fun r => p < r.stop

def contains (s : IntervalSet) (p : Nat) : Bool :=
  (s.find p).any fun r => r.start ≤ p

def overlaps (s : IntervalSet) (r : Span) : Bool :=
  r.start < r.stop && (s.find r.start).any fun found => found.start < r.stop

def size (s : IntervalSet) : Nat := s.spans.foldr (fun r rest => (r.stop - r.start) + rest) 0

def isEmpty (s : IntervalSet) : Bool := s.spans.isEmpty

def text (s : IntervalSet) : String :=
  String.join (s.spans.map fun r => s!"[{r.start},{r.stop})")

/-!
# Adding points
-/

/-- Adds a non-empty span to an ascending list of spans, fusing it with all that it overlaps or
touches. -/
def absorb (r : Span) : List Span -> List Span
  | [] => [r]
  | first :: rest =>
      if first.stop < r.start then first :: absorb r rest
      else if r.stop < first.start then r :: first :: rest
      else absorb ⟨min r.start first.start, max r.stop first.stop⟩ rest

def union (s : IntervalSet) (r : Span) : IntervalSet :=
  if r.start < r.stop then ⟨absorb r s.spans⟩ else s

/-- Adds the points of `r`, none of which may be in the set. -/
def insert (s : IntervalSet) (r : Span) : Except Error IntervalSet :=
  if s.overlaps r then .error (.overlappingRange r.start r.stop) else .ok (s.union r)

def ofSpans (spans : List Span) : IntervalSet := spans.foldl union empty

end IntervalSet
end SafeRestart
