import SafeRestart.Interval.Basic

/-!
# Gaps of a set

The parts of a span that a set of points leaves free, and the addition of those parts to another
set.
-/

namespace SafeRestart

theorem Span.start_lt_split {candidate conflict : Span}
    (nonempty : candidate.start < candidate.stop)
    (later : candidate.start < conflict.stop) :
    candidate.start < (candidate.split conflict).2 := by
  unfold Span.split
  split
  · exact nonempty
  · split <;> exact later

namespace IntervalSet

theorem lt_stop_of_find {s : IntervalSet} {p : Nat} {r : Span}
    (h : s.find p = some r) : p < r.stop := by
  simpa using List.find?_some h

/-- The maximal parts of `r` without a point of the set, in ascending order. -/
def gaps (s : IntervalSet) (r : Span) : List Span :=
  if _nonempty : r.start < r.stop then
    match _found : s.find r.start with
    | none => [r]
    | some conflict =>
        (r.split conflict).1.toList ++ gaps s ⟨(r.split conflict).2, r.stop⟩
  else
    []
termination_by r.stop - r.start
decreasing_by
  have later := Span.start_lt_split _nonempty (lt_stop_of_find _found)
  omega

/-- Adds to `s` the points of `r` that lie neither in `live` nor in `s`. -/
def insertOutside (s live : IntervalSet) (r : Span) : Except Error IntervalSet :=
  (live.gaps r).foldlM (fun s part => (s.gaps part).foldlM insert s) s

end IntervalSet
end SafeRestart
