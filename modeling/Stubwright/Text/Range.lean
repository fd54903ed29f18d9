/-!
# Ranges of code points

A class of characters from a standard is a table, either of ranges or of the lengths of runs that
lie outside and inside the class in turn; membership is a scan of the table.
-/

namespace Stubwright.Text

/-- Whether the code point of `c` lies in one of `ranges`, whose ends are included. -/
def inRanges (ranges : List (Nat × Nat)) (c : Char) : Bool :=
  ranges.any fun (lo, hi) => lo ≤ c.toNat && c.toNat ≤ hi

/-- Whether a place counted from the start of the first run lies in one that is inside the class. -/
def inRuns : List Nat → Nat → Bool
  | outside :: inside :: runs, n =>
    if n < outside + inside then outside ≤ n else inRuns runs (n - (outside + inside))
  | _, _ => false

end Stubwright.Text
