/-!
# Upper-case characters

The characters with the property Uppercase of Unicode 17.  A declared name is exported when it
starts with one.  Most blocks alternate upper and lower case, so a run carries the distance between
its members.
-/

namespace Stubwright.Text

/-- The upper-case characters from U+0080 on: how many characters lie before a run, how many it goes
over, and the distance between its members. -/
def uppercaseRuns : List (Nat × Nat × Nat) :=
  [(64, 23, 1), (1, 7, 1), (33, 55, 2), (2, 15, 2), (2, 47, 2), (0, 5, 2), (3, 2, 1), (1, 1, 1),
   (1, 2, 1), (1, 3, 1), (2, 4, 1), (1, 2, 1), (1, 3, 1), (3, 2, 1), (1, 2, 1), (1, 5, 2),
   (0, 1, 1), (1, 1, 1), (2, 1, 1), (1, 2, 1), (1, 3, 1), (1, 1, 1), (1, 2, 1), (3, 1, 1),
   (7, 1, 1), (2, 1, 1), (2, 1, 1), (2, 15, 2), (2, 17, 2), (2, 1, 1), (2, 1, 1), (1, 3, 1),
   (1, 57, 2), (7, 2, 1), (1, 2, 1), (2, 1, 1), (1, 4, 1), (1, 7, 2), (289, 1, 1), (1, 1, 1),
   (3, 1, 1), (8, 1, 1), (6, 1, 1), (1, 3, 1), (1, 1, 1), (1, 2, 1), (1, 17, 1), (1, 9, 1),
   (35, 1, 1), (2, 3, 1), (3, 23, 2), (5, 1, 1), (2, 1, 1), (1, 2, 1), (2, 51, 1), (48, 33, 2),
   (9, 55, 2), (0, 13, 2), (2, 95, 2), (2, 38, 1), (2889, 38, 1), (1, 1, 1), (5, 1, 1),
   (722, 86, 1), (2195, 1, 1), (6, 43, 1), (2, 3, 1), (320, 149, 2), (9, 97, 2), (9, 8, 1),
   (8, 6, 1), (10, 8, 1), (8, 8, 1), (8, 6, 1), (11, 7, 2), (8, 8, 1), (72, 4, 1), (12, 4, 1),
   (12, 4, 1), (12, 5, 1), (11, 4, 1), (262, 1, 1), (4, 1, 1), (3, 3, 1), (2, 3, 1), (2, 1, 1),
   (3, 5, 1), (6, 7, 2), (0, 3, 1), (2, 4, 1), (10, 2, 1), (5, 1, 1), (26, 16, 1), (19, 1, 1),
   (818, 26, 1), (1840, 48, 1), (48, 1, 1), (1, 3, 1), (2, 7, 2), (0, 3, 1), (1, 1, 1), (2, 1, 1),
   (8, 3, 1), (1, 97, 2), (8, 1, 1), (1, 1, 1), (4, 1, 1), (31053, 45, 2), (19, 27, 2),
   (135, 13, 2), (3, 61, 2), (10, 5, 2), (0, 9, 2), (4, 1, 1), (1, 1, 1), (2, 1, 1), (1, 1, 1),
   (3, 21, 2), (0, 4, 1), (1, 5, 1), (1, 15, 2), (0, 3, 1), (1, 1, 1), (1, 2, 1), (1, 15, 2),
   (24, 1, 1), (22315, 26, 1), (1221, 40, 1), (136, 36, 1), (156, 11, 1), (1, 15, 1), (1, 7, 1),
   (1, 2, 1), (1770, 51, 1), (157, 22, 1), (2874, 32, 1), (21888, 32, 1), (64, 25, 1),
   (25927, 26, 1), (26, 26, 1), (26, 26, 1), (26, 1, 1), (1, 2, 1), (2, 1, 1), (2, 2, 1), (2, 4, 1),
   (1, 8, 1), (26, 26, 1), (26, 2, 1), (1, 4, 1), (2, 8, 1), (1, 7, 1), (27, 2, 1), (1, 4, 1),
   (1, 5, 1), (1, 1, 1), (3, 7, 1), (27, 26, 1), (26, 26, 1), (26, 26, 1), (26, 26, 1), (26, 26, 1),
   (26, 26, 1), (30, 25, 1), (33, 25, 1), (33, 25, 1), (33, 25, 1), (33, 25, 1), (33, 1, 1),
   (4405, 34, 1), (2062, 26, 1), (6, 26, 1), (6, 26, 1)]

/-- Whether a place counted from the start of the table is that of a member of one of its runs. -/
def inSteppedRuns : List (Nat × Nat × Nat) → Nat → Bool
  | [], _ => false
  | (outside, inside, step) :: runs, n =>
    if n < outside + inside then outside ≤ n && (n - outside) % step == 0
    else inSteppedRuns runs (n - (outside + inside))

/-- Whether `c` is an upper-case character of any script. -/
def isUppercase (c : Char) : Bool :=
  if c.toNat < 0x80 then c.isUpper else inSteppedRuns uppercaseRuns (c.toNat - 0x80)

end Stubwright.Text
