import Stubwright.Text.Digit
import Stubwright.Text.Letter

/-!
# Alphanumeric characters

The characters that are alphabetic or numeric in Unicode 17: the property Alphabetic and the
general categories Nd, Nl and No.  They make up the words of a build constraint, and the part of
an import path from which a package name is guessed.

The letters and the decimal digits of Unicode 16 are all among them.  The table lists the others:
the marks, letter numbers and other numbers, and the letters and digits that Unicode 17 added.
-/

namespace Stubwright.Text

/-- The alphanumeric characters from U+0080 on that are neither letters nor decimal digits, by the
lengths of the runs of others and of these. -/
def otherAlphanumericRuns : List Nat :=
  [50, 2, 5, 1, 2, 3, 646, 1, 29, 13, 576, 14, 1, 1, 1, 2, 1, 2, 1, 1, 72, 11, 48, 13, 1, 7, 16, 1,
   101, 7, 4, 4, 2, 2, 4, 1, 35, 1, 30, 16, 102, 11, 101, 2, 3, 9, 1, 3, 1, 4, 98, 1, 7, 1, 60, 12,
   3, 7, 6, 20, 54, 2, 2, 15, 1, 2, 5, 3, 10, 2, 29, 3, 58, 7, 2, 2, 2, 2, 10, 1, 10, 2, 16, 6, 7,
   3, 58, 5, 4, 2, 2, 2, 4, 1, 30, 2, 3, 1, 11, 3, 58, 8, 1, 3, 1, 2, 21, 2, 22, 3, 4, 3, 58, 7, 2,
   2, 2, 2, 9, 2, 10, 2, 14, 6, 10, 1, 59, 5, 3, 3, 1, 3, 10, 1, 24, 3, 13, 5, 57, 7, 1, 3, 1, 3, 8,
   2, 5, 1, 5, 2, 20, 7, 2, 3, 58, 7, 1, 3, 1, 3, 8, 2, 5, 1, 5, 2, 15, 1, 12, 4, 58, 7, 1, 3, 1, 3,
   10, 8, 3, 2, 12, 9, 8, 3, 75, 6, 1, 1, 1, 8, 18, 2, 61, 1, 2, 7, 18, 1, 99, 1, 2, 6, 1, 2, 16, 1,
   92, 10, 61, 19, 9, 11, 1, 36, 110, 12, 1, 1, 2, 4, 23, 4, 4, 3, 1, 3, 2, 7, 3, 4, 13, 12, 1, 1,
   10, 4, 715, 20, 881, 3, 33, 2, 30, 2, 30, 2, 30, 2, 66, 19, 39, 10, 139, 2, 34, 1, 118, 12, 4, 9,
   161, 1, 60, 5, 57, 10, 2, 20, 74, 2, 11, 3, 49, 5, 48, 15, 60, 3, 30, 9, 2, 2, 57, 11, 50, 19,
   412, 34, 635, 1, 3, 6, 6, 10, 198, 51, 2, 5, 726, 60, 26, 74, 630, 30, 1385, 1, 226, 32, 519, 1,
   25, 9, 14, 3, 343, 4, 138, 10, 30, 8, 1, 15, 32, 10, 39, 15, 29620, 8, 34, 2, 70, 10, 222, 2, 2,
   1, 1, 1, 28, 1, 16, 1, 8, 1, 23, 5, 8, 6, 74, 2, 50, 16, 1, 1, 57, 1, 38, 5, 28, 12, 45, 4, 48,
   12, 37, 1, 67, 14, 12, 1, 8, 2, 45, 3, 50, 1, 1, 3, 2, 2, 5, 1, 44, 5, 5, 1, 237, 8, 20275, 1,
   1512, 45, 12, 57, 17, 2, 341, 27, 36, 4, 29, 1, 8, 1, 43, 5, 86, 5, 1154, 8, 25, 7, 39, 9, 75, 5,
   22, 6, 36, 26, 98, 2, 2, 16, 2, 46, 1, 3, 1, 2, 5, 4, 48, 9, 52, 2, 30, 3, 75, 5, 104, 8, 24, 8,
   41, 7, 330, 6, 36, 4, 65, 1, 246, 31, 44, 2, 24, 3, 50, 3, 32, 10, 42, 4, 112, 7, 52, 3, 53, 14,
   12, 20, 13, 2, 11, 3, 45, 9, 9, 1, 61, 3, 36, 12, 18, 2, 57, 3, 48, 13, 14, 2, 17, 20, 55, 9, 2,
   1, 6, 1, 2, 1, 157, 10, 23, 4, 58, 7, 2, 2, 2, 2, 10, 1, 10, 2, 84, 9, 1, 1, 2, 1, 1, 4, 1, 2,
   103, 13, 1, 3, 106, 18, 237, 7, 2, 7, 29, 2, 82, 15, 1, 1, 106, 11, 103, 14, 15, 2, 240, 13, 177,
   9, 61, 6, 1, 2, 2, 2, 3, 1, 1, 1, 142, 7, 2, 6, 4, 1, 28, 10, 42, 5, 1, 4, 18, 11, 46, 14, 200,
   8, 199, 8, 1, 7, 27, 19, 37, 22, 1, 14, 122, 6, 3, 1, 1, 2, 1, 3, 1, 1, 3, 1, 66, 5, 1, 2, 1, 4,
   25, 44, 4, 10, 265, 4, 9, 2, 1, 1, 48, 7, 3, 3, 127, 21, 1067, 111, 15535, 17, 2604, 7, 798, 23,
   9, 25, 2, 25, 123, 1, 1, 55, 7, 4, 93, 7, 6145, 8, 1289, 22, 97, 115, 11947, 1, 5665, 20, 12, 20,
   108, 25, 3207, 7, 1, 17, 2, 7, 1, 2, 1, 5, 100, 1, 1584, 31, 1, 22, 8, 2, 455, 9, 119, 1, 809,
   59, 1, 3, 1, 4, 76, 45, 1, 15, 962, 13, 35, 26, 6, 26, 6, 26, 50608, 6, 5986, 12, 21762, 4298]

/-- Whether `c` is alphabetic or numeric in any script. -/
def isAlphanumeric (c : Char) : Bool :=
  isLetter c || isDecimalDigit c ||
    0x80 ≤ c.toNat && inRuns otherAlphanumericRuns (c.toNat - 0x80)

end Stubwright.Text
