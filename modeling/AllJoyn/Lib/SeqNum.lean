import Mathlib.Data.Nat.ModEq

/-!
Sequence numbers of 32 bits and ranges on their circle. `number` is the sequence
number of a position in an unbounded stream.
-/

namespace AllJoyn.Lib.SeqNum

abbrev Seq := BitVec 32

/-- The sequence number of a position in the stream. -/
def number (position : Nat) : Seq := BitVec.ofNat 32 position

/-- `p` is among the `size` numbers from `beg` on. -/
def inRange (beg size p : Seq) : Bool :=
  (decide (beg < beg + size) && decide (beg ≤ p) && decide (p < beg + size)) ||
    (decide (beg + size < beg) && !(decide (p < beg) && decide (beg + size ≤ p)))

theorem toNat_number (position : Nat) : (number position).toNat = position % 2 ^ 32 :=
  BitVec.toNat_ofNat position 32

theorem inRange_iff (beg size p : Seq) :
    inRange beg size p = true ↔ (p - beg).toNat < size.toNat := by
  simp only [inRange, BitVec.lt_def, BitVec.le_def, BitVec.toNat_add, BitVec.toNat_sub,
    Bool.or_eq_true, Bool.and_eq_true, decide_eq_true_eq, Bool.not_eq_true', Bool.and_eq_false_iff,
    decide_eq_false_iff_not]
  omega

end AllJoyn.Lib.SeqNum
