import Mathlib.Data.Int.ModEq

/-!
Ring buffers: `size` slots linked in a circle, the slot of a stream position
being its remainder. Positions less than `size` apart have slots of their own.
-/

namespace AllJoyn.Lib.Ring

/-- The slot a slot is linked to. -/
def next (size slot : Nat) : Nat := (slot + 1) % size

theorem next_mod (size position : Nat) : next size (position % size) = (position + 1) % size := by
  rw [next, Nat.mod_add_mod]

theorem slot_eq_iff {size first second : Nat} (hfirst : first < second + size)
    (hsecond : second < first + size) : first % size = second % size ↔ first = second := by
  constructor
  · intro heq
    rcases Nat.le_total first second with hle | hle
    · have hdvd := (Nat.modEq_iff_dvd' hle).mp heq
      have hzero := Nat.eq_zero_of_dvd_of_lt hdvd (by omega)
      omega
    · have hdvd := (Nat.modEq_iff_dvd' hle).mp heq.symm
      have hzero := Nat.eq_zero_of_dvd_of_lt hdvd (by omega)
      omega
  · rintro rfl
    rfl

end AllJoyn.Lib.Ring
