import Mathlib.Data.Int.ModEq
import Mathlib.Data.List.Basic

/-!
A sliding window over an unbounded numbering, seen from both ends of a channel
that loses and does not reorder. The sender keeps the numbers from `base` up to
`next`, and may send any of them any number of times; the receiver takes them
in order and acknowledges the next one it expects. What is in flight then lies
less than two windows apart, so that residues are enough to tell it apart.
-/

namespace AllJoyn.Lib.GoBackN

open List Nat

structure Window where
  /-- The lowest number that the sender keeps. -/
  base : Nat
  /-- The number of the next packet. -/
  next : Nat
  /-- The number that the receiver waits for. -/
  expected : Nat
  /-- The numbers in flight to the receiver, the next to arrive first. -/
  data : List Nat
  /-- The acknowledgements in flight to the sender. -/
  acks : List Nat

/-- What holds with at most `size` numbers kept. A number in flight was kept when
it was sent, so all numbers sent before it are less than `size` ahead. -/
structure Window.Valid (size : Nat) (w : Window) : Prop where
  base_le : w.base ≤ w.expected
  expected_le : w.expected ≤ w.next
  next_le : w.next ≤ w.base + size
  data_lt : ∀ i ∈ w.data, i < w.next
  data_ge : ∀ i ∈ w.data, w.expected ≤ i + size
  data_order : w.data.Pairwise fun i j => i < j + size
  acks_ge : ∀ a ∈ w.acks, w.base ≤ a
  acks_le : ∀ a ∈ w.acks, a ≤ w.expected
  acks_order : w.acks.Pairwise (· ≤ ·)

namespace Window

variable {size : Nat} {w : Window}

def start : Window := ⟨0, 0, 0, [], []⟩

theorem Valid.start : Window.start.Valid size := by
  constructor <;> simp [Window.start]

variable (h : w.Valid size)

include h

theorem Valid.push (hfree : w.next < w.base + size) :
    { w with next := w.next + 1 }.Valid size :=
  { h with
    expected_le := le_succ_of_le h.expected_le
    next_le := hfree
    data_lt := fun i hi => lt_succ_of_lt (h.data_lt i hi) }

variable {i : Nat} {data acks : List Nat}

theorem Valid.emit (hbase : w.base ≤ i) (hnext : i < w.next) :
    { w with data := w.data ++ [i] }.Valid size := by
  have hexpected := h.expected_le
  have hsize := h.next_le
  refine { h with data_lt := ?_, data_ge := ?_, data_order := ?_ }
  · intro j hj
    obtain hold | rfl := mem_append.1 hj |>.imp_right mem_singleton.1
    · exact h.data_lt j hold
    · exact hnext
  · intro j hj
    obtain hold | rfl := mem_append.1 hj |>.imp_right mem_singleton.1
    · exact h.data_ge j hold
    · dsimp only
      omega
  · rw [pairwise_append]
    refine ⟨h.data_order, pairwise_singleton _ _, ?_⟩
    intro j hj k hk
    obtain rfl := mem_singleton.1 hk
    have hlt := h.data_lt j hj
    omega

theorem Valid.acknowledge :
    { w with acks := w.acks ++ [w.expected] }.Valid size := by
  refine { h with acks_ge := ?_, acks_le := ?_, acks_order := ?_ }
  · intro a ha
    obtain hold | rfl := mem_append.1 ha |>.imp_right mem_singleton.1
    · exact h.acks_ge a hold
    · exact h.base_le
  · intro a ha
    obtain hold | rfl := mem_append.1 ha |>.imp_right mem_singleton.1
    · exact h.acks_le a hold
    · exact le_rfl
  · rw [pairwise_append]
    refine ⟨h.acks_order, pairwise_singleton _ _, ?_⟩
    intro a ha b hb
    rw [mem_singleton.1 hb]
    exact h.acks_le a ha

theorem Valid.loseData (hsub : data.Sublist w.data) : { w with data := data }.Valid size :=
  { h with
    data_lt := fun i hi => h.data_lt i (hsub.subset hi)
    data_ge := fun i hi => h.data_ge i (hsub.subset hi)
    data_order := h.data_order.sublist hsub }

theorem Valid.loseAcks (hsub : acks.Sublist w.acks) : { w with acks := acks }.Valid size :=
  { h with
    acks_ge := fun a ha => h.acks_ge a (hsub.subset ha)
    acks_le := fun a ha => h.acks_le a (hsub.subset ha)
    acks_order := h.acks_order.sublist hsub }

theorem Valid.take (hdata : w.data = w.expected :: data) :
    { w with expected := w.expected + 1, data := data }.Valid size := by
  have hlt := h.data_lt w.expected (by rw [hdata]; exact mem_cons_self)
  have horder := h.data_order
  rw [hdata, pairwise_cons] at horder
  refine { h.loseData (by rw [hdata]; exact sublist_cons_self _ _) with
    base_le := le_succ_of_le h.base_le
    expected_le := hlt
    data_ge := fun i hi => horder.1 i hi
    acks_le := fun a ha => le_succ_of_le (h.acks_le a ha) }

theorem Valid.release {ack base : Nat} (hacks : w.acks = ack :: acks) (hbase : w.base ≤ base)
    (hack : base ≤ ack) : { w with base := base, acks := acks }.Valid size := by
  have hle := h.acks_le ack (by rw [hacks]; exact mem_cons_self)
  have horder := h.acks_order
  rw [hacks, pairwise_cons] at horder
  have hnext := h.next_le
  refine { h.loseAcks (by rw [hacks]; exact sublist_cons_self _ _) with
    base_le := hack.trans hle
    next_le := by dsimp only; omega
    acks_ge := fun a ha => hack.trans (horder.1 a ha) }

end Window

/-! ### Residues -/

section Residues

variable {m : Nat} [NeZero m]

/-- The residue of a number. -/
def residue (i : Nat) : Fin m := Fin.ofNat m i

theorem residue_eq_iff {j : Nat} (hi : i < j + m) (hj : j < i + m) :
    (residue i : Fin m) = residue j ↔ i = j := by
  constructor
  · intro heq
    have hmod : i % m = j % m := congrArg Fin.val heq
    apply Nat.ModEq.eq_of_abs_lt hmod
    rw [abs_lt]
    omega
  · rintro rfl
    rfl

/-- `first` is one of the `size` residues that follow `second`. -/
def follows (size : Nat) (first second : Fin m) : Bool :=
  (first.val + (m - 1 - second.val)) % m < size

theorem val_sub_of_lt {j : Nat} (hlt : j < i) (hnear : i ≤ j + m) :
    (i % m + (m - 1 - j % m)) % m = i - j - 1 := by
  have hm : j % m < m := mod_lt _ (pos_of_neZero m)
  have hdiv := div_add_mod j m
  have hsum : i + (m - 1 - j % m) = (i - j - 1) + m + m * (j / m) := by omega
  rw [mod_add_mod, hsum, add_mul_mod_self_left, add_mod_right,
    mod_eq_of_lt (by omega)]

theorem val_sub_of_le {j : Nat} (hle : i ≤ j) (hnear : j < i + m) :
    (i % m + (m - 1 - j % m)) % m = m - 1 - (j - i) := by
  have hm : j % m < m := mod_lt _ (pos_of_neZero m)
  have hdiv := div_add_mod j m
  have hsum : i + (m - 1 - j % m) = (m - 1 - (j - i)) + m * (j / m) := by omega
  rw [mod_add_mod, hsum, add_mul_mod_self_left, mod_eq_of_lt (by omega)]

/-- Numbers less than a window apart on either side are told apart by residues. -/
theorem follows_residue {size j : Nat} (hsize : size ≤ m) (hi : i ≤ j + size)
    (hj : j + size < i + m) : follows size (residue i : Fin m) (residue j) = true ↔ j < i := by
  have hvalue : follows size (residue i : Fin m) (residue j) =
      decide ((i % m + (m - 1 - j % m)) % m < size) := rfl
  rw [hvalue, decide_eq_true_eq]
  by_cases hlt : j < i
  · rw [val_sub_of_lt hlt (by omega)]
    omega
  · rw [val_sub_of_le (by omega) (by omega)]
    omega

end Residues

/-! ### What residues tell inside a valid window -/

section Decoding

variable {m size : Nat} [NeZero m] {w : Window} (h : w.Valid size) (hsize : 2 * size ≤ m)
include h hsize

theorem data_eq_expected (hi : i ∈ w.data) :
    (residue i : Fin m) = residue w.expected ↔ i = w.expected := by
  have hlt := h.data_lt i hi
  have hge := h.data_ge i hi
  have hnext := h.next_le
  have hbase := h.base_le
  exact residue_eq_iff (by omega) (by omega)

theorem data_follows_expected (hi : i ∈ w.data) (hahead : w.expected < i) :
    follows size (residue i : Fin m) (residue w.expected) = true := by
  have hlt := h.data_lt i hi
  have hnext := h.next_le
  have hbase := h.base_le
  exact (follows_residue (by omega) (by omega) (by omega)).2 hahead

theorem expected_follows_data (hi : i ∈ w.data) :
    follows size (residue w.expected : Fin m) (residue i) = true ↔ i < w.expected := by
  have hlt := h.data_lt i hi
  have hge := h.data_ge i hi
  have hnext := h.next_le
  have hbase := h.base_le
  exact follows_residue (by omega) (by omega) (by omega)

/-- An acknowledgement covers the kept numbers below it and no others. -/
theorem ack_follows_kept {ack : Nat} (hack : ack ∈ w.acks) (hbase : w.base ≤ i) (hnext : i < w.next) :
    follows size (residue ack : Fin m) (residue i) = true ↔ i < ack := by
  have hge := h.acks_ge ack hack
  have hle := h.acks_le ack hack
  have hexpected := h.expected_le
  have hwindow := h.next_le
  exact follows_residue (by omega) (by omega) (by omega)

end Decoding

end AllJoyn.Lib.GoBackN
