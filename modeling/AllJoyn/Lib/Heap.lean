import Mathlib.Data.List.Basic
import Mathlib.Order.Basic

/-!
A heap as a list of words. An object is a run of words and its address the
place of the first one; allocation appends.
-/

namespace AllJoyn.Lib.Heap

variable {W : Type*} {heap heap' heap'' : List W}

/-- The words stand at the address, all in places that `own` allows. -/
def Holds (heap : List W) (own : Nat → Prop) (addr : Nat) (words : List W) : Prop :=
  ∀ index word, words[index]? = some word → own (addr + index) ∧ heap[addr + index]? = some word

/-- The words of the one heap are still in the other, except in places in
`spot`. -/
structure Grows (spot : Nat → Prop) (heap heap' : List W) : Prop where
  length_le : heap.length ≤ heap'.length
  kept : ∀ addr < heap.length, ¬spot addr → heap'[addr]? = heap[addr]?

/-- What is in places of `own` is still there, and these are places of `own'`. -/
def Framed (heap heap' : List W) (own own' : Nat → Prop) : Prop :=
  ∀ addr < heap.length, own addr → own' addr ∧ heap'[addr]? = heap[addr]?

variable {own : Nat → Prop} {addr : Nat} {words : List W}

theorem Grows.framed {spot own' : Nat → Prop} (hgrows : Grows spot heap heap')
    (hown : ∀ addr < heap.length, own addr → own' addr ∧ ¬spot addr) : Framed heap heap' own own' :=
  fun addr haddr howns =>
    ⟨(hown addr haddr howns).1, hgrows.kept addr haddr (hown addr haddr howns).2⟩

theorem Holds.mono {own' : Nat → Prop} (hholds : Holds heap own addr words)
    (hframed : Framed heap heap' own own') : Holds heap' own' addr words := by
  intro index word hword
  obtain ⟨howns, hread⟩ := hholds index word hword
  obtain ⟨howns', hsame⟩ := hframed _ (List.getElem?_eq_some_iff.mp hread).1 howns
  exact ⟨howns', hsame.trans hread⟩

theorem Holds.take_drop (hholds : Holds heap own addr words) :
    (heap.drop addr).take words.length = words := by
  refine List.ext_getElem? fun index => ?_
  rw [List.getElem?_take, List.getElem?_drop]
  by_cases hindex : index < words.length
  · rw [if_pos hindex, List.getElem?_eq_getElem hindex]
    exact (hholds index _ (List.getElem?_eq_getElem hindex)).2
  · rw [if_neg hindex, List.getElem?_eq_none (by omega)]

theorem holds_append (heap words : List W) :
    Holds (heap ++ words) (heap.length ≤ ·) heap.length words := by
  intro index word hword
  refine ⟨Nat.le_add_right _ _, ?_⟩
  rw [List.getElem?_append_right (Nat.le_add_right _ _), Nat.add_sub_cancel_left]
  exact hword

theorem grows_append (spot : Nat → Prop) (heap words : List W) :
    Grows spot heap (heap ++ words) where
  length_le := by simp
  kept _ haddr _ := List.getElem?_append_left haddr

theorem grows_refl (spot : Nat → Prop) (heap : List W) : Grows spot heap heap :=
  ⟨Nat.le_refl _, fun _ _ _ => rfl⟩

/-- A change of places that the first heap does not have is not one of it. -/
theorem Grows.trans {spot spot' : Nat → Prop} (hfirst : Grows spot heap heap')
    (hsecond : Grows spot' heap' heap'') (hspot : ∀ addr < heap.length, spot' addr → spot addr) :
    Grows spot heap heap'' where
  length_le := Nat.le_trans hfirst.length_le hsecond.length_le
  kept addr haddr hnot := by
    rw [hsecond.kept addr (Nat.lt_of_lt_of_le haddr hfirst.length_le)
      fun hspots => hnot (hspot addr haddr hspots), hfirst.kept addr haddr hnot]

theorem Grows.set (hgrows : Grows (fun _ => False) heap heap') (word : W) :
    Grows (· = addr) heap (heap'.set addr word) where
  length_le := by
    rw [List.length_set]
    exact hgrows.length_le
  kept other hother hnot := by
    rw [List.getElem?_set_ne (Ne.symm hnot), hgrows.kept other hother id]

end AllJoyn.Lib.Heap
