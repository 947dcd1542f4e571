import Mathlib.Data.List.Perm.Basic

/-!
Lists that hold related items in another order, and what such a reordering
cannot change: whether some item has a property that the relation respects, and
the outcome of a fold whose steps commute.
-/

namespace AllJoyn.Lib.Reorder

open List

variable {α : Type*} {R : α → α → Prop} {left right : List α}

/-- The items of `left`, in some order, are related one by one to those of
`right`. -/
def Reordered (R : α → α → Prop) (left right : List α) : Prop :=
  ∃ middle, left.Perm middle ∧ List.Forall₂ R middle right

theorem Reordered.refl (hrefl : ∀ a, R a a) (items : List α) : Reordered R items items :=
  ⟨items, List.Perm.refl _, forall₂_same.mpr fun a _ => hrefl a⟩

theorem Reordered.map (f : α → α) (hf : ∀ a, R a (f a)) (items : List α) :
    Reordered R items (items.map f) := by
  refine ⟨items, List.Perm.refl _, ?_⟩
  rw [forall₂_map_right_iff]
  exact forall₂_same.mpr fun a _ => hf a

variable {P : α → Prop}

private theorem exists_of_forall₂ (hP : ∀ a b, R a b → P a → P b) (h : List.Forall₂ R left right)
    (hleft : ∃ a ∈ left, P a) : ∃ b ∈ right, P b := by
  induction h with
  | nil => simp at hleft
  | cons hab hrest ih =>
    obtain ⟨item, hmem, hitem⟩ := hleft
    rcases mem_cons.mp hmem with rfl | htail
    · exact ⟨_, mem_cons_self, hP _ _ hab hitem⟩
    · obtain ⟨found, hfound, hprop⟩ := ih ⟨item, htail, hitem⟩
      exact ⟨found, mem_cons_of_mem _ hfound, hprop⟩

/-- Some item has a property that the relation respects before the reordering
exactly when one does after it. -/
theorem Reordered.exists_iff (hP : ∀ a b, R a b → (P a ↔ P b)) (h : Reordered R left right) :
    (∃ a ∈ left, P a) ↔ ∃ b ∈ right, P b := by
  obtain ⟨middle, hperm, hrelated⟩ := h
  have hmiddle : (∃ a ∈ left, P a) ↔ ∃ a ∈ middle, P a :=
    exists_congr fun a => and_congr_left fun _ => hperm.mem_iff
  rw [hmiddle]
  constructor
  · exact exists_of_forall₂ (fun a b hab => (hP a b hab).mp) hrelated
  · exact exists_of_forall₂ (R := fun b a => R a b) (fun b a hab => (hP a b hab).mpr)
      hrelated.flip

/-- A fold whose steps commute and respect the relation has one outcome. -/
theorem Reordered.foldl_eq {β : Type*} {f : β → α → β}
    (hcomm : ∀ state a b, f (f state a) b = f (f state b) a)
    (hrelated : ∀ state a b, R a b → f state a = f state b) (h : Reordered R left right)
    (state : β) : left.foldl f state = right.foldl f state := by
  obtain ⟨middle, hperm, hmiddle⟩ := h
  have hfirst : left.foldl f state = middle.foldl f state :=
    hperm.foldl_eq' (fun a _ b _ s => hcomm s a b) state
  rw [hfirst]
  clear hperm hfirst
  induction hmiddle generalizing state with
  | nil => rfl
  | cons hab _ ih => rw [foldl_cons, foldl_cons, hrelated state _ _ hab, ih]

end AllJoyn.Lib.Reorder
