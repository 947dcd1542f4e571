import Mathlib.Data.List.Basic

/-!
Runs of a deterministic state machine driven by a list of inputs, oldest
first, and the invariant rule for runs in which every step meets a side
condition evaluated in the state it is taken from. Nothing here depends on
what the machine is.
-/

namespace AllJoyn.Lib.Run

open List

variable {S I : Type*}

/-- Every input of the list meets `ok` in the state in which the machine
receives it. -/
def Meets (step : S → I → S) (ok : S → I → Prop) : S → List I → Prop
  | _, [] => True
  | s, i :: rest => ok s i ∧ Meets step ok (step s i) rest

variable {step : S → I → S} {ok : S → I → Prop}

instance Meets.decidable [∀ s i, Decidable (ok s i)] :
    ∀ (s : S) (inputs : List I), Decidable (Meets step ok s inputs)
  | _, [] => isTrue trivial
  | s, i :: rest =>
    have := Meets.decidable (step s i) rest
    inferInstanceAs (Decidable (ok s i ∧ Meets step ok (step s i) rest))

variable {s : S} {inputs : List I}

theorem Meets.append {first second : List I} :
    Meets step ok s (first ++ second) ↔
      Meets step ok s first ∧ Meets step ok (first.foldl step s) second := by
  induction first generalizing s with
  | nil => simp [Meets]
  | cons i rest ih =>
    simp [Meets, ih, and_assoc]

variable (inv : S → Prop)

/-- A predicate kept by every step that meets the condition holds at the end
of every run whose steps all meet it. -/
theorem Meets.invariant (hstep : ∀ s i, inv s → ok s i → inv (step s i)) (hs : inv s)
    (hrun : Meets step ok s inputs) : inv (inputs.foldl step s) := by
  induction inputs generalizing s with
  | nil => exact hs
  | cons i rest ih => exact ih (hstep s i hs hrun.1) hrun.2

/-- Where the condition says exactly which steps keep the predicate, it says exactly
in which runs the predicate holds throughout. -/
theorem Meets.iff_invariant (hstep : ∀ s i, inv s → (inv (step s i) ↔ ok s i)) (hs : inv s) :
    (∀ before, before <+: inputs → inv (before.foldl step s)) ↔ Meets step ok s inputs := by
  induction inputs generalizing s with
  | nil => simp [Meets, hs]
  | cons i rest ih =>
    rw [Meets, ← hstep s i hs]
    constructor
    · intro hall
      have hnext : inv (step s i) := hall [i] (by simp)
      exact ⟨hnext, (ih hnext).1 fun before hb => hall (i :: before) (by simpa using hb)⟩
    · rintro ⟨hnext, hrest⟩ before hbefore
      obtain rfl | ⟨before, rfl, hb⟩ := prefix_cons_iff.1 hbefore
      · exact hs
      · exact (ih hnext).2 hrest before hb

/-- The unconditional form: an invariant of every step is one of every run. -/
theorem foldl_invariant (hstep : ∀ s i, inv s → inv (step s i)) (hs : inv s) (inputs : List I) :
    inv (inputs.foldl step s) := by
  induction inputs generalizing s with
  | nil => exact hs
  | cons i rest ih => exact ih (hstep s i hs)

/-! ### Reads -/

section Reads

variable (f : S → I → Bool × S)

/-- A read of a chunk by a machine that says with each input whether it goes on. -/
def readChunk : S → List I → S
  | s, [] => s
  | s, i :: rest => if (f s i).1 then readChunk (f s i).2 rest else (f s i).2

/-- The machine goes on behind every input but the last. -/
def GoesOn (s : S) (inputs : List I) : Prop :=
  Meets (fun s i => (f s i).2) (fun s i => (f s i).1 = true) s inputs.dropLast

variable {f}

theorem GoesOn.readChunk_eq {chunk : List I} (h : GoesOn f s chunk) :
    readChunk f s chunk = chunk.foldl (fun s i => (f s i).2) s := by
  induction chunk generalizing s with
  | nil => rfl
  | cons i rest ih =>
    cases rest with
    | nil => simp [readChunk]
    | cons j rest =>
      rw [readChunk, if_pos h.1, ih h.2]
      rfl

theorem GoesOn.of_prefix {before : List I} (h : GoesOn f s inputs) (hbefore : before <+: inputs) :
    GoesOn f s before := by
  have hshorter : before.dropLast <+: inputs.dropLast := by
    have hlength := hbefore.length_le
    rw [dropLast_eq_take, dropLast_eq_take, prefix_take_iff, length_take]
    exact ⟨(List.take_prefix _ _).trans hbefore, by omega⟩
  obtain ⟨rest, hrest⟩ := hshorter
  rw [GoesOn, ← hrest] at h
  exact (Meets.append.1 h).1

theorem GoesOn.reads_eq {chunks : List (List I)} (h : GoesOn f s chunks.flatten) :
    chunks.foldl (readChunk f) s = chunks.flatten.foldl (fun s i => (f s i).2) s := by
  induction chunks generalizing s with
  | nil => rfl
  | cons chunk chunks ih =>
    rw [flatten_cons] at h ⊢
    rw [foldl_cons, foldl_append, (h.of_prefix (prefix_append _ _)).readChunk_eq]
    apply ih
    by_cases hrest : chunks.flatten = []
    · rw [hrest]
      trivial
    · rw [GoesOn, dropLast_append_of_ne_nil hrest, Meets.append] at h
      exact h.2

/-- A machine that never stays in a state in which it does not go on is in the same state however
its inputs are divided, and all along, exactly if it always goes on. -/
theorem reads_agree_iff (hmoves : ∀ s i j, (f s i).1 = false → (f (f s i).2 j).2 ≠ (f s i).2)
    (s : S) (inputs : List I) :
    (∀ before, before <+: inputs → ∀ first second : List (List I), first.flatten = before →
      second.flatten = before → first.foldl (readChunk f) s = second.foldl (readChunk f) s) ↔
    GoesOn f s inputs := by
  constructor
  · intro hsame
    induction inputs generalizing s with
    | nil => trivial
    | cons i rest ih =>
      cases rest with
      | nil => trivial
      | cons j rest =>
        have hgoes : (f s i).1 = true := by
          by_contra hstops
          rw [Bool.not_eq_true] at hstops
          have hagree := hsame [i, j] (by simp) [[i, j]] [[i], [j]] rfl rfl
          simp [readChunk, hstops] at hagree
          exact hmoves s i j hstops hagree.symm
        refine ⟨hgoes, ih _ fun before hbefore first second hfirst hsecond => ?_⟩
        have hagree := hsame (i :: before) (by simpa using hbefore) ([i] :: first) ([i] :: second)
          (by simp [hfirst]) (by simp [hsecond])
        simpa [readChunk] using hagree
  · intro hgoes before hbefore first second hfirst hsecond
    have hprefix := hgoes.of_prefix hbefore
    rw [GoesOn.reads_eq (by rwa [hfirst]), GoesOn.reads_eq (by rwa [hsecond]), hfirst, hsecond]

end Reads

end AllJoyn.Lib.Run
