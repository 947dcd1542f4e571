import Mathlib.Data.List.Forall2

/-!
Computations that end with a value or an error: how a sequence of them runs,
and what a successful sequence tells about its parts.
-/

namespace AllJoyn.Lib.Result

open List

universe u v

variable {E : Type u} {A B : Type v}

theorem ok_bind (a : A) (next : A → Except E B) : (Except.ok a >>= next) = next a := rfl

theorem pure_ok (a : A) : (pure a : Except E A) = .ok a := rfl

theorem error_bind (e : E) (next : A → Except E B) :
    (Except.error e >>= next) = Except.error e := rfl

variable {first : Except E A} {next : A → Except E B} {e : E} {xs : List A}

theorem bind_eq_ok {b : B} : (first >>= next) = .ok b ↔ ∃ a, first = .ok a ∧ next a = .ok b := by
  cases first with
  | error e => simp [error_bind]
  | ok a => simp [ok_bind]

theorem bind_eq_error :
    (first >>= next) = .error e ↔ first = .error e ∨ ∃ a, first = .ok a ∧ next a = .error e := by
  cases first with
  | error other => simp [error_bind]
  | ok a => simp [ok_bind]

theorem pure_eq_ok {a b : A} : (pure a : Except E A) = .ok b ↔ a = b := by
  change Except.ok a = Except.ok b ↔ a = b
  rw [Except.ok.injEq]

/-! ### One computation per element of a list -/

variable {C : Type v}

variable {step : A → Except E B}

theorem mapM_of_exists {related : A → B → Prop} :
    ∀ {xs : List A}, (∀ x ∈ xs, ∃ y, step x = .ok y ∧ related x y) →
      ∃ ys, xs.mapM step = .ok ys ∧ List.Forall₂ related xs ys
  | [], _ => ⟨[], rfl, .nil⟩
  | x :: xs, hsteps => by
    obtain ⟨hfirst, hrest⟩ := forall_mem_cons.mp hsteps
    obtain ⟨y, hy, hrelated⟩ := hfirst
    obtain ⟨ys, hys, hall⟩ := mapM_of_exists hrest
    refine ⟨y :: ys, ?_, .cons hrelated hall⟩
    rw [mapM_cons, hy, hys]
    rfl

theorem exists_mapM_iff : (∃ ys, xs.mapM step = .ok ys) ↔ ∀ x ∈ xs, ∃ y, step x = .ok y := by
  constructor
  · rintro ⟨ys, hys⟩
    induction xs generalizing ys with
    | nil => exact fun x hx => absurd hx not_mem_nil
    | cons x xs ih =>
      rw [mapM_cons, bind_eq_ok] at hys
      obtain ⟨y, hy, hrest⟩ := hys
      obtain ⟨others, hothers, -⟩ := bind_eq_ok.mp hrest
      exact forall_mem_cons.mpr ⟨⟨y, hy⟩, ih others hothers⟩
  · intro hsteps
    obtain ⟨ys, hys, -⟩ := mapM_of_exists fun x hx =>
      (hsteps x hx).imp fun y hy => (⟨hy, trivial⟩ : step x = .ok y ∧ (fun _ _ => True) x y)
    exact ⟨ys, hys⟩

theorem exists_of_mapM_eq_error :
    ∀ {xs : List A}, xs.mapM step = .error e → ∃ x ∈ xs, step x = .error e
  | [], hfailed => by cases hfailed
  | x :: xs, hfailed => by
    rw [mapM_cons, bind_eq_error] at hfailed
    rcases hfailed with hfirst | ⟨y, -, hrest⟩
    · exact ⟨x, mem_cons_self, hfirst⟩
    · rcases bind_eq_error.mp hrest with hrest | ⟨ys, -, hpure⟩
      · obtain ⟨other, hmem, hother⟩ := exists_of_mapM_eq_error hrest
        exact ⟨other, mem_cons_of_mem x hmem, hother⟩
      · cases hpure

theorem mapM_of_forall₂ {back : B → Except E C} {result : A → C} {ys : List B}
    (hback : List.Forall₂ (fun x y => back y = .ok (result x)) xs ys) :
    ys.mapM back = .ok (xs.map result) := by
  induction hback with
  | nil => rfl
  | cons hfirst _ ih =>
    rw [mapM_cons, hfirst, ih]
    rfl

end AllJoyn.Lib.Result
