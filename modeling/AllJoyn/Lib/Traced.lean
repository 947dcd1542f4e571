import AllJoyn.Lib.Result

/-!
Computations that may fail and log events on their way. A failed computation
keeps the events up to its failure. `Meets` is the rule for what every event
and every result of a computation satisfy.
-/

namespace AllJoyn.Lib

/-- A computation with its log. -/
structure Traced (Event E A : Type) where
  events : List Event
  result : Except E A

namespace Traced

variable {Event E A B : Type}

/-- A result together with the events that led to it. -/
def log (events : List Event) (result : Except E A) : Traced Event E A := ⟨events, result⟩

def fail (e : E) : Traced Event E A := ⟨[], .error e⟩

/-- The events of the rest of a computation, if there is a rest. -/
def andThen (x : Traced Event E A) (next : A → Traced Event E B) : Traced Event E B :=
  match x.result with
  | .error e => ⟨x.events, .error e⟩
  | .ok a => ⟨x.events ++ (next a).events, (next a).result⟩

end Traced

instance {Event E : Type} : Monad (Traced Event E) where
  pure a := ⟨[], .ok a⟩
  bind := Traced.andThen

namespace Traced

variable {Event E A B : Type}

@[simp]
theorem result_pure (a : A) : (pure a : Traced Event E A).result = .ok a := rfl

@[simp]
theorem events_pure (a : A) : (pure a : Traced Event E A).events = [] := rfl

@[simp]
theorem result_log (events : List Event) (result : Except E A) :
    (log events result).result = result := rfl

@[simp]
theorem events_log (events : List Event) (result : Except E A) :
    (log events result).events = events := rfl

@[simp]
theorem result_fail (e : E) : (fail e : Traced Event E A).result = .error e := rfl

@[simp]
theorem events_fail (e : E) : (fail e : Traced Event E A).events = [] := rfl

@[simp]
theorem result_bind (x : Traced Event E A) (next : A → Traced Event E B) :
    (x >>= next).result = x.result >>= fun a => (next a).result := by
  change (andThen x next).result = _
  unfold andThen
  cases x.result <;> rfl

variable {x : Traced Event E A} {next : A → Traced Event E B}

theorem events_bind_error {e : E} (hresult : x.result = .error e) :
    (x >>= next).events = x.events := by
  change (andThen x next).events = _
  rw [andThen, hresult]

theorem events_bind_ok {a : A} (hresult : x.result = .ok a) :
    (x >>= next).events = x.events ++ (next a).events := by
  change (andThen x next).events = _
  rw [andThen, hresult]

theorem bind_eq_ok {b : B} (hok : (x >>= next).result = .ok b) :
    ∃ a, x.result = .ok a ∧ (next a).result = .ok b ∧
      (x >>= next).events = x.events ++ (next a).events := by
  cases hresult : x.result with
  | error e =>
    rw [result_bind, hresult] at hok
    cases hok
  | ok a =>
    rw [result_bind, hresult] at hok
    exact ⟨a, rfl, hok, events_bind_ok hresult⟩

/-- A computation of which every event satisfies `p` and every result `post`. -/
structure Meets (x : Traced Event E A) (p : Event → Prop) (post : A → Prop) : Prop where
  event : ∀ event ∈ x.events, p event
  result : ∀ a, x.result = .ok a → post a

variable {p : Event → Prop} {post : A → Prop} {last : B → Prop}

theorem Meets.pure {a : A} (hpost : post a) : Meets (Pure.pure a : Traced Event E A) p post :=
  ⟨by simp, by rintro _ ⟨⟩; exact hpost⟩

theorem Meets.fail {e : E} : Meets (Traced.fail e : Traced Event E A) p post :=
  ⟨by simp, by rintro _ ⟨⟩⟩

theorem Meets.bind {x : Traced Event E A} {next : A → Traced Event E B} (hx : Meets x p post)
    (hnext : ∀ a, post a → Meets (next a) p last) : Meets (x >>= next) p last := by
  cases hresult : x.result with
  | error e =>
    refine ⟨by rw [events_bind_error hresult]; exact hx.event, fun b hb => ?_⟩
    rw [result_bind, hresult] at hb
    cases hb
  | ok a =>
    have ha := hnext a (hx.result a hresult)
    refine ⟨fun event hevent => ?_, fun b hb => ?_⟩
    · rw [events_bind_ok hresult, List.mem_append] at hevent
      exact hevent.elim (hx.event event) (ha.event event)
    · rw [result_bind, hresult] at hb
      exact ha.result b hb

end Traced

end AllJoyn.Lib
