import AllJoyn.Wire.Trace

/-!
The parser stays inside of the message buffer, which is padded by 8 bytes
behind the next multiple of 8: a value may start up to that multiple, but it is
accepted only if it ends in front of the end of the body.
-/

namespace AllJoyn.Wire

open Lib Lib.Bytes

variable {pos alignment finish : Nat} {type : ScalarType} {sig : Signature} {arg : MsgArg}

/-- A read of the event ends below `size`. -/
def ParseEvent.Inside (size : Nat) : ParseEvent → Prop
  | .read pos count => pos + count ≤ size
  | _ => True

theorem align_lt (hpositive : 0 < alignment) : align pos alignment < pos + alignment := by
  exact Nat.add_lt_add_left (Nat.mod_lt _ hpositive) pos

theorem le_align (pos alignment : Nat) : pos ≤ align pos alignment := Nat.le_add_right _ _

theorem align_le {bound : Nat} (hpos : pos ≤ bound) (hdvd : alignment ∣ bound)
    (hpositive : 0 < alignment) : align pos alignment ≤ bound := by
  have hlt : align pos alignment < pos + alignment := align_lt hpositive
  by_contra hbehind
  have hdiff : alignment ∣ align pos alignment - bound :=
    Nat.dvd_sub (dvd_align pos alignment hpositive) hdvd
  have hle := Nat.le_of_dvd (by omega) hdiff
  omega

theorem ScalarType.size_le (type : ScalarType) : type.size ≤ 8 :=
  Nat.le_of_dvd (by decide) type.size_dvd

section

variable {buffer : Buffer}

/-- The last position at which a value may start. -/
def Buffer.last (buffer : Buffer) : Nat := align buffer.eod 8

theorem Buffer.eod_le_last (buffer : Buffer) : buffer.eod ≤ buffer.last := le_align _ _

theorem Buffer.align_le_last (hpos : pos ≤ buffer.last) (hdvd : alignment ∣ 8) :
    align pos alignment ≤ buffer.last :=
  align_le hpos (hdvd.trans (dvd_align buffer.eod 8 (by decide)))
    (Nat.pos_of_dvd_of_pos hdvd (by decide))

/-- The size of the buffer that `InterpretHeader` allocates. -/
def Buffer.size (buffer : Buffer) : Nat := buffer.last + 8

variable {A : Type}

theorem log_meets {events : List ParseEvent} {result : Except QStatus A} {post : A → Prop}
    (hevents : ∀ event ∈ events, event.Inside buffer.size) (hresult : ∀ a, result = .ok a → post a) :
    (Traced.log events result : ParseTrace A).Meets (·.Inside buffer.size) post :=
  ⟨hevents, hresult⟩

theorem loadByte_meets (hpos : pos ≤ buffer.last) :
    (buffer.loadByte pos).Meets (·.Inside buffer.size) (fun byte => byte = buffer.mem pos) := by
  refine log_meets ?_ (by rintro _ ⟨⟩; rfl)
  simp only [List.mem_singleton, forall_eq]
  exact Nat.add_le_add hpos (by decide)

/-! ### Where values end -/

theorem parseScalar_finish (hok : parseScalar buffer type pos = .ok (arg, finish)) :
    finish = align pos type.size + type.size := by
  rw [parseScalar, Result.bind_eq_ok] at hok
  obtain ⟨value, -, hvalue⟩ := hok
  cases hvalue
  rfl

theorem parseString_finish {text : List UInt8}
    (hok : parseString buffer pos = .ok (text, finish)) :
    finish = align pos 4 + 4 + buffer.word (align pos 4) 4 + 1 := by
  rw [parseString] at hok
  split at hok
  · cases hok
  split at hok
  · cases hok
  split at hok
  · cases hok
  cases hok
  rfl

theorem parseSignature_finish {text : List UInt8}
    (hok : parseSignature buffer pos = .ok (text, finish)) :
    finish = pos + 1 + (buffer.mem pos).toNat + 1 := by
  rw [parseSignature] at hok
  split at hok
  · cases hok
  split at hok
  · cases hok
  cases hok
  rfl

theorem parseHandle_finish (hok : parseHandle buffer pos = .ok (arg, finish)) :
    finish = align pos 4 + 4 := by
  unfold parseHandle at hok
  split at hok
  · cases hok
  · cases hok
    rfl

theorem parseScalarArray_finish {len : Nat}
    (hok : parseScalarArray buffer type len pos = .ok (arg, finish)) :
    finish = (if type.size = 8 then align pos 8 else pos) + len := by
  unfold parseScalarArray at hok
  split at hok
  · cases hok
  rw [Result.bind_eq_ok] at hok
  obtain ⟨values, -, hvalues⟩ := hok
  cases hvalues
  rfl

/-- From a start up to the last position the parser reads inside of the buffer. It goes
on from the start, and the values that it logs end in front of the place where it stops. -/
structure Runs {A : Type} (buffer : Buffer) (x : ParseTrace A) (start : Nat) (place : A → Nat) :
    Prop where
  inside : start ≤ buffer.last → ∀ event ∈ x.events, event.Inside buffer.size
  advances : ∀ a, x.result = .ok a →
    start ≤ place a ∧ ∀ finish, .value finish ∈ x.events → finish ≤ place a

section Rules

variable {A B : Type} {x : ParseTrace A} {start : Nat} {place : A → Nat}

theorem Runs.fail {e : QStatus} : Runs buffer (.fail e : ParseTrace A) start place :=
  ⟨fun _ => by simp, by rintro a ⟨⟩⟩

theorem Runs.pure {a : A} (hstart : start ≤ place a) :
    Runs buffer (Pure.pure a) start place :=
  ⟨fun _ => by simp, by rintro _ ⟨⟩; exact ⟨hstart, by simp⟩⟩

theorem Runs.read {at' count : Nat} {result : Except QStatus A}
    (hinside : start ≤ buffer.last → at' + count ≤ buffer.size)
    (hresult : ∀ a, result = .ok a → start ≤ place a) :
    Runs buffer (.log [.read at' count] result) start place := by
  refine ⟨fun hstart => ?_, fun a ha => ⟨hresult a ha, by simp⟩⟩
  simpa [ParseEvent.Inside] using hinside hstart

variable {place' : B → Nat} {next : A → ParseTrace B}

theorem Runs.bind (hx : Runs buffer x start place)
    (hplace : start ≤ buffer.last → ∀ a, x.result = .ok a → place a ≤ buffer.last ∨
      ∀ event ∈ (next a).events, event.Inside buffer.size)
    (hnext : ∀ a, Runs buffer (next a) (place a) place') :
    Runs buffer (x >>= next) start place' := by
  constructor
  · intro hstart event hevent
    cases hresult : x.result with
    | error e =>
      rw [Traced.events_bind_error hresult] at hevent
      exact hx.inside hstart event hevent
    | ok a =>
      rw [Traced.events_bind_ok hresult, List.mem_append] at hevent
      rcases hevent with hevent | hevent
      · exact hx.inside hstart event hevent
      · exact (hplace hstart a hresult).elim (fun hlast => (hnext a).inside hlast event hevent)
          (fun hinside => hinside event hevent)
  · intro b hb
    obtain ⟨a, ha, hrest, hevents⟩ := Traced.bind_eq_ok hb
    obtain ⟨hfirst, hbefore⟩ := hx.advances a ha
    obtain ⟨hsecond, hafter⟩ := (hnext a).advances b hrest
    refine ⟨hfirst.trans hsecond, fun finish hfinish => ?_⟩
    rw [hevents, List.mem_append] at hfinish
    rcases hfinish with hfinish | hfinish
    · exact (hbefore finish hfinish).trans hsecond
    · exact hafter finish hfinish

theorem Runs.after {place : B → Nat} (hx : Runs buffer x start fun _ => start)
    (hnext : ∀ a, Runs buffer (next a) start place) : Runs buffer (x >>= next) start place :=
  hx.bind (fun hstart _ _ => .inl hstart) hnext

variable {f : A → B}

theorem Runs.map (hx : Runs buffer x start place) (hplace : ∀ a, place' (f a) = place a) :
    Runs buffer (x >>= fun a => Pure.pure (f a)) start place' :=
  hx.bind (fun _ _ _ => .inr (by simp)) fun a => .pure (hplace a).ge

theorem Runs.array {declared : Nat} {finish : A → Nat} (hx : Runs buffer x start place)
    (hplace : ∀ a, place' (f a) = place a) :
    Runs buffer (x >>= fun a => .log [.array declared (finish a)] (.ok (f a))) start place' := by
  refine hx.bind (fun _ _ _ => .inr (by simp [ParseEvent.Inside])) fun a => ?_
  refine ⟨fun _ => by simp [ParseEvent.Inside], ?_⟩
  rintro _ ⟨⟩
  exact ⟨(hplace a).ge, by simp⟩

theorem Runs.from {start' : Nat} (hx : Runs buffer x start place) (hstart : start' ≤ start)
    (hlast : start' ≤ buffer.last → start ≤ buffer.last) : Runs buffer x start' place :=
  ⟨fun hstart' => hx.inside (hlast hstart'),
    fun a ha => ⟨hstart.trans (hx.advances a ha).1, (hx.advances a ha).2⟩⟩

end Rules

theorem loadByte_runs (pos : Nat) : Runs buffer (buffer.loadByte pos) pos fun _ => pos :=
  .read (fun hpos => Nat.add_le_add hpos (by decide)) fun _ _ => le_rfl

theorem loadWord_runs (pos : Nat) :
    Runs buffer (buffer.loadWord (align pos 4) 4) pos fun _ => pos :=
  .read (fun hpos => Nat.add_le_add (Buffer.align_le_last hpos (by decide)) (by decide))
    fun _ _ => le_rfl

variable {start : Nat}

/-- A text that ends in front of the end of the body, or is refused. -/
theorem text_runs {at' count : Nat} {place : A → Nat} {short : Prop} [Decidable short]
    {result : Except QStatus A} (hend : ¬short → at' + count ≤ buffer.eod)
    (hresult : ∀ a, result = .ok a → start ≤ place a) :
    Runs buffer (if short then .log [] result else .log [.read at' count] result) start place := by
  have hlast := buffer.eod_le_last
  split
  · exact ⟨fun _ => by simp, fun a ha => ⟨hresult a ha, by simp⟩⟩
  · next hshort => exact .read (fun _ => by unfold Buffer.size; have := hend hshort; omega) hresult

theorem traceScalar_runs (type : ScalarType) (pos : Nat) :
    Runs buffer (traceScalar buffer type pos) pos Prod.snd := by
  refine .read (fun hpos => Nat.add_le_add (Buffer.align_le_last hpos type.size_dvd)
    type.size_le) fun value hok => ?_
  have hstart := le_align pos type.size
  rw [parseScalar_finish hok]
  omega

theorem traceHandle_runs (pos : Nat) : Runs buffer (traceHandle buffer pos) pos Prod.snd := by
  refine .read (fun hpos => Nat.add_le_add (Buffer.align_le_last hpos (by decide)) (by decide))
    fun value hok => ?_
  have hstart := le_align pos 4
  rw [parseHandle_finish hok]
  omega

theorem traceString_runs (pos : Nat) : Runs buffer (traceString buffer pos) pos Prod.snd := by
  refine (loadWord_runs pos).after fun len => text_runs (by omega) fun value hok => ?_
  have hstart := le_align pos 4
  rw [parseString_finish hok]
  omega

theorem traceSignature_runs (pos : Nat) :
    Runs buffer (traceSignature buffer pos) pos Prod.snd := by
  refine (loadByte_runs pos).after fun len => text_runs (by omega) fun value hok => ?_
  rw [parseSignature_finish hok]
  omega

theorem traceScalarArray_runs (type : ScalarType) {len pos : Nat} (hend : len + pos ≤ buffer.eod) :
    Runs buffer (traceScalarArray buffer type len pos) pos Prod.snd := by
  have hlast := buffer.eod_le_last
  have hlt : align pos 8 < pos + 8 := align_lt (by decide)
  have hle := le_align pos 8
  unfold traceScalarArray
  dsimp only
  split
  · exact .fail
  refine Runs.array (.read (fun _ => ?_) fun value hok => ?_) fun _ => rfl
  · unfold Buffer.size
    split <;> omega
  · rw [parseScalarArray_finish hok]
    split <;> omega

theorem Runs.basic {result : ParseTrace (MsgArg × Nat)}
    (hresult : Runs buffer result start Prod.snd) :
    Runs buffer (traceBasic sig result) start fun value => value.2.2 :=
  hresult.map fun _ => rfl

theorem Runs.text {make : List UInt8 → MsgArg} {result : ParseTrace (List UInt8 × Nat)}
    (hresult : Runs buffer result start Prod.snd) :
    Runs buffer (traceText make result) start Prod.snd :=
  hresult.map fun _ => rfl

theorem traceEnd_runs {result : ParseTrace (MsgArg × Signature × Nat)}
    (hresult : Runs buffer result start fun value => value.2.2) :
    Runs buffer (traceEnd buffer result) start fun value => value.2.2 := by
  refine hresult.bind (fun _ a _ => .inr ?_) fun value => ?_
  · dsimp only
    split <;> simp [ParseEvent.Inside]
  · dsimp only
    split
    · exact .fail
    · refine ⟨fun _ => by simp [ParseEvent.Inside], ?_⟩
      rintro _ ⟨⟩
      exact ⟨le_rfl, by simp⟩

variable {arrayElem : Bool} {fuel : Nat}

theorem traceValue_le {value : MsgArg × Signature × Nat}
    (hok : (traceValue buffer fuel sig arrayElem pos).result = .ok value) :
    value.2.2 ≤ buffer.eod := by
  cases fuel with
  | zero => rw [traceValue] at hok; cases hok
  | succ fuel =>
    cases sig with
    | nil => rw [traceValue] at hok; cases hok
    | cons char sig =>
      rw [traceValue] at hok
      obtain ⟨inner, -, hnext, -⟩ := Traced.bind_eq_ok hok
      dsimp only at hnext
      split at hnext
      · cases hnext
      · next hend =>
          cases hnext
          exact Nat.not_lt.mp hend

theorem traceValue_last {next : MsgArg × Signature × Nat → ParseTrace A} (_ : start ≤ buffer.last)
    (value : MsgArg × Signature × Nat)
    (hok : (traceValue buffer fuel sig arrayElem pos).result = .ok value) :
    value.2.2 ≤ buffer.last ∨ ∀ event ∈ (next value).events, event.Inside buffer.size :=
  .inl ((traceValue_le hok).trans buffer.eod_le_last)

theorem scan_runs (container : Container) (sig : Signature) (start : Nat) :
    Runs buffer (.log [] (parseContainerSignature container sig)) start fun _ => start :=
  ⟨fun _ => by simp, fun _ _ => ⟨le_rfl, by simp⟩⟩

mutual
theorem traceValue_runs : ∀ (fuel : Nat) (sig : Signature) (arrayElem : Bool) (pos : Nat),
    Runs buffer (traceValue buffer fuel sig arrayElem pos) pos fun value => value.2.2
  | 0, _, _, _ => by rw [traceValue]; exact .fail
  | _ + 1, [], _, _ => by rw [traceValue]; exact .fail
  | fuel + 1, char :: sig, arrayElem, pos => by
    rw [traceValue]
    apply traceEnd_runs
    generalize TypeId.ofChar char = id
    cases id with
    | scalar type => exact (traceScalar_runs type pos).basic
    | string | objectPath => exact (traceString_runs pos).text.basic
    | signature => exact (traceSignature_runs pos).text.basic
    | handle => exact (traceHandle_runs pos).basic
    | variant => exact (traceVariant_runs fuel pos).basic
    | array => exact traceArray_runs fuel sig pos
    | structOpen => exact traceStruct_runs fuel sig pos
    | dictEntryOpen =>
      cases arrayElem with
      | false => exact .fail
      | true => exact traceDictEntry_runs fuel sig pos
    | _ => exact .fail

theorem traceVariant_runs : ∀ (fuel pos : Nat),
    Runs buffer (traceVariant buffer fuel pos) pos Prod.snd
  | 0, _ => by rw [traceVariant]; exact .fail
  | fuel + 1, pos => by
    rw [traceVariant]
    have hlast := buffer.eod_le_last
    refine (loadByte_runs pos).after fun len => ?_
    split
    · exact .fail
    next hshort =>
    refine Runs.after (.read (fun _ => by unfold Buffer.size; omega) fun _ _ => le_rfl)
      fun nul => ?_
    split
    · exact .fail
    refine ((traceValue_runs fuel _ false _).from (by omega) (fun _ => by omega)).bind
      (fun _ value _ => .inr ?_) fun value => ?_
    all_goals dsimp only
    · split <;> simp
    · split
      · exact .fail
      · exact .pure le_rfl

theorem traceArray_runs : ∀ (fuel : Nat) (sig : Signature) (pos : Nat),
    Runs buffer (traceArray buffer fuel sig pos) pos fun value => value.2.2
  | 0, _, _ => by rw [traceArray]; exact .fail
  | fuel + 1, sig, pos => by
    rw [traceArray]
    refine (scan_runs .array sig pos).after fun scanned => ?_
    dsimp only
    refine (loadWord_runs pos).after fun len => ?_
    split
    · exact .fail
    next hshort =>
    have hend : len + (align pos 4 + 4) ≤ buffer.eod := by omega
    have hlast := buffer.eod_le_last
    have hword : pos ≤ align pos 4 + 4 := (le_align pos 4).trans (Nat.le_add_right _ _)
    have hstart : ∀ elemId : TypeId, pos ≤ (if elemId = .structOpen ∨ elemId = .dictEntryOpen then
          align (align pos 4 + 4) 8 else align pos 4 + 4) ∧
        (if elemId = .structOpen ∨ elemId = .dictEntryOpen then align (align pos 4 + 4) 8
          else align pos 4 + 4) ≤ buffer.last := by
      intro elemId
      split
      · exact ⟨hword.trans (le_align _ 8), Buffer.align_le_last (by omega) (dvd_refl 8)⟩
      · exact ⟨hword, by omega⟩
    generalize TypeId.ofChar (sig.headD 0) = id
    cases id with
    | scalar type =>
      exact ((traceScalarArray_runs type hend).from hword fun _ => by omega).basic
    | _ =>
      exact ((traceElements_runs fuel _ _ _).from (hstart _).1 fun _ => (hstart _).2).array
        fun _ => rfl

theorem traceElements_runs : ∀ (fuel : Nat) (elemSig : Signature) (endOfArray pos : Nat),
    Runs buffer (traceElements buffer fuel elemSig endOfArray pos) pos Prod.snd
  | 0, _, _, _ => by rw [traceElements]; exact .fail
  | fuel + 1, elemSig, endOfArray, pos => by
    rw [traceElements]
    split
    · exact (traceValue_runs fuel elemSig true pos).bind traceValue_last fun _ =>
        (traceElements_runs fuel elemSig endOfArray _).map fun _ => rfl
    · exact .pure le_rfl

theorem traceStruct_runs : ∀ (fuel : Nat) (sig : Signature) (pos : Nat),
    Runs buffer (traceStruct buffer fuel sig pos) pos fun value => value.2.2
  | 0, _, _ => by rw [traceStruct]; exact .fail
  | fuel + 1, sig, pos => by
    rw [traceStruct]
    refine (scan_runs .struct sig pos).after fun scanned => ?_
    exact ((traceValues_runs fuel _ sig _).from (le_align pos 8)
      fun hpos => Buffer.align_le_last hpos (dvd_refl 8)).map fun _ => rfl

theorem traceDictEntry_runs : ∀ (fuel : Nat) (sig : Signature) (pos : Nat),
    Runs buffer (traceDictEntry buffer fuel sig pos) pos fun value => value.2.2
  | 0, _, _ => by rw [traceDictEntry]; exact .fail
  | fuel + 1, sig, pos => by
    rw [traceDictEntry]
    refine (scan_runs .dictEntry sig pos).after fun scanned => ?_
    exact ((traceValue_runs fuel sig false _).from (le_align pos 8)
      fun hpos => Buffer.align_le_last hpos (dvd_refl 8)).bind traceValue_last fun _ =>
        (traceValue_runs fuel _ false _).map fun _ => rfl

theorem traceValues_runs : ∀ (fuel count : Nat) (sig : Signature) (pos : Nat),
    Runs buffer (traceValues buffer fuel count sig pos) pos fun value => value.2.2
  | 0, _, _, _ => by rw [traceValues]; exact .fail
  | _ + 1, 0, _, _ => by rw [traceValues]; exact .pure le_rfl
  | fuel + 1, count + 1, sig, pos => by
    rw [traceValues]
    exact (traceValue_runs fuel sig false pos).bind traceValue_last fun _ =>
      (traceValues_runs fuel count _ _).map fun _ => rfl
end

theorem traceArgs_runs (fuel : Nat) (sig : Signature) (pos bodyEnd : Nat) :
    Runs buffer (traceArgs buffer fuel sig pos bodyEnd) pos fun _ => bodyEnd := by
  refine (traceValues_runs fuel _ sig pos).bind (fun _ value _ => .inr ?_) fun value => ?_
  all_goals dsimp only
  · split <;> simp
  · split
    · exact .fail
    · next hend => exact .pure (not_not.mp hend).le

theorem traceValue_meets (hpos : pos ≤ buffer.last) :
    (traceValue buffer fuel sig arrayElem pos).Meets (·.Inside buffer.size)
      (fun value => value.2.2 ≤ buffer.eod) :=
  ⟨(traceValue_runs fuel sig arrayElem pos).inside hpos, fun _ => traceValue_le⟩

end

end AllJoyn.Wire
