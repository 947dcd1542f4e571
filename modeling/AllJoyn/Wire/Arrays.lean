import AllJoyn.Wire.Bounds

/-!
Where the values of a body lie by the rules of the wire format, with arrays
that end where their length word says. The parser follows the length words only
loosely: the last element of an array may reach past the declared end. It does
not exactly in the bodies that are laid out by the rules.
-/

namespace AllJoyn.Wire

open Lib Lib.Bytes

variable {A B A' : Type} {layout : Option B} {place : A → B} {x : ParseTrace A}

section Layout

variable (buffer : Buffer)

mutual
/-- The signature and the position behind a value. -/
def layoutValue : Nat → Signature → Bool → Nat → Option (Signature × Nat)
  | 0, _, _, _ => none
  | _ + 1, [], _, _ => none
  | fuel + 1, char :: sig, arrayElem, pos =>
    match TypeId.ofChar char with
    | .scalar type => some (sig, align pos type.size + type.size)
    | .string | .objectPath =>
      some (sig, align pos 4 + 4 + buffer.word (align pos 4) 4 + 1)
    | .signature => some (sig, pos + 1 + (buffer.mem pos).toNat + 1)
    | .handle => some (sig, align pos 4 + 4)
    | .variant => (layoutVariant fuel pos).map fun finish => (sig, finish)
    | .array => layoutArray fuel sig pos
    | .structOpen => layoutStruct fuel sig pos
    | .dictEntryOpen => if arrayElem then layoutDictEntry fuel sig pos else none
    | _ => none

def layoutVariant : Nat → Nat → Option Nat
  | 0, _ => none
  | fuel + 1, pos =>
    let len := (buffer.mem pos).toNat
    (layoutValue fuel (cString (read buffer.mem (pos + 1) len)) false (pos + 1 + len + 1)).map
      Prod.snd

/-- The elements of an array fill exactly the bytes that it declares. -/
def layoutArray : Nat → Signature → Nat → Option (Signature × Nat)
  | 0, _, _ => none
  | fuel + 1, sig, pos =>
    match parseContainerSignature .array sig with
    | .error _ => none
    | .ok (rest, _) =>
      let len := buffer.word (align pos 4) 4
      let pos := align pos 4 + 4
      match TypeId.ofChar (sig.headD 0) with
      | .scalar type => some (rest, (if type.size = 8 then align pos 8 else pos) + len)
      | elemId => do
        let start :=
          if elemId = .structOpen ∨ elemId = .dictEntryOpen then align pos 8 else pos
        layoutElements fuel (sig.take (sig.length - rest.length)) (start + len) start
        return (rest, start + len)

def layoutElements : Nat → Signature → Nat → Nat → Option Unit
  | 0, _, _, _ => none
  | fuel + 1, elemSig, endOfArray, pos =>
    if pos < endOfArray then do
      let (_, pos) ← layoutValue fuel elemSig true pos
      layoutElements fuel elemSig endOfArray pos
    else if pos = endOfArray then some ()
    else none

def layoutStruct : Nat → Signature → Nat → Option (Signature × Nat)
  | 0, _, _ => none
  | fuel + 1, sig, pos =>
    match parseContainerSignature .struct sig with
    | .error _ => none
    | .ok (rest, numMembers) => do
      let (_, finish) ← layoutValues fuel numMembers sig (align pos 8)
      return (rest, finish)

def layoutDictEntry : Nat → Signature → Nat → Option (Signature × Nat)
  | 0, _, _ => none
  | fuel + 1, sig, pos =>
    match parseContainerSignature .dictEntry sig with
    | .error _ => none
    | .ok (rest, _) => do
      let (sig, pos) ← layoutValue fuel sig false (align pos 8)
      let (_, finish) ← layoutValue fuel sig false pos
      return (rest, finish)

def layoutValues : Nat → Nat → Signature → Nat → Option (Signature × Nat)
  | 0, _, _, _ => none
  | _ + 1, 0, sig, pos => some (sig, pos)
  | fuel + 1, count + 1, sig, pos => do
    let (sig, pos) ← layoutValue fuel sig false pos
    layoutValues fuel count sig pos
end

end Layout

/-! ### Arrays that end where they should -/

/-- An array ends where it declares. -/
def ParseEvent.isExact : ParseEvent → Bool
  | .array declared finish => finish = declared
  | _ => true

def allExact (events : List ParseEvent) : Bool := events.all ParseEvent.isExact

theorem allExact_append (first second : List ParseEvent) :
    allExact (first ++ second) = (allExact first && allExact second) := by
  simp [allExact]

/-- A computed place, if the events say that all arrays are exact. -/
def placed {A : Type} (events : List ParseEvent) (place : A) : Option A :=
  if allExact events then some place else none

theorem placed_congr {events events' : List ParseEvent} (place : A)
    (hexact : allExact events = allExact events') : placed events place = placed events' place := by
  rw [placed, placed, hexact]

theorem placed_bind (first second : List ParseEvent) (place : A) {place' : B}
    {next : A → Option B} (hnext : next place = placed second place') :
    (placed first place).bind next = placed (first ++ second) place' := by
  unfold placed at hnext ⊢
  rw [allExact_append]
  cases allExact first with
  | false => rfl
  | true => simpa using hnext

/-- When the parser succeeds, `layout` says where its result lies, unless an
array overran its end. -/
def Follows {A B : Type} (x : ParseTrace A) (layout : Option B) (place : A → B) : Prop :=
  ∀ a, x.result = .ok a → layout = placed x.events (place a)

theorem Follows.fail {e : QStatus} : Follows (.fail e : ParseTrace A) layout place := by
  rintro a ⟨⟩

theorem Follows.log {events : List ParseEvent} {result : Except QStatus A}
    (hexact : allExact events = true) (hlayout : ∀ a, result = .ok a → layout = some (place a)) :
    Follows (.log events result) layout place :=
  fun a ha => (hlayout a ha).trans (if_pos hexact).symm

theorem Follows.pure {a : A} (hlayout : layout = some (place a)) :
    Follows (Pure.pure a) layout place := by
  rintro _ ⟨⟩
  exact hlayout

variable {next : A → ParseTrace A'}

theorem Follows.bind {B' : Type} {layoutNext : B → Option B'} {place' : A' → B'}
    (hx : Follows x layout place)
    (hnext : ∀ a, x.result = .ok a → Follows (next a) (layoutNext (place a)) place') :
    Follows (x >>= next) (layout.bind layoutNext) place' := by
  intro b hb
  obtain ⟨a, ha, hrest, hevents⟩ := Traced.bind_eq_ok hb
  rw [hx a ha, hevents]
  exact placed_bind _ _ _ (hnext a ha b hrest)

theorem Follows.map {f : A → A'} {place' : A' → B} (hx : Follows x layout place)
    (hplace : ∀ a, place' (f a) = place a) :
    Follows (x >>= fun a => Pure.pure (f a)) layout place' := by
  intro b hb
  obtain ⟨a, ha, hpure, hevents⟩ := Traced.bind_eq_ok hb
  cases hpure
  rw [hx a ha, hevents, hplace, Traced.events_pure, List.append_nil]

theorem placed_array (events : List ParseEvent) (rest : Signature) (declared finish : Nat) :
    ((placed (events ++ [.array declared finish]) ()).bind fun _ => some (rest, declared)) =
      placed (events ++ [.array declared finish]) (rest, finish) := by
  unfold placed
  split
  · next hexact =>
      rw [allExact_append, Bool.and_eq_true] at hexact
      obtain ⟨-, hlast⟩ := hexact
      have hfinish : finish = declared := by simpa [allExact, ParseEvent.isExact] using hlast
      rw [hfinish]
      rfl
  · rfl

/-- A step that parses no array leaves the layout to what follows. -/
theorem Follows.after {place : A' → B} (hexact : allExact x.events = true)
    (hnext : ∀ a, x.result = .ok a → Follows (next a) layout place) :
    Follows (x >>= next) layout place := by
  intro b hb
  obtain ⟨a, ha, hrest, hevents⟩ := Traced.bind_eq_ok hb
  rw [hnext a ha b hrest, hevents]
  apply placed_congr
  rw [allExact_append, hexact, Bool.true_and]

section

variable {buffer : Buffer} {layout : Option Nat}

theorem Follows.basic {sig : Signature} {x : ParseTrace (MsgArg × Nat)}
    (hx : Follows x layout Prod.snd) :
    Follows (traceBasic sig x) (layout.map fun finish => (sig, finish)) Prod.snd := by
  rw [Option.map_eq_bind]
  exact hx.bind fun _ _ => .pure rfl

theorem Follows.text {make : List UInt8 → MsgArg} {x : ParseTrace (List UInt8 × Nat)}
    (hx : Follows x layout Prod.snd) : Follows (traceText make x) layout Prod.snd :=
  hx.map fun _ => rfl

theorem Follows.end {x : ParseTrace (MsgArg × Signature × Nat)} {layout : Option (Signature × Nat)}
    (hx : Follows x layout Prod.snd) : Follows (traceEnd buffer x) layout Prod.snd := by
  rw [← Option.bind_fun_some layout]
  refine hx.bind fun value _ => ?_
  dsimp only
  split
  · exact .fail
  · refine .log rfl ?_
    rintro _ ⟨⟩
    rfl

theorem traceScalar_follows (type : ScalarType) (pos : Nat) :
    Follows (traceScalar buffer type pos) (some (align pos type.size + type.size)) Prod.snd :=
  .log rfl fun _ hok => congrArg some (parseScalar_finish hok).symm

theorem traceString_follows (pos : Nat) :
    Follows (traceString buffer pos) (some (align pos 4 + 4 + buffer.word (align pos 4) 4 + 1))
      Prod.snd := by
  refine .after rfl fun len _ => ?_
  split
  all_goals exact .log rfl fun _ hok => congrArg some (parseString_finish hok).symm

theorem traceSignature_follows (pos : Nat) :
    Follows (traceSignature buffer pos) (some (pos + 1 + (buffer.mem pos).toNat + 1)) Prod.snd := by
  refine .after rfl fun len _ => ?_
  split
  all_goals exact .log rfl fun _ hok => congrArg some (parseSignature_finish hok).symm

theorem traceHandle_follows (pos : Nat) :
    Follows (traceHandle buffer pos) (some (align pos 4 + 4)) Prod.snd :=
  .log rfl fun _ hok => congrArg some (parseHandle_finish hok).symm

theorem traceScalarArray_follows (type : ScalarType) (len pos : Nat) :
    Follows (traceScalarArray buffer type len pos)
      (some ((if type.size = 8 then align pos 8 else pos) + len)) Prod.snd := by
  unfold traceScalarArray
  dsimp only
  split
  · exact .fail
  refine .after rfl fun value hok => .log ?_ ?_
  · simp [allExact, ParseEvent.isExact, parseScalarArray_finish hok]
  · rintro _ ⟨⟩
    exact congrArg some (parseScalarArray_finish hok).symm

mutual
theorem traceValue_follows : ∀ (fuel : Nat) (sig : Signature) (arrayElem : Bool) (pos : Nat),
    Follows (traceValue buffer fuel sig arrayElem pos) (layoutValue buffer fuel sig arrayElem pos)
      Prod.snd
  | 0, _, _, _ => by rw [traceValue]; exact .fail
  | _ + 1, [], _, _ => by rw [traceValue]; exact .fail
  | fuel + 1, char :: sig, arrayElem, pos => by
    rw [traceValue, layoutValue]
    apply Follows.end
    generalize TypeId.ofChar char = id
    cases id with
    | scalar type => exact (traceScalar_follows type pos).basic
    | string | objectPath => exact (traceString_follows pos).text.basic
    | signature => exact (traceSignature_follows pos).text.basic
    | handle => exact (traceHandle_follows pos).basic
    | variant => exact (traceVariant_follows fuel pos).basic
    | array => exact traceArray_follows fuel sig pos
    | structOpen => exact traceStruct_follows fuel sig pos
    | dictEntryOpen =>
      cases arrayElem with
      | false => exact .fail
      | true => exact traceDictEntry_follows fuel sig pos
    | _ => exact .fail

theorem traceVariant_follows : ∀ (fuel pos : Nat),
    Follows (traceVariant buffer fuel pos) (layoutVariant buffer fuel pos) Prod.snd
  | 0, _ => by rw [traceVariant]; exact .fail
  | fuel + 1, pos => by
    rw [traceVariant, layoutVariant, Option.map_eq_bind]
    refine Follows.after rfl fun len hlen => ?_
    cases hlen
    split
    · exact .fail
    refine Follows.after rfl fun nul hnul => ?_
    split
    · exact .fail
    refine (traceValue_follows fuel _ false _).bind fun value _ => ?_
    dsimp only
    split
    · exact .fail
    · exact .pure rfl

theorem traceArray_follows : ∀ (fuel : Nat) (sig : Signature) (pos : Nat),
    Follows (traceArray buffer fuel sig pos) (layoutArray buffer fuel sig pos) Prod.snd
  | 0, _, _ => by rw [traceArray]; exact .fail
  | fuel + 1, sig, pos => by
    rw [traceArray, layoutArray]
    refine Follows.after rfl fun scanned hscanned => ?_
    change parseContainerSignature .array sig = _ at hscanned
    refine Follows.after rfl fun len hlen => ?_
    cases hlen
    rw [hscanned]
    dsimp only
    split
    · exact .fail
    generalize TypeId.ofChar (sig.headD 0) = id
    cases id with
    | scalar type => exact (traceScalarArray_follows type _ _).basic
    | _ =>
      rintro ⟨arg, rest, finish⟩ hok
      obtain ⟨⟨elements, last⟩, helements, hnext, hevents⟩ := Traced.bind_eq_ok hok
      cases hnext
      rw [hevents, Traced.events_log, ← placed_array]
      have hfill := traceElements_follows fuel _ _ _ elements last helements
      exact congrArg (Option.bind · _) hfill

/-- The elements fill the array when each follows its layout and the last one
ends at the declared end. -/
theorem traceElements_follows : ∀ (fuel : Nat) (elemSig : Signature) (endOfArray pos : Nat)
    (elements : List MsgArg) (finish : Nat),
    (traceElements buffer fuel elemSig endOfArray pos).result = .ok (elements, finish) →
      layoutElements buffer fuel elemSig endOfArray pos =
        placed ((traceElements buffer fuel elemSig endOfArray pos).events ++
          [.array endOfArray finish]) ()
  | 0, _, _, _, _, _ => by rw [traceElements]; rintro ⟨⟩
  | fuel + 1, elemSig, endOfArray, pos, elements, finish => by
    rw [traceElements, layoutElements]
    split
    · intro hok
      obtain ⟨⟨element, rest, next⟩, helement, hnext, hevents⟩ := Traced.bind_eq_ok hok
      obtain ⟨⟨others, last⟩, hothers, hpure, hmore⟩ := Traced.bind_eq_ok hnext
      cases hpure
      have hfirst := traceValue_follows fuel elemSig true pos _ helement
      have hlast := traceElements_follows fuel elemSig endOfArray next others finish hothers
      rw [hevents, hmore, Traced.events_pure, List.append_nil, List.append_assoc, hfirst]
      exact placed_bind _ _ _ hlast
    · next hpos =>
        rintro ⟨⟩
        by_cases hend : pos = endOfArray
        · simp [placed, allExact, ParseEvent.isExact]
        · simp [placed, allExact, ParseEvent.isExact]

theorem traceStruct_follows : ∀ (fuel : Nat) (sig : Signature) (pos : Nat),
    Follows (traceStruct buffer fuel sig pos) (layoutStruct buffer fuel sig pos) Prod.snd
  | 0, _, _ => by rw [traceStruct]; exact .fail
  | fuel + 1, sig, pos => by
    rw [traceStruct, layoutStruct]
    cases parseContainerSignature .struct sig with
    | error e => exact .fail
    | ok scanned =>
      exact (traceValues_follows fuel scanned.2 sig (align pos 8)).bind fun _ _ => .pure rfl

theorem traceDictEntry_follows : ∀ (fuel : Nat) (sig : Signature) (pos : Nat),
    Follows (traceDictEntry buffer fuel sig pos) (layoutDictEntry buffer fuel sig pos) Prod.snd
  | 0, _, _ => by rw [traceDictEntry]; exact .fail
  | fuel + 1, sig, pos => by
    rw [traceDictEntry, layoutDictEntry]
    cases parseContainerSignature .dictEntry sig with
    | error e => exact .fail
    | ok scanned =>
      exact (traceValue_follows fuel sig false (align pos 8)).bind fun key _ =>
        (traceValue_follows fuel key.2.1 false key.2.2).bind fun _ _ => .pure rfl

theorem traceValues_follows : ∀ (fuel count : Nat) (sig : Signature) (pos : Nat),
    Follows (traceValues buffer fuel count sig pos) (layoutValues buffer fuel count sig pos)
      Prod.snd
  | 0, _, _, _ => by rw [traceValues]; exact .fail
  | _ + 1, 0, sig, pos => by rw [traceValues, layoutValues]; exact .pure rfl
  | fuel + 1, count + 1, sig, pos => by
    rw [traceValues, layoutValues]
    refine (traceValue_follows fuel sig false pos).bind fun first _ => ?_
    exact (traceValues_follows fuel count first.2.1 first.2.2).map fun _ => rfl
end

end

end AllJoyn.Wire
