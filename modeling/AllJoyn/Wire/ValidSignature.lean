import AllJoyn.Wire.Grammar

/-!
`SignatureUtils::IsValidSignature` against the D-Bus grammar. It also takes the
placeholders `r` and `*` and dict entries outside of arrays, and it counts dict
entries as structs where it limits their nesting.
-/

namespace AllJoyn.Wire

open Lib.Result List

/-! ### IsValidSignature -/

/-- The loop of `IsValidSignature`. A complete type takes at least one
character, so the length of the signature bounds the turns. -/
def validTypes : Nat → Signature → Bool
  | _, [] => true
  | 0, _ :: _ => false
  | turns + 1, sig =>
    match parseCompleteType sig with
    | .ok rest => validTypes turns rest
    | .error _ => false

/-- `SignatureUtils::IsValidSignature`; none is a null pointer. -/
def isValidSignature : Option (List UInt8) → Bool
  | none => false
  | some chars =>
    validTypes (cString chars).length (cString chars) && decide ((cString chars).length ≤ 255)

/-! ### The stack of ParseContainerSignature -/

/-- Where `outer` points to on the stack: at the start of each turn of
`ParseContainerSignature` and behind its switch. The inner loop moves it down
only. -/
def scanIndices (container : Container) : Signature → Scan → List Nat
  | [], scan => [scan.below.length]
  | char :: rest, scan =>
    if TypeId.ofChar char = .dictEntryOpen then
      match rest with
      | [] => [scan.below.length]
      | key :: rest =>
        match scanDictEntry scan key with
        | .error _ => [scan.below.length]
        | .ok after =>
          scan.below.length :: after.below.length ::
            if after.closeArrays.isComplete then [after.closeArrays.below.length]
            else scanIndices container rest after.closeArrays
    else
      match scanType container scan (TypeId.ofChar char) with
      | .error _ => [scan.below.length]
      | .ok after =>
        scan.below.length :: after.below.length ::
          if after.closeArrays.isComplete then [after.closeArrays.below.length]
          else scanIndices container rest after.closeArrays

/-- The state in which `ParseContainerSignature` starts. -/
def startScan (container : Container) : Scan :=
  { outer := ⟨container, 0⟩
    below := []
    structDepth := if container = .array then 0 else 1
    arrayDepth := if container = .array then 1 else 0
    numMembers := 0 }

/-- The container that a character opens. -/
def openedContainer : TypeId → Option Container
  | .dictEntryOpen => some .dictEntry
  | .structOpen => some .struct
  | .array => some .array
  | _ => none

/-- The same for the calls that `IsValidSignature` makes. -/
def stackIndices : Nat → Signature → List Nat
  | _, [] => []
  | 0, _ :: _ => []
  | turns + 1, char :: rest =>
    (match openedContainer (TypeId.ofChar char) with
      | none => []
      | some container => scanIndices container rest (startScan container)) ++
    match parseCompleteType (char :: rest) with
    | .ok rest => stackIndices turns rest
    | .error _ => []

/-- The depths count the containers on the stack. -/
structure Scan.Counted (scan : Scan) : Prop where
  arrays : (scan.outer :: scan.below).countP (fun frame => frame.typeId = .array) = scan.arrayDepth
  height : scan.below.length + 1 = scan.arrayDepth + scan.structDepth
  arrayLimit : scan.arrayDepth ≤ 32
  structLimit : scan.structDepth ≤ 32

variable {scan after : Scan} {sig rest : Signature} {type : SigTy}

theorem Scan.Counted.index_lt (hcounted : scan.Counted) : scan.below.length < 64 := by
  have := hcounted.height
  have := hcounted.arrayLimit
  have := hcounted.structLimit
  omega

/-- The container at the bottom of the stack has been closed. -/
def Scan.Closed (scan : Scan) : Prop :=
  scan.below = [] ∧ scan.arrayDepth = 0 ∧ scan.structDepth = 0

section Counting

variable (hcounted : scan.Counted)

include hcounted

theorem Scan.Counted.addMember : scan.addMember.Counted :=
  ⟨hcounted.arrays, hcounted.height, hcounted.arrayLimit, hcounted.structLimit⟩

theorem Scan.Counted.pushArray (hroom : scan.arrayDepth < 32) :
    scan.openArray.Counted where
  arrays := by
    change (⟨.array, 0⟩ :: scan.outer :: scan.below).countP _ = _
    rw [countP_cons_of_pos (by simp), hcounted.arrays]
    rfl
  height := by
    have := hcounted.height
    simp only [Scan.openArray, Scan.push, length_cons]
    omega
  arrayLimit := hroom
  structLimit := hcounted.structLimit

theorem Scan.Counted.pushStruct (hroom : scan.structDepth < 32) {typeId : Container}
    (hstruct : typeId ≠ .array) :
    Scan.Counted { scan.push typeId with structDepth := scan.structDepth + 1 } where
  arrays := by
    change (⟨typeId, 0⟩ :: scan.outer :: scan.below).countP _ = _
    rw [countP_cons_of_neg (by simpa using hstruct), hcounted.arrays]
    rfl
  height := by
    have := hcounted.height
    simp only [Scan.push, length_cons]
    omega
  arrayLimit := hcounted.arrayLimit
  structLimit := hroom

theorem Scan.Counted.pop (hstruct : scan.outer.typeId ≠ .array) (numMembers : Nat) :
    let after : Scan :=
      { scan.pop with structDepth := scan.structDepth - 1, numMembers := numMembers }
    after.Counted ∨ after.Closed := by
  obtain ⟨outer, below, structDepth, arrayDepth, members⟩ := scan
  obtain ⟨harrays, hheight, harrayLimit, hstructLimit⟩ := hcounted
  simp only at harrays hheight harrayLimit hstructLimit hstruct
  rw [countP_cons_of_neg (by simpa using hstruct)] at harrays
  cases below with
  | nil =>
    simp only [length_nil] at harrays hheight
    exact .inr ⟨rfl, harrays.symm, show structDepth - 1 = 0 by omega⟩
  | cons frame below =>
    have hcount := countP_le_length (p := fun frame : Frame => decide (frame.typeId = .array))
      (l := frame :: below)
    simp only [length_cons] at hheight hcount
    exact .inl ⟨harrays, show below.length + 1 = arrayDepth + (structDepth - 1) by omega,
      harrayLimit, show structDepth - 1 ≤ 32 by omega⟩

theorem Scan.Counted.arrayDepth_pos (harray : scan.outer.typeId = .array) :
    0 < scan.arrayDepth := by
  rw [← hcounted.arrays, countP_cons_of_pos (by simpa using harray)]
  exact Nat.succ_pos _

end Counting

theorem closeArrays_of_open (hopen : scan.outer ≠ ⟨.array, 1⟩) : scan.closeArrays = scan := by
  obtain ⟨outer, below, structDepth, arrayDepth, members⟩ := scan
  simp only [Scan.closeArrays]
  rw [Wire.closeArrays]
  · rintro - rfl
    exact absurd rfl hopen
  · rintro - - - rfl
    exact absurd rfl hopen

theorem Scan.Counted.closeArrays (hcounted : scan.Counted) :
    scan.closeArrays.Counted ∨ scan.closeArrays.Closed := by
  obtain ⟨outer, below, structDepth, arrayDepth, members⟩ := scan
  induction below generalizing outer arrayDepth with
  | nil =>
    by_cases hfull : outer = ⟨.array, 1⟩
    · subst hfull
      have hone : 1 = arrayDepth := hcounted.arrays
      subst hone
      have hheight : 0 + 1 = 1 + structDepth := hcounted.height
      exact .inr ⟨rfl, rfl, show structDepth = 0 by omega⟩
    · rw [closeArrays_of_open hfull]
      exact .inl hcounted
  | cons frame below ih =>
    by_cases hfull : outer = ⟨.array, 1⟩
    · subst hfull
      cases arrayDepth with
      | zero => exact absurd (hcounted.arrayDepth_pos rfl) (Nat.lt_irrefl 0)
      | succ arrayDepth =>
        obtain ⟨harrays, hheight, harrayLimit, hstructLimit⟩ := hcounted
        simp only [length_cons] at harrays hheight harrayLimit hstructLimit
        rw [countP_cons_of_pos (by simp)] at harrays
        exact ih frame.addMember arrayDepth ⟨Nat.succ.inj harrays,
          show below.length + 1 = arrayDepth + structDepth by omega,
          show arrayDepth ≤ 32 by omega, hstructLimit⟩
    · rw [closeArrays_of_open hfull]
      exact .inl hcounted

theorem Scan.Closed.closeArrays (hclosed : scan.Closed) : scan.closeArrays = scan := by
  obtain ⟨⟨typeId, count⟩, below, structDepth, arrayDepth, members⟩ := scan
  obtain ⟨hbelow, harrays, hstructs⟩ := hclosed
  subst hbelow harrays hstructs
  simp [Scan.closeArrays, Wire.closeArrays]

theorem Scan.Closed.isComplete (hclosed : scan.Closed) : scan.isComplete = true := by
  simp [Scan.isComplete, hclosed.2.1, hclosed.2.2]

variable {container : Container} {types : List SigTy} {turns : Nat}

theorem scanType_counted {id : TypeId} (hcounted : scan.Counted)
    (hok : scanType container scan id = .ok after) : after.Counted ∨ after.Closed := by
  rcases scanType_ok_cases hok with ⟨kind, rfl, rfl⟩ | ⟨rfl, hroom, rfl⟩ | ⟨rfl, hroom, rfl⟩ |
    rfl | rfl
  · exact .inl hcounted.addMember
  · exact .inl (hcounted.pushArray hroom)
  · exact .inl (hcounted.pushStruct hroom (by simp))
  all_goals
    rw [scanType] at hok
    split at hok
    next hclose =>
      obtain rfl := Except.ok.inj hok
      exact hcounted.pop (by simp [hclose.1]) _
    next => cases hok

theorem scanDictEntry_counted {key : UInt8} (hcounted : scan.Counted)
    (hok : scanDictEntry scan key = .ok after) : after.Counted := by
  obtain ⟨hroom, -, -, rfl⟩ := scanDictEntry_ok hok
  have hpushed : Scan.Counted
      { scan.push .dictEntry with structDepth := scan.structDepth + 1 } :=
    hcounted.pushStruct hroom (by simp)
  exact hpushed.addMember

/-- Behind a turn the scan is complete, or goes on with a stack that is counted. -/
theorem counted_next (hafter : after.Counted ∨ after.Closed) :
    after.below.length < 64 ∧ after.closeArrays.below.length < 64 ∧
      (after.closeArrays.isComplete = false → after.closeArrays.Counted) := by
  have hclosedIndex {scan : Scan} (hclosed : scan.Closed) : scan.below.length < 64 := by
    simp [hclosed.1]
  rcases hafter with hcounted | hclosed
  · refine ⟨hcounted.index_lt, ?_⟩
    rcases hcounted.closeArrays with hnext | hclosed
    · exact ⟨hnext.index_lt, fun _ => hnext⟩
    · exact ⟨hclosedIndex hclosed, fun hopen => by simp [hclosed.isComplete] at hopen⟩
  · rw [hclosed.closeArrays]
    exact ⟨hclosedIndex hclosed, hclosedIndex hclosed,
      fun hopen => by simp [hclosed.isComplete] at hopen⟩

theorem scanIndices_lt (hcounted : scan.Counted) :
    ∀ index ∈ scanIndices container sig scan, index < 64 := by
  have hindex := hcounted.index_lt
  fun_induction scanIndices container sig scan with
  | case1 | case2 | case3 | case5 => simpa using hindex
  | case4 char scan _ key rest after hok ih =>
    obtain ⟨hafter, hclosed, hnext⟩ := counted_next (.inl (scanDictEntry_counted hcounted hok))
    refine forall_mem_cons.mpr ⟨hindex, forall_mem_cons.mpr ⟨hafter, ?_⟩⟩
    split
    next => simpa using hclosed
    next hopen => exact ih (hnext (by simpa using hopen)) hclosed
  | case6 char rest scan _ after hok ih =>
    obtain ⟨hafter, hclosed, hnext⟩ := counted_next (scanType_counted hcounted hok)
    refine forall_mem_cons.mpr ⟨hindex, forall_mem_cons.mpr ⟨hafter, ?_⟩⟩
    split
    next => simpa using hclosed
    next hopen => exact ih (hnext (by simpa using hopen)) hclosed

theorem startScan_counted (container : Container) : (startScan container).Counted := by
  cases container <;> exact ⟨rfl, rfl, by decide, by decide⟩

/-- No call of `ParseContainerSignature` leaves its stack. -/
theorem stackIndices_lt (turns : Nat) (sig : Signature) :
    ∀ index ∈ stackIndices turns sig, index < 64 := by
  induction turns generalizing sig with
  | zero => cases sig <;> simp [stackIndices]
  | succ turns ih =>
    cases sig with
    | nil => simp [stackIndices]
    | cons char rest =>
      refine forall_mem_append.mpr ⟨?_, ?_⟩
      · cases openedContainer (TypeId.ofChar char) with
        | none => simp
        | some container => exact scanIndices_lt (startScan_counted container)
      · cases parseCompleteType (char :: rest) with
        | ok rest => exact ih rest
        | error status => simp

/-! ### The D-Bus grammar -/

namespace SigTy

mutual
def usesPlaceholder : SigTy → Bool
  | .leaf kind => kind.isPlaceholder
  | .array elem => elem.usesPlaceholder
  | .struct members => anyPlaceholder members
  | .dictEntry key val => key.usesPlaceholder || val.usesPlaceholder

def anyPlaceholder : List SigTy → Bool
  | [] => false
  | type :: types => type.usesPlaceholder || anyPlaceholder types
end

/-- A complete type of the D-Bus grammar, with its limits for arrays and
structs. -/
structure Dbus (type : SigTy) : Prop where
  shape : type.Shape false
  arrays : type.depth 1 0 0 ≤ 32
  structs : type.depth 0 1 0 ≤ 32
  plain : type.usesPlaceholder = false

mutual
theorem depth_structs_le : ∀ type : SigTy, type.depth 0 1 0 ≤ type.depth 0 1 1
  | .leaf _ => Nat.le_refl _
  | .array elem => by
    have := elem.depth_structs_le
    simp only [depth]
    omega
  | .struct members => by
    have := depths_structs_le members
    simp only [depth]
    omega
  | .dictEntry key val => by
    have := key.depth_structs_le
    have := val.depth_structs_le
    simp only [depth]
    omega

theorem depths_structs_le : ∀ types : List SigTy, depths 0 1 0 types ≤ depths 0 1 1 types
  | [] => Nat.le_refl _
  | type :: types => by
    have := type.depth_structs_le
    have := depths_structs_le types
    simp only [depths]
    omega
end

/-! ### One reading -/

/-- The type of the first character. -/
def first : SigTy → TypeId
  | .leaf kind => kind.id
  | .array _ => .array
  | .struct _ => .structOpen
  | .dictEntry _ _ => .dictEntryOpen

theorem sig_eq_cons (type : SigTy) : ∃ behind, type.sig = type.first.char :: behind := by
  cases type <;> exact ⟨_, rfl⟩

theorem char_inj {id id' : TypeId} (hsame : id.char = id'.char) : id = id' := by
  rw [← TypeId.ofChar_char id, hsame, TypeId.ofChar_char]

theorem first_eq_of_append {type' : SigTy} {rest' : Signature}
    (hsame : type.sig ++ rest = type'.sig ++ rest') : type.first = type'.first := by
  obtain ⟨behind, hbehind⟩ := type.sig_eq_cons
  obtain ⟨behind', hbehind'⟩ := type'.sig_eq_cons
  rw [hbehind, hbehind'] at hsame
  exact char_inj (cons_eq_cons.mp hsame).1

theorem sig_ne_closer {closer : TypeId} (hcloser : IsCloser closer) {behind : Signature} :
    type.sig ++ rest ≠ closer.char :: behind := by
  intro hsame
  obtain ⟨tail, htail⟩ := type.sig_eq_cons
  rw [htail] at hsame
  have hfirst : IsCloser type.first := char_inj (cons_eq_cons.mp hsame).1 ▸ hcloser
  revert hfirst
  cases type with
  | leaf kind => cases kind <;> simp [first, Leaf.id, IsCloser]
  | array | struct | dictEntry => simp [first, IsCloser]

theorem leaf_id_inj {kind kind' : Leaf} (hsame : kind.id = kind'.id) : kind = kind' := by
  cases kind <;> cases kind' <;> simp_all [Leaf.id]

mutual
theorem sig_append_inj : ∀ {type type' : SigTy} {rest rest' : Signature},
    type.sig ++ rest = type'.sig ++ rest' → type = type' ∧ rest = rest'
  | .leaf kind, type', rest, rest', hsame => by
    have hfirst := first_eq_of_append hsame
    cases type' with
    | leaf kind' =>
      obtain rfl := leaf_id_inj hfirst
      exact ⟨rfl, append_cancel_left hsame⟩
    | array | struct | dictEntry => cases kind <;> simp [first, Leaf.id] at hfirst
  | .array elem, type', rest, rest', hsame => by
    have hfirst := first_eq_of_append hsame
    cases type' with
    | array elem' =>
      obtain ⟨rfl, rfl⟩ := sig_append_inj (cons_eq_cons.mp hsame).2
      exact ⟨rfl, rfl⟩
    | leaf kind => cases kind <;> simp [first, Leaf.id] at hfirst
    | struct | dictEntry => simp [first] at hfirst
  | .struct members, type', rest, rest', hsame => by
    have hfirst := first_eq_of_append hsame
    cases type' with
    | struct members' =>
      rw [sig, sig, cons_append, cons_append, append_assoc,
        append_assoc] at hsame
      obtain ⟨rfl, -, rfl⟩ :=
        sigs_append_inj (.inl rfl) (.inl rfl) (cons_eq_cons.mp hsame).2
      exact ⟨rfl, rfl⟩
    | leaf kind => cases kind <;> simp [first, Leaf.id] at hfirst
    | array | dictEntry => simp [first] at hfirst
  | .dictEntry key val, type', rest, rest', hsame => by
    have hfirst := first_eq_of_append hsame
    cases type' with
    | dictEntry key' val' =>
      simp only [sig, cons_append, append_assoc] at hsame
      obtain ⟨rfl, hval⟩ := sig_append_inj (cons_eq_cons.mp hsame).2
      obtain ⟨rfl, hclose⟩ := sig_append_inj hval
      exact ⟨rfl, (cons_eq_cons.mp hclose).2⟩
    | leaf kind => cases kind <;> simp [first, Leaf.id] at hfirst
    | array | struct => simp [first] at hfirst

theorem sigs_append_inj : ∀ {types types' : List SigTy} {closer closer' : TypeId}
    {rest rest' : Signature}, IsCloser closer → IsCloser closer' →
    sigs types ++ closer.char :: rest = sigs types' ++ closer'.char :: rest' →
    types = types' ∧ closer = closer' ∧ rest = rest'
  | [], [], _, _, _, _, _, _, hsame =>
    ⟨rfl, char_inj (cons_eq_cons.mp hsame).1, (cons_eq_cons.mp hsame).2⟩
  | [], type' :: types', _, _, _, _, hcloser, _, hsame => by
    rw [sigs, sigs, append_assoc] at hsame
    exact absurd hsame.symm (sig_ne_closer hcloser)
  | type :: types, [], _, _, _, _, _, hcloser', hsame => by
    rw [sigs, sigs, append_assoc] at hsame
    exact absurd hsame (sig_ne_closer hcloser')
  | type :: types, type' :: types', _, _, _, _, hcloser, hcloser', hsame => by
    rw [sigs, sigs, append_assoc, append_assoc] at hsame
    obtain ⟨rfl, hrest⟩ := sig_append_inj hsame
    obtain ⟨rfl, hclosers, hbehind⟩ := sigs_append_inj hcloser hcloser' hrest
    exact ⟨rfl, hclosers, hbehind⟩
end

theorem sigs_inj {types' : List SigTy} (hsame : sigs types = sigs types') : types = types' := by
  have hclosed : sigs types ++ TypeId.structClose.char :: [] =
      sigs types' ++ TypeId.structClose.char :: [] := by rw [hsame]
  exact (sigs_append_inj (.inl rfl) (.inl rfl) hclosed).1

end SigTy

/-! ### Valid signatures -/

open SigTy

/-- A signature of the D-Bus grammar. -/
def DbusSignature (sig : Signature) : Prop :=
  sig.length ≤ 255 ∧ ∃ types, sig = SigTy.sigs types ∧ ∀ type ∈ types, type.Dbus

/-- The signature is read as types within the limits of the scanner, some of
which the D-Bus grammar has not: they use a placeholder, or are a dict entry
outside of an array. -/
def Stretched (sig : Signature) : Prop :=
  sig.length ≤ 255 ∧ ∃ types, sig = SigTy.sigs types ∧ (∀ type ∈ types, type.Accepted) ∧
    ∃ type ∈ types, type.usesPlaceholder = true ∨ type.Bare

/-- The signature is read as types of the D-Bus grammar, one of which nests
more than 32 structs and dict entries together. -/
def Crowded (sig : Signature) : Prop :=
  sig.length ≤ 255 ∧ ∃ types, sig = SigTy.sigs types ∧ (∀ type ∈ types, type.Dbus) ∧
    ∃ type ∈ types, 32 < type.depth 0 1 1

theorem validTypes_succ (hsig : sig ≠ []) (hparsed : parseCompleteType sig = .ok rest) :
    validTypes (turns + 1) sig = validTypes turns rest := by
  obtain ⟨char, behind, rfl⟩ := exists_cons_of_ne_nil hsig
  rw [validTypes, hparsed]
  simp

theorem validTypes_sigs (haccepted : ∀ type ∈ types, type.Accepted)
    (hlength : (SigTy.sigs types).length ≤ 255) (turns : Nat)
    (hturns : (SigTy.sigs types).length ≤ turns) : validTypes turns (SigTy.sigs types) = true := by
  induction types generalizing turns with
  | nil => cases turns <;> rfl
  | cons type types ih =>
    obtain ⟨hfirst, hrest⟩ := forall_mem_cons.mp haccepted
    have hpositive := type.sig_length_pos
    simp only [SigTy.sigs, length_append] at hlength hturns
    obtain ⟨turns, rfl⟩ := Nat.exists_eq_succ_of_ne_zero (show turns ≠ 0 by omega)
    have hparsed := parseCompleteType_tree (SigTy.sigs types) hfirst (by omega)
    rw [SigTy.sigs, validTypes_succ (by simp [type.sig_ne_nil]) hparsed]
    exact ih hrest (by omega) turns (by omega)

theorem types_of_validTypes (hlength : sig.length ≤ 255) (hvalid : validTypes turns sig = true) :
    ∃ types, sig = SigTy.sigs types ∧ ∀ type ∈ types, type.Accepted := by
  induction turns generalizing sig with
  | zero =>
    cases sig with
    | nil => exact ⟨[], rfl, by simp⟩
    | cons char rest => cases hvalid
  | succ turns ih =>
    cases sig with
    | nil => exact ⟨[], rfl, by simp⟩
    | cons char rest =>
      cases hparsed : parseCompleteType (char :: rest) with
      | error status => simp [validTypes, hparsed] at hvalid
      | ok behind =>
        rw [validTypes_succ (by simp) hparsed] at hvalid
        obtain ⟨type, hspelled, haccepted⟩ := accepted_of_parseCompleteType hlength hparsed
        rw [hspelled, length_append] at hlength
        obtain ⟨types, rfl, htypes⟩ := ih (by omega) hvalid
        exact ⟨type :: types, hspelled, forall_mem_cons.mpr ⟨haccepted, htypes⟩⟩

/-- What `IsValidSignature` takes: sequences of the types that
`ParseCompleteType` takes. -/
theorem isValidSignature_iff_accepted (chars : List UInt8) :
    isValidSignature (some chars) = true ↔ (cString chars).length ≤ 255 ∧
      ∃ types, cString chars = SigTy.sigs types ∧ ∀ type ∈ types, type.Accepted := by
  rw [isValidSignature, Bool.and_eq_true, decide_eq_true_iff]
  constructor
  · rintro ⟨hvalid, hlength⟩
    exact ⟨hlength, types_of_validTypes hlength hvalid⟩
  · rintro ⟨hlength, types, hspelled, haccepted⟩
    rw [hspelled] at hlength ⊢
    exact ⟨validTypes_sigs haccepted hlength _ (le_refl _), hlength⟩

theorem SigTy.Dbus.accepted (hdbus : type.Dbus) (hstructs : type.depth 0 1 1 ≤ 32) :
    type.Accepted :=
  ⟨.inl hdbus.shape, hdbus.arrays, hstructs⟩

theorem SigTy.Accepted.dbus (haccepted : type.Accepted) (hplain : type.usesPlaceholder = false)
    (hbare : ¬type.Bare) : type.Dbus :=
  ⟨haccepted.shape.resolve_right hbare, haccepted.arrays,
    type.depth_structs_le.trans haccepted.structs, hplain⟩

theorem SigTy.Dbus.not_bare (hdbus : type.Dbus) : ¬type.Bare := by
  cases type with
  | dictEntry key val => exact absurd hdbus.shape.1 (by simp)
  | leaf | array | struct => exact id

/-- `IsValidSignature` takes exactly the signatures of the D-Bus grammar, and
its stack holds, unless the signature is stretched or crowded. -/
theorem isValidSignature_dbus_iff (chars : List UInt8) :
    ((isValidSignature (some chars) = true ↔ DbusSignature (cString chars)) ∧
        ∀ index ∈ stackIndices (cString chars).length (cString chars), index < 64) ↔
      ¬Stretched (cString chars) ∧ ¬Crowded (cString chars) := by
  rw [and_iff_left (stackIndices_lt _ _), isValidSignature_iff_accepted]
  constructor
  · intro hsame
    constructor
    · rintro ⟨hlength, types, hspelled, haccepted, type, hmem, hstretched⟩
      obtain ⟨-, types', hspelled', hdbus⟩ := hsame.mp ⟨hlength, types, hspelled, haccepted⟩
      obtain rfl := sigs_inj (hspelled.symm.trans hspelled')
      rcases hstretched with hplaceholder | hbare
      · exact absurd hplaceholder (by simp [(hdbus type hmem).plain])
      · exact (hdbus type hmem).not_bare hbare
    · rintro ⟨hlength, types, hspelled, hdbus, type, hmem, hdeep⟩
      obtain ⟨-, types', hspelled', haccepted⟩ := hsame.mpr ⟨hlength, types, hspelled, hdbus⟩
      obtain rfl := sigs_inj (hspelled.symm.trans hspelled')
      have := (haccepted type hmem).structs
      omega
  · rintro ⟨hstretched, hcrowded⟩
    constructor
    · rintro ⟨hlength, types, hspelled, haccepted⟩
      refine ⟨hlength, types, hspelled, fun type hmem => (haccepted type hmem).dbus ?_ ?_⟩
      · rw [← Bool.not_eq_true]
        exact fun hplaceholder =>
          hstretched ⟨hlength, types, hspelled, haccepted, type, hmem, .inl hplaceholder⟩
      · exact fun hbare =>
          hstretched ⟨hlength, types, hspelled, haccepted, type, hmem, .inr hbare⟩
    · rintro ⟨hlength, types, hspelled, hdbus⟩
      refine ⟨hlength, types, hspelled, fun type hmem => (hdbus type hmem).accepted ?_⟩
      exact Nat.le_of_not_lt fun hdeep =>
        hcrowded ⟨hlength, types, hspelled, hdbus, type, hmem, hdeep⟩

/-- A type inside of so many structs. -/
def nested : Nat → SigTy → SigTy
  | 0, type => type
  | count + 1, type => .struct [nested count type]

/-- `*` and a dict entry on its own are taken, and an array of dict entries
inside of 32 structs is not. -/
theorem isValidSignature_not_dbus :
    (isValidSignature (some [42]) = true ∧ ¬DbusSignature (cString [42])) ∧
      (isValidSignature (some [123, 115, 118, 125]) = true ∧
        ¬DbusSignature (cString [123, 115, 118, 125])) ∧
      let entries : SigTy := .array (.dictEntry (.leaf .string) (.leaf .variant))
      isValidSignature (some (nested 32 entries).sig) = false ∧
        DbusSignature (cString (nested 32 entries).sig) := by
  refine ⟨⟨by decide, ?_⟩, ⟨by decide, ?_⟩, by decide +kernel, ?_⟩
  · rintro ⟨-, types, hspelled, hdbus⟩
    obtain rfl := sigs_inj (show SigTy.sigs [.leaf .wildcard] = _ from hspelled)
    exact absurd (hdbus _ mem_cons_self).plain (by decide)
  · rintro ⟨-, types, hspelled, hdbus⟩
    obtain rfl := sigs_inj
      (show SigTy.sigs [.dictEntry (.leaf .string) (.leaf .variant)] = _ from hspelled)
    exact (hdbus _ mem_cons_self).not_bare ⟨trivial, trivial⟩
  · refine ⟨by decide +kernel, [nested 32 (.array (.dictEntry (.leaf .string) (.leaf .variant)))],
      by decide +kernel, forall_mem_singleton.mpr
        ⟨?_, by decide +kernel, by decide +kernel, by decide +kernel⟩⟩
    simp [nested, Shape, Shapes, SigTy.isBasic, Leaf.id, TypeId.isBasic]

end AllJoyn.Wire
