import Mathlib.Data.UInt
import AllJoyn.Wire.Types

/-!
Argument values of a D-Bus type, and how much of the signature buffer their
signatures need. `MakeSignature` copies the element signature of an array only
where it ends below position 254 of the buffer.
-/

namespace AllJoyn.Wire

open TypeId List

variable {type : Ty} {types : List Ty} {junk : Nat → UInt8}

mutual
/-- The value has this type. A variant holds a value with a legal signature of
its own; an object path is not empty; strings and signatures keep to the
limits of their lengths. -/
def HasType : MsgArg → Ty → Prop
  | .scalar scalarType _, type => type = .scalar scalarType
  | .string str, type => type = .string ∧ (str.getD []).length ≤ maxPacketLen
  | .objectPath str, type =>
    type = .objectPath ∧ str.getD [] ≠ [] ∧ (str.getD []).length ≤ maxPacketLen
  | .signature sig, type => type = .signature ∧ (sig.getD []).length ≤ 255
  | .variant val, type => type = .variant ∧ ∃ valType, HasType val valType ∧ LegalSignature [valType]
  | .struct members, type => ∃ types, type = .struct types ∧ HaveTypes members types
  | .dictEntry key val, type =>
    ∃ keyType valType, type = .dictEntry keyType valType ∧
      HasType key keyType ∧ HasType val valType
  | .array elemSig elements, type =>
    ∃ elemType, type = .array elemType ∧ elemSig = some elemType.sig ∧
      AllHaveType elements elemType
  | .scalarArray scalarType _, type => type = .array (.scalar scalarType)
  | .handle _, _ => False
  | .invalid, _ => False

def HaveTypes : List MsgArg → List Ty → Prop
  | [], types => types = []
  | arg :: args, types =>
    ∃ type rest, types = type :: rest ∧ HasType arg type ∧ HaveTypes args rest

def AllHaveType : List MsgArg → Ty → Prop
  | [], _ => True
  | arg :: args, type => HasType arg type ∧ AllHaveType args type
end

mutual
/-- The signature of a value. -/
def MsgArg.sig : MsgArg → Signature
  | .invalid => []
  | .scalar type _ => [(TypeId.scalar type).char]
  | .string _ => [TypeId.string.char]
  | .objectPath _ => [TypeId.objectPath.char]
  | .signature _ => [TypeId.signature.char]
  | .handle _ => [TypeId.handle.char]
  | .variant _ => [TypeId.variant.char]
  | .struct members => TypeId.structOpen.char :: (argSigs members ++ [TypeId.structClose.char])
  | .dictEntry key val =>
    TypeId.dictEntryOpen.char :: (key.sig ++ (val.sig ++ [TypeId.dictEntryClose.char]))
  | .array elemSig _ => TypeId.array.char :: elemSig.getD []
  | .scalarArray type _ => [TypeId.array.char, (TypeId.scalar type).char]

def argSigs : List MsgArg → Signature
  | [] => []
  | arg :: args => arg.sig ++ argSigs args
end

theorem AllHaveType.mem : ∀ {args : List MsgArg} {type : Ty}, AllHaveType args type →
    ∀ arg ∈ args, HasType arg type
  | [], _, _ => by simp
  | arg :: args, _, htypes => by
    rw [forall_mem_cons]
    exact ⟨htypes.1, htypes.2.mem⟩

/-! ### Values apart from the limits of the bus -/

mutual
/-- The value is built as this type says. A signature fits its length byte;
nothing else is limited. -/
def OfType : MsgArg → Ty → Prop
  | .scalar scalarType _, type => type = .scalar scalarType
  | .string _, type => type = .string
  | .objectPath _, type => type = .objectPath
  | .signature sig, type => type = .signature ∧ (sig.getD []).length ≤ 255
  | .variant val, type => type = .variant ∧ ∃ valType, OfType val valType
  | .struct members, type => ∃ types, type = .struct types ∧ OfTypes members types
  | .dictEntry key val, type =>
    ∃ keyType valType, type = .dictEntry keyType valType ∧
      OfType key keyType ∧ OfType val valType
  | .array elemSig elements, type =>
    ∃ elemType, type = .array elemType ∧ elemSig = some elemType.sig ∧
      AllOfType elements elemType
  | .scalarArray scalarType _, type => type = .array (.scalar scalarType)
  | .handle _, _ => False
  | .invalid, _ => False

def OfTypes : List MsgArg → List Ty → Prop
  | [], types => types = []
  | arg :: args, types =>
    ∃ type rest, types = type :: rest ∧ OfType arg type ∧ OfTypes args rest

def AllOfType : List MsgArg → Ty → Prop
  | [], _ => True
  | arg :: args, type => OfType arg type ∧ AllOfType args type
end

mutual
theorem HasType.ofType : ∀ {arg : MsgArg} {type : Ty}, HasType arg type → OfType arg type
  | .scalar _ _, _, htype | .scalarArray _ _, _, htype => htype
  | .string _, _, htype | .objectPath _, _, htype => htype.1
  | .signature _, _, htype => htype
  | .variant _, _, htype => by
    obtain ⟨rfl, valType, hval, -⟩ := htype
    exact ⟨rfl, valType, hval.ofType⟩
  | .struct _, _, htype => by
    obtain ⟨types, rfl, hmembers⟩ := htype
    exact ⟨types, rfl, hmembers.ofTypes⟩
  | .dictEntry _ _, _, htype => by
    obtain ⟨keyType, valType, rfl, hkey, hval⟩ := htype
    exact ⟨keyType, valType, rfl, hkey.ofType, hval.ofType⟩
  | .array _ _, _, htype => by
    obtain ⟨elemType, rfl, rfl, helements⟩ := htype
    exact ⟨elemType, rfl, rfl, helements.allOfType⟩
  | .handle _, _, htype | .invalid, _, htype => htype.elim

theorem HaveTypes.ofTypes : ∀ {args : List MsgArg} {types : List Ty},
    HaveTypes args types → OfTypes args types
  | [], _, htypes => htypes
  | _ :: _, _, htypes => by
    obtain ⟨type, rest, rfl, harg, hargs⟩ := htypes
    exact ⟨type, rest, rfl, harg.ofType, hargs.ofTypes⟩

theorem AllHaveType.allOfType : ∀ {args : List MsgArg} {type : Ty},
    AllHaveType args type → AllOfType args type
  | [], _, _ => trivial
  | _ :: _, _, htypes => ⟨htypes.1.ofType, htypes.2.allOfType⟩
end

mutual
theorem OfType.sig_eq : ∀ {arg : MsgArg} {type : Ty}, OfType arg type → arg.sig = type.sig
  | .scalar _ _, _, htype | .scalarArray _ _, _, htype => by
    cases htype
    rfl
  | .string _, _, htype | .objectPath _, _, htype => by
    cases htype
    rfl
  | .signature _, _, htype | .variant _, _, htype => by
    cases htype.1
    rfl
  | .struct members, _, htype => by
    obtain ⟨types, rfl, hmembers⟩ := htype
    rw [MsgArg.sig, Ty.sig, hmembers.sigs_eq]
  | .dictEntry key val, _, htype => by
    obtain ⟨keyType, valType, rfl, hkey, hval⟩ := htype
    rw [MsgArg.sig, Ty.sig, hkey.sig_eq, hval.sig_eq]
  | .array _ _, _, htype => by
    obtain ⟨elemType, rfl, rfl, -⟩ := htype
    rfl
  | .handle _, _, htype | .invalid, _, htype => htype.elim

theorem OfTypes.sigs_eq : ∀ {args : List MsgArg} {types : List Ty},
    OfTypes args types → argSigs args = sigs types
  | [], _, htypes => by
    cases htypes
    rfl
  | arg :: args, _, htypes => by
    obtain ⟨type, rest, rfl, harg, hargs⟩ := htypes
    rw [argSigs, sigs, harg.sig_eq, hargs.sigs_eq]
end

theorem OfTypes.length_eq : ∀ {args : List MsgArg} {types : List Ty},
    OfTypes args types → args.length = types.length
  | [], _, htypes => by
    cases htypes
    rfl
  | arg :: args, _, htypes => by
    obtain ⟨type, rest, rfl, -, hargs⟩ := htypes
    simp [hargs.length_eq]

theorem HasType.sig_eq {arg : MsgArg} (htype : HasType arg type) :
    arg.sig = type.sig := htype.ofType.sig_eq

theorem HaveTypes.length_eq {args : List MsgArg} (htypes : HaveTypes args types) :
    args.length = types.length := htypes.ofTypes.length_eq

theorem AllOfType.mem : ∀ {args : List MsgArg} {type : Ty}, AllOfType args type →
    ∀ arg ∈ args, OfType arg type
  | [], _, _ => by simp
  | arg :: args, _, htypes => by
    rw [forall_mem_cons]
    exact ⟨htypes.1, htypes.2.mem⟩

/-! ### Room in the signature buffer -/

mutual
/-- Every element signature met while the signature of a value is composed
from position `offset` on ends below position 254. -/
def SigFits : MsgArg → Nat → Prop
  | .array elemSig _, offset => offset + 1 + (elemSig.getD []).length < 254
  | .struct members, offset => SigsFit members (offset + 1)
  | .dictEntry key val, offset =>
    SigFits key (offset + 1) ∧ SigFits val (offset + 1 + key.sig.length)
  | _, _ => True

def SigsFit : List MsgArg → Nat → Prop
  | [], _ => True
  | arg :: args, offset => SigFits arg offset ∧ SigsFit args (offset + arg.sig.length)
end

mutual
/-- The same for every variant inside a value, whose signature is composed in
a buffer of its own. -/
def VariantsFit : MsgArg → Prop
  | .variant val => SigFits val 0 ∧ VariantsFit val
  | .struct members => AllVariantsFit members
  | .dictEntry key val => VariantsFit key ∧ VariantsFit val
  | .array _ elements => AllVariantsFit elements
  | _ => True

def AllVariantsFit : List MsgArg → Prop
  | [] => True
  | arg :: args => VariantsFit arg ∧ AllVariantsFit args
end

mutual
theorem sigFits_of_short : ∀ (arg : MsgArg) (offset : Nat),
    offset + arg.sig.length < 254 → SigFits arg offset
  | .array elemSig _, offset, hshort => by
    simp only [MsgArg.sig, length_cons] at hshort
    simp only [SigFits]
    omega
  | .struct members, offset, hshort => by
    simp only [MsgArg.sig, length_cons, length_append] at hshort
    exact sigsFit_of_short members (offset + 1) (by omega)
  | .dictEntry key val, offset, hshort => by
    simp only [MsgArg.sig, length_cons, length_append] at hshort
    exact ⟨sigFits_of_short key _ (by omega), sigFits_of_short val _ (by omega)⟩
  | .invalid, _, _ | .scalar _ _, _, _ | .string _, _, _ | .objectPath _, _, _
  | .signature _, _, _ | .handle _, _, _ | .variant _, _, _ | .scalarArray _ _, _, _ => trivial

theorem sigsFit_of_short : ∀ (args : List MsgArg) (offset : Nat),
    offset + (argSigs args).length < 254 → SigsFit args offset
  | [], _, _ => trivial
  | arg :: args, offset, hshort => by
    simp only [argSigs, length_append] at hshort
    exact ⟨sigFits_of_short arg _ (by omega), sigsFit_of_short args _ (by omega)⟩
end

/-! ### Composing -/

variable {sig : Signature}

theorem closeType_ok (typeChar : UInt8) (hroom : sig.length ≤ 254) :
    closeType typeChar (.ok, sig) = (.ok, sig ++ [typeChar]) := by
  simp [closeType, show ¬254 < sig.length by omega]

theorem enter_ok {compose : Signature → QStatus × Signature} (hroom : sig.length ≤ 254) :
    enter compose sig = compose sig := by
  simp [enter, show ¬254 < sig.length by omega]

theorem elemChars_length (junk : Nat → UInt8) (elemSig sig : Signature) :
    (elemChars junk elemSig sig).length = elemSig.length := by
  unfold elemChars
  split <;> simp

/-- Taking the last character of an array's signature back and writing it
again leaves the buffer as it was. -/
theorem composeValue_array (junk : Nat → UInt8) (elemSig sig : Signature)
    (elements : List MsgArg) (hroom : sig.length + 1 + elemSig.length ≤ 255) :
    composeValue junk (.array (some elemSig) elements) sig =
      (.ok, sig ++ (array.char ::
        elemChars junk elemSig (sig ++ [array.char]))) := by
  have hlength := elemChars_length junk elemSig (sig ++ [array.char])
  let whole := sig ++ [array.char] ++ elemChars junk elemSig (sig ++ [array.char])
  have hnonempty : whole ≠ [] := by simp [whole]
  have hlast : whole.dropLast ++ [whole.getLastD 0] = whole := by
    rw [List.getLastD_eq_getLast?, List.getLast?_eq_some_getLast hnonempty]
    exact dropLast_append_getLast hnonempty
  have hshort : whole.dropLast.length ≤ 254 := by
    simp only [length_dropLast, whole, length_append, length_singleton]
    omega
  have hclose : composeValue junk (.array (some elemSig) elements) sig = (.ok, whole) := by
    have hstep := closeType_ok (whole.getLastD 0) hshort
    rw [hlast] at hstep
    simpa only [composeValue, Option.getD_some] using hstep
  rw [hclose]
  simp [whole]

/-- What is written for a value: the signature of its type where that fits,
and a signature cut off by a NUL where it does not and the buffer was zero. -/
structure Written (junk : Nat → UInt8) (fits : Prop) (type : Ty) (written : Signature) : Prop where
  length : written.length = type.sig.length
  fitting : fits → written = type.sig
  cut : ∀ {arrays structs : Nat}, type.Legal false arrays structs → junk = 0 → ¬fits →
    ∃ front tail, written = front ++ 0 :: tail ∧ CutOf front type
  zero : junk = 0 → ¬fits → 0 ∈ written

structure AllWritten (junk : Nat → UInt8) (fits : Prop) (types : List Ty) (written : Signature) :
    Prop where
  length : written.length = (sigs types).length
  fitting : fits → written = sigs types
  cut : ∀ {arrays structs : Nat}, AllLegal arrays structs types → junk = 0 → ¬fits →
    ∃ before type after front tail, types = before ++ type :: after ∧
      written = sigs before ++ (front ++ 0 :: tail) ∧ CutOf front type
  zero : junk = 0 → ¬fits → 0 ∈ written

theorem Written.single : Written junk True type type.sig :=
  ⟨rfl, fun _ => rfl, fun _ _ hnot => absurd trivial hnot, fun _ hnot => absurd trivial hnot⟩

theorem read_zero (pos count : Nat) : Lib.Bytes.read 0 pos count = List.replicate count 0 := by
  induction count generalizing pos with
  | zero => rfl
  | succ count ih => rw [Lib.Bytes.read, ih]; rfl

theorem written_array (junk : Nat → UInt8) (elemType : Ty) (sig : Signature) :
    Written junk (sig.length + 1 + elemType.sig.length < 254) (.array elemType)
      (array.char :: elemChars junk elemType.sig (sig ++ [array.char])) where
  length := by simp [elemChars_length, Ty.sig]
  fitting := by
    intro hfits
    have hcopied : (sig ++ [array.char]).length + elemType.sig.length < 254 := by
      simpa using hfits
    rw [elemChars, if_pos hcopied, Ty.sig]
  cut := by
    rintro arrays structs - rfl hnot
    have hskipped : ¬(sig ++ [array.char]).length + elemType.sig.length < 254 := by
      simpa using hnot
    obtain ⟨count, hcount⟩ := Nat.exists_eq_add_of_lt elemType.sig_length_pos
    refine ⟨[array.char], List.replicate count 0, ?_, .array elemType⟩
    rw [elemChars, if_neg hskipped, read_zero, hcount, Nat.zero_add]
    rfl
  zero := by
    rintro rfl hnot
    have hskipped : ¬(sig ++ [array.char]).length + elemType.sig.length < 254 := by
      simpa using hnot
    rw [elemChars, if_neg hskipped, read_zero]
    exact mem_cons_of_mem _ (mem_replicate.mpr ⟨elemType.sig_length_pos.ne', rfl⟩)

theorem Written.struct {fits : Prop} {written : Signature}
    (hwritten : AllWritten junk fits types written) :
    Written junk fits (.struct types)
      (structOpen.char :: (written ++ [structClose.char])) where
  length := by simp [Ty.sig, hwritten.length]
  fitting := by
    intro hfits
    rw [Ty.sig, hwritten.fitting hfits]
  cut := by
    intro arrays structs hlegal hjunk hnot
    obtain ⟨before, type, after, front, tail, rfl, rfl, hcut⟩ :=
      hwritten.cut hlegal.2.2 hjunk hnot
    exact ⟨_, tail ++ [structClose.char], by simp, .struct before after hcut⟩
  zero := by
    intro hjunk hnot
    exact mem_cons_of_mem _ (mem_append_left _ (hwritten.zero hjunk hnot))

theorem AllWritten.nil : AllWritten junk True [] [] :=
  ⟨rfl, fun _ => rfl, fun _ _ hnot => absurd trivial hnot, fun _ hnot => absurd trivial hnot⟩

theorem AllWritten.cons {fits fitsRest : Prop} {first rest : Signature}
    (hfirst : Written junk fits type first) (hrest : AllWritten junk fitsRest types rest) :
    AllWritten junk (fits ∧ fitsRest) (type :: types) (first ++ rest) where
  length := by simp [sigs, hfirst.length, hrest.length]
  fitting := by
    rintro ⟨hfits, hfitsRest⟩
    rw [sigs, hfirst.fitting hfits, hrest.fitting hfitsRest]
  cut := by
    rintro arrays structs ⟨hlegal, hlegals⟩ hjunk hnot
    cases Classical.em fits with
    | inl hfits =>
      obtain ⟨before, cutType, after, front, tail, rfl, rfl, hcut⟩ :=
        hrest.cut hlegals hjunk fun hfitsRest => hnot ⟨hfits, hfitsRest⟩
      refine ⟨type :: before, cutType, after, front, tail, rfl, ?_, hcut⟩
      rw [sigs, hfirst.fitting hfits, append_assoc]
    | inr hfits =>
      obtain ⟨front, tail, rfl, hcut⟩ := hfirst.cut hlegal hjunk hfits
      exact ⟨[], type, types, front, tail ++ rest, rfl, by simp [sigs], hcut⟩
  zero := by
    intro hjunk hnot
    cases Classical.em fits with
    | inl hfits =>
      have hfitsRest : ¬fitsRest := fun hfitsRest => hnot ⟨hfits, hfitsRest⟩
      exact mem_append_right _ (hrest.zero hjunk hfitsRest)
    | inr hfits => exact mem_append_left _ (hfirst.zero hjunk hfits)

mutual
/-- `MakeSignature` succeeds on every value whose signature has room. -/
theorem composeValue_typed (junk : Nat → UInt8) :
    ∀ {arg : MsgArg} {type : Ty} (sig : Signature), OfType arg type →
      sig.length + type.sig.length ≤ 255 →
      ∃ written, composeValue junk arg sig = (.ok, sig ++ written) ∧
        Written junk (SigFits arg sig.length) type written
  | .scalar _ _, _, sig, htype, hroom | .string _, _, sig, htype, hroom
  | .objectPath _, _, sig, htype, hroom => by
    cases htype
    simp only [Ty.sig, length_singleton] at hroom
    exact ⟨_, closeType_ok _ (by omega), .single⟩
  | .signature _, _, sig, htype, hroom | .variant _, _, sig, htype, hroom => by
    cases htype.1
    simp only [Ty.sig, length_singleton] at hroom
    exact ⟨_, closeType_ok _ (by omega), .single⟩
  | .scalarArray _ _, _, sig, htype, hroom => by
    cases htype
    simp only [Ty.sig, length_cons] at hroom
    refine ⟨_, ?_, .single⟩
    rw [composeValue, closeType_ok _ (by simp; omega)]
    simp [Ty.sig, char]
  | .array _ elements, _, sig, htype, hroom => by
    obtain ⟨elemType, rfl, rfl, -⟩ := htype
    simp only [Ty.sig, length_cons] at hroom
    exact ⟨_, composeValue_array junk elemType.sig sig elements (by omega),
      written_array junk elemType sig⟩
  | .struct members, _, sig, htype, hroom => by
    obtain ⟨types, rfl, hmembers⟩ := htype
    simp only [Ty.sig, length_cons, length_append] at hroom
    have hcount := length_le_sigs types
    have hlength := hmembers.length_eq
    obtain ⟨written, hcompose, hwritten⟩ := composeValues_typed junk
      (sig ++ [structOpen.char]) hmembers (by simp; omega)
    have hwrittenLength := hwritten.length
    refine ⟨_, ?_, Written.struct (by simpa [SigFits] using hwritten)⟩
    have hinner : (if members.isEmpty then (QStatus.ok, sig ++ [structOpen.char])
        else enter (composeValues junk (members.length % 256) members)
          (sig ++ [structOpen.char])) =
        (.ok, sig ++ [structOpen.char] ++ written) := by
      cases members with
      | nil => simpa [composeValues] using hcompose
      | cons member rest =>
        rw [Nat.mod_eq_of_lt (by omega), enter_ok (by simp; omega), hcompose]
        rfl
    rw [composeValue, hinner, closeType_ok _ (by simp; omega)]
    simp
  | .dictEntry key val, _, sig, htype, hroom => by
    obtain ⟨keyType, valType, rfl, hkey, hval⟩ := htype
    simp only [Ty.sig, length_cons, length_append] at hroom
    obtain ⟨keySig, hkeySig, hkeyWritten⟩ := composeValue_typed junk
      (sig ++ [dictEntryOpen.char]) hkey (by simp; omega)
    have hkeyLength := hkeyWritten.length
    obtain ⟨valSig, hvalSig, hvalWritten⟩ := composeValue_typed junk
      (sig ++ [dictEntryOpen.char] ++ keySig) hval (by simp; omega)
    have hoffset : (sig ++ [dictEntryOpen.char] ++ keySig).length =
        sig.length + 1 + key.sig.length := by
      rw [length_append, length_append, length_singleton, hkeyLength, hkey.sig_eq]
    rw [hoffset] at hvalWritten
    have hkeyOffset : (sig ++ [dictEntryOpen.char]).length = sig.length + 1 := by simp
    rw [hkeyOffset] at hkeyWritten
    have hboth := AllWritten.cons hkeyWritten (AllWritten.cons hvalWritten .nil)
    have hbothLength := hboth.length
    simp only [sigs, length_append] at hbothLength
    refine ⟨dictEntryOpen.char :: (keySig ++ (valSig ++ [dictEntryClose.char])),
      ?_, ?_, ?_, ?_, ?_⟩
    · rw [composeValue, enter_ok (by simp; omega), hkeySig]
      change closeType _ (enter _ _) = _
      rw [enter_ok (by simp; omega), hvalSig, closeType_ok _ (by simp; omega)]
      simp
    · simp only [Ty.sig, length_cons, length_append]
      omega
    · rintro ⟨hkeyFits, hvalFits⟩
      rw [Ty.sig, hkeyWritten.fitting hkeyFits, hvalWritten.fitting hvalFits]
    · intro arrays structs hlegal
      exact absurd hlegal.1 (by simp)
    · intro hjunk hnot
      have hzero := hboth.zero hjunk fun hfits => hnot ⟨hfits.1, hfits.2.1⟩
      rw [List.append_nil] at hzero
      rw [← append_assoc]
      exact mem_cons_of_mem _ (mem_append_left _ hzero)
  | .handle _, _, _, htype, _ | .invalid, _, _, htype, _ => htype.elim

theorem composeValues_typed (junk : Nat → UInt8) :
    ∀ {args : List MsgArg} {types : List Ty} (sig : Signature), OfTypes args types →
      sig.length + (sigs types).length ≤ 255 →
      ∃ written, composeValues junk args.length args sig = (.ok, sig ++ written) ∧
        AllWritten junk (SigsFit args sig.length) types written
  | [], _, sig, htypes, _ => by
    cases htypes
    exact ⟨[], by simp [composeValues], .nil⟩
  | arg :: args, _, sig, htypes, hroom => by
    obtain ⟨type, rest, rfl, harg, hargs⟩ := htypes
    simp only [sigs, length_append] at hroom
    obtain ⟨first, hfirst, hwritten⟩ := composeValue_typed junk sig harg (by omega)
    have hlength := hwritten.length
    obtain ⟨others, hothers, hwrittenRest⟩ := composeValues_typed junk (sig ++ first) hargs
      (by simp; omega)
    refine ⟨first ++ others, ?_, ?_⟩
    · rw [length_cons, composeValues, hfirst]
      change composeValues junk args.length args (sig ++ first) = _
      rw [hothers, append_assoc]
    · have hoffset : (sig ++ first).length = sig.length + arg.sig.length := by
        rw [length_append, hlength, harg.sig_eq]
      rw [hoffset] at hwrittenRest
      exact AllWritten.cons hwritten hwrittenRest
end

end AllJoyn.Wire
