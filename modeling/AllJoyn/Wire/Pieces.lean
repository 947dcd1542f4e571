import AllJoyn.Wire.Typed

/-!
The composing of a signature by `SignatureUtils::MakeSignature` in terms of
pieces. The length is checked at some places only: the characters of a piece
are stored, or counted, before the check. An element signature that reaches the
end of the buffer is counted and not copied, so that the former contents of the
buffer stay in its place.
-/

namespace AllJoyn.Wire

open Lib.Bytes List

variable {result : QStatus × Signature}

/-- What is written between two checks of the length. -/
inductive Piece where
  | char (letter : UInt8)
  | opening (letter : UInt8)
  | scalarArray (letter : UInt8)
  | array (elemSig : Signature)
  | entry
  | invalid
  deriving DecidableEq, Repr

open Piece

def Piece.text : Piece → Signature
  | .char letter | .opening letter => [letter]
  | .scalarArray letter => [TypeId.array.char, letter]
  | .array elemSig => TypeId.array.char :: elemSig
  | .entry | .invalid => []

/-- The characters that are counted before the length is checked. -/
def Piece.early : Piece → Nat
  | .opening _ | .scalarArray _ => 1
  | .array elemSig => elemSig.length
  | .char _ | .entry | .invalid => 0

theorem Piece.early_le (piece : Piece) :
    piece.early ≤ piece.text.length ∧ piece.text.length ≤ piece.early + 1 := by
  cases piece <;> simp [early, text]

mutual
/-- The pieces of the signature of a value. The number of members of a struct
is passed in a byte. -/
def pieces : MsgArg → List Piece
  | .invalid => [.invalid]
  | .scalar type _ => [.char type.char]
  | .string _ => [.char TypeId.string.char]
  | .objectPath _ => [.char TypeId.objectPath.char]
  | .signature _ => [.char TypeId.signature.char]
  | .handle _ => [.char TypeId.handle.char]
  | .variant _ => [.char TypeId.variant.char]
  | .struct members =>
    .opening TypeId.structOpen.char ::
      (memberPieces (members.length % 256) members ++ [.char TypeId.structClose.char])
  | .dictEntry key val =>
    .opening TypeId.dictEntryOpen.char ::
      (pieces key ++ .entry :: pieces val ++ [.char TypeId.dictEntryClose.char])
  | .array elemSig _ => [.array (elemSig.getD [])]
  | .scalarArray type _ => [.scalarArray type.char]

def memberPieces : Nat → List MsgArg → List Piece
  | 0, _ => []
  | _ + 1, [] => []
  | numValues + 1, value :: values => pieces value ++ memberPieces numValues values
end

/-- The characters of pieces. -/
def pieceText (parts : List Piece) : Signature := parts.flatMap Piece.text

/-- Where composing stops with an error, from position `offset` on. -/
def stop : List Piece → Nat → Option Nat
  | [], _ => none
  | piece :: parts, offset =>
    if offset + piece.early > 254 then some (offset + piece.early)
    else if piece = .invalid then some offset
    else stop parts (offset + piece.text.length)

/-- An element signature is copied to the buffer if it ends below 254. -/
def Piece.Copied : Piece → Nat → Prop
  | .array elemSig, offset => elemSig = [] ∨ offset + 1 + elemSig.length < 254
  | _, _ => True

def AllCopied : List Piece → Nat → Prop
  | [], _ => True
  | piece :: parts, offset => piece.Copied offset ∧ AllCopied parts (offset + piece.text.length)

variable (first second : List Piece)

theorem stop_append (offset : Nat) :
    stop (first ++ second) offset =
      (stop first offset).or (stop second (offset + (pieceText first).length)) := by
  induction first generalizing offset with
  | nil => rfl
  | cons piece parts ih =>
    rw [cons_append, stop, stop]
    split
    · rfl
    split
    · rfl
    · rw [ih, pieceText, pieceText, flatMap_cons, length_append, Nat.add_assoc]

theorem allCopied_append (offset : Nat) :
    AllCopied (first ++ second) offset ↔
      AllCopied first offset ∧ AllCopied second (offset + (pieceText first).length) := by
  induction first generalizing offset with
  | nil => simp [AllCopied, pieceText]
  | cons piece parts ih =>
    rw [cons_append, AllCopied, AllCopied, ih, pieceText, pieceText, flatMap_cons,
      length_append, Nat.add_assoc, and_assoc]

/-! ### Composing by pieces -/

theorem pieceText_append : pieceText (first ++ second) = pieceText first ++ pieceText second :=
  flatMap_append

/-- A result of composing `parts` behind `sig`. -/
structure Composes (junk : Nat → UInt8) (parts : List Piece) (sig : Signature)
    (result : QStatus × Signature) : Prop where
  stops : ∀ {place}, stop parts sig.length = some place →
    result.1 ≠ .ok ∧ result.2.length = place
  fits : stop parts sig.length = none → ∃ written, result = (.ok, sig ++ written) ∧
    written.length = (pieceText parts).length ∧ sig.length + written.length ≤ 255 ∧
    (AllCopied parts sig.length → written = pieceText parts) ∧
    (¬AllCopied parts sig.length →
      ∃ i < written.length, written.getD i 0 = junk (sig.length + i))

section Composing

variable {junk : Nat → UInt8} {parts : List Piece} {sig : Signature}

theorem Composes.nil (hroom : sig.length ≤ 255) : Composes junk [] sig (.ok, sig) where
  stops hstop := by cases hstop
  fits _ := ⟨[], by simp, rfl, hroom, fun _ => rfl, fun hnot => absurd trivial hnot⟩

theorem Composes.length_le (hresult : Composes junk parts sig result) (hok : result.1 = .ok) :
    result.2.length ≤ 255 := by
  cases hstop : stop parts sig.length with
  | some place => exact absurd hok (hresult.stops hstop).1
  | none =>
    obtain ⟨written, rfl, -, hroom, -⟩ := hresult.fits hstop
    simpa using hroom

theorem andThen_failed {next : Signature → QStatus × Signature} :
    result.1 ≠ .ok →
      (match result with | (.ok, sig) => next sig | failed => failed) = result := by
  intro hfailed
  obtain ⟨status, text⟩ := result
  cases status with
  | ok => exact absurd rfl hfailed
  | _ => rfl

theorem Composes.of_stop {place : Nat} (hstop : stop parts sig.length = some place)
    (hfailed : result.1 ≠ .ok) (hlength : result.2.length = place) :
    Composes junk parts sig result := by
  constructor
  · intro place' hplace
    rw [hstop] at hplace
    cases hplace
    exact ⟨hfailed, hlength⟩
  · intro hnone
    rw [hstop] at hnone
    cases hnone

theorem Composes.append {more : List Piece} {next : Signature → QStatus × Signature} :
    (∀ text : Signature, result = (.ok, text) → text.length ≤ 255 →
      Composes junk more text (next text)) → Composes junk parts sig result →
    Composes junk (parts ++ more) sig
      (match result with | (.ok, sig) => next sig | failed => failed) := by
  intro hnext hresult
  cases hstop : stop parts sig.length with
  | some place =>
    obtain ⟨hfailed, hlength⟩ := hresult.stops hstop
    rw [andThen_failed hfailed]
    exact .of_stop (by rw [stop_append, hstop, Option.some_or]) hfailed hlength
  | none =>
    obtain ⟨written, rfl, hlength, hroom, hcopied, hjunk⟩ := hresult.fits hstop
    have hmore := hnext (sig ++ written) rfl (by simpa using hroom)
    have hstart : (sig ++ written).length = sig.length + (pieceText parts).length := by
      rw [length_append, hlength]
    have hstops : stop (parts ++ more) sig.length = stop more (sig ++ written).length := by
      rw [stop_append, hstop, Option.none_or, hstart]
    constructor
    · intro place hplace
      exact hmore.stops (hstops ▸ hplace)
    · intro hnone
      obtain ⟨others, hothers, hotherLength, hotherRoom, hotherCopied, hotherJunk⟩ :=
        hmore.fits (hstops ▸ hnone)
      refine ⟨written ++ others, ?_, ?_, ?_, ?_, ?_⟩
      · change next (sig ++ written) = _
        rw [hothers, append_assoc]
      · rw [pieceText_append, length_append, length_append, hlength, hotherLength]
      · rw [length_append] at hotherRoom ⊢
        omega
      · intro hall
        rw [allCopied_append, ← hstart] at hall
        rw [hcopied hall.1, hotherCopied hall.2, pieceText_append]
      · intro hnot
        rw [allCopied_append, ← hstart, not_and_or] at hnot
        rcases hnot with hnot | hnot
        · obtain ⟨i, hi, hchar⟩ := hjunk hnot
          refine ⟨i, by rw [length_append]; omega, ?_⟩
          rw [← hchar, getD_eq_getElem?_getD, List.getElem?_append_left hi,
            getD_eq_getElem?_getD]
        · obtain ⟨i, hi, hchar⟩ := hotherJunk hnot
          refine ⟨written.length + i, by rw [length_append]; omega, ?_⟩
          rw [getD_eq_getElem?_getD, List.getElem?_append_right (Nat.le_add_right _ _),
            Nat.add_sub_cancel_left, ← getD_eq_getElem?_getD, hchar, length_append,
            Nat.add_assoc]

variable {piece : Piece}

theorem Composes.single (hvalid : piece ≠ .invalid) (hfull : 254 < sig.length + piece.early →
      result.1 ≠ .ok ∧ result.2.length = sig.length + piece.early)
    (hroom : sig.length + piece.early ≤ 254 → ∃ written, result = (.ok, sig ++ written) ∧
      written.length = piece.text.length ∧ sig.length + written.length ≤ 255 ∧
      (piece.Copied sig.length → written = piece.text) ∧
      (¬piece.Copied sig.length → ∃ i < written.length, written.getD i 0 = junk (sig.length + i))) :
    Composes junk [piece] sig result := by
  have hstop : stop [piece] sig.length =
      if 254 < sig.length + piece.early then some (sig.length + piece.early) else none := by
    simp [stop, hvalid]
  have hcopied : AllCopied [piece] sig.length ↔ piece.Copied sig.length := by simp [AllCopied]
  have htext : pieceText [piece] = piece.text := by simp [pieceText]
  constructor
  · intro place hplace
    rw [hstop] at hplace
    split at hplace
    · next hlong =>
        cases hplace
        exact hfull hlong
    · cases hplace
  · intro hnone
    rw [hstop] at hnone
    split at hnone
    · cases hnone
    · next hshort =>
        rw [hcopied, htext]
        exact hroom (Nat.not_lt.mp hshort)

theorem Composes.cons (hvalid : piece ≠ .invalid) (hearly : sig.length + piece.early ≤ 254)
    (hcopied : piece.Copied sig.length) (hresult : Composes junk parts (sig ++ piece.text) result) :
    Composes junk (piece :: parts) sig result := by
  have hlength := piece.early_le
  have hpiece : Composes junk [piece] sig (.ok, sig ++ piece.text) := by
    apply Composes.single hvalid
    · omega
    · intro _
      exact ⟨_, rfl, rfl, by omega, fun _ => rfl, fun hnot => absurd hcopied hnot⟩
  refine @Composes.append (.ok, sig ++ piece.text) junk [piece] sig parts (fun _ => result) ?_ hpiece
  intro text htext _
  cases htext
  exact hresult

theorem closeType_failed (hfailed : result.1 ≠ .ok) (letter : UInt8) :
    (closeType letter result).1 ≠ .ok ∧ (closeType letter result).2 = result.2 := by
  simp only [closeType]
  split
  · exact ⟨by simp, rfl⟩
  · exact ⟨hfailed, rfl⟩

theorem composes_char (letter : UInt8) :
    Composes junk [.char letter] sig (closeType letter (.ok, sig)) := by
  apply Composes.single (by simp)
  · intro hfull
    simp only [early, Nat.add_zero] at hfull
    simp [closeType, hfull, early]
  · intro hroom
    refine ⟨[letter], closeType_ok letter hroom, rfl, ?_, fun _ => rfl, ?_⟩
    · rw [length_singleton]
      omega
    · exact fun hnot => absurd trivial hnot

theorem Composes.close (hresult : Composes junk parts sig result) (letter : UInt8) :
    Composes junk (parts ++ [.char letter]) sig (closeType letter result) := by
  have hthen := Composes.append (fun sig _ _ => composes_char letter) hresult
  cases hstop : stop parts sig.length with
  | none =>
    obtain ⟨written, rfl, -⟩ := hresult.fits hstop
    exact hthen
  | some place =>
    obtain ⟨hfailed, hlength⟩ := hresult.stops hstop
    obtain ⟨hstatus, htext⟩ := closeType_failed hfailed letter
    exact .of_stop (by rw [stop_append, hstop, Option.some_or]) hstatus (htext ▸ hlength)

/-- An opening bracket, the members and the closing bracket. Without room for a
member behind the opening bracket nothing is written. -/
theorem Composes.bracket (opening closing : UInt8)
    (hinner : sig.length + 1 ≤ 254 → Composes junk parts (sig ++ [opening]) result)
    (hfull : 254 < sig.length + 1 → result.2 = sig ++ [opening]) :
    Composes junk (.opening opening :: (parts ++ [.char closing])) sig
      (closeType closing result) := by
  rcases Nat.lt_or_ge 254 (sig.length + 1) with hlong | hshort
  · have hstop : stop (.opening opening :: (parts ++ [.char closing])) sig.length =
        some (sig.length + 1) := by
      exact if_pos hlong
    have hlength : result.2.length = sig.length + 1 := by rw [hfull hlong, length_append]; rfl
    have hclose : closeType closing result = (.busBadValue, result.2) := by
      exact if_pos (hlength ▸ hlong)
    rw [hclose]
    exact .of_stop hstop (by simp) hlength
  · exact ((hinner hshort).close closing).cons (by simp) hshort trivial

theorem composes_entry {compose : Signature → QStatus × Signature}
    (hcompose : Composes junk parts sig (compose sig)) :
    Composes junk (.entry :: parts) sig (enter compose sig) := by
  rcases Nat.lt_or_ge 254 sig.length with hlong | hshort
  · have hstop : stop (.entry :: parts) sig.length = some sig.length := by
      exact if_pos hlong
    have henter : enter compose sig = (.busBadValue, sig) := if_pos hlong
    rw [henter]
    exact .of_stop hstop (by simp) rfl
  · rw [enter_ok hshort]
    have hearly : sig.length + entry.early ≤ 254 := hshort
    apply Composes.cons (by simp) hearly trivial
    rwa [text, List.append_nil]

theorem composes_array (elemSig : Option Signature) (elements : List MsgArg) :
    Composes junk [.array (elemSig.getD [])] sig
      (composeValue junk (.array elemSig elements) sig) := by
  apply Composes.single (by simp)
  · intro hfull
    simp only [early] at hfull
    rw [composeValue]
    simp [closeType, elemChars_length, early, hfull]
  · intro hroom
    simp only [early] at hroom
    have hsome : composeValue junk (.array elemSig elements) sig =
        composeValue junk (.array (some (elemSig.getD [])) elements) sig := by
      rw [composeValue, composeValue, Option.getD_some]
    rw [hsome, composeValue_array junk _ _ _ (by omega)]
    have hlength := elemChars_length junk (elemSig.getD []) (sig ++ [TypeId.array.char])
    refine ⟨_, rfl, ?_, ?_, ?_, ?_⟩
    · simp [text, hlength]
    · rw [length_cons]
      omega
    · rintro (hempty | hshort)
      · rw [hempty] at hlength ⊢
        rw [length_eq_zero_iff.mp hlength]
        rfl
      · rw [elemChars, length_append, length_singleton, if_pos hshort]
        rfl
    · intro hnot
      rw [Piece.Copied, not_or] at hnot
      have hpositive := length_pos_iff.mpr hnot.1
      refine ⟨1, by rw [length_cons]; omega, ?_⟩
      rw [elemChars, length_append, length_singleton, if_neg hnot.2]
      obtain ⟨count, hcount⟩ := Nat.exists_eq_succ_of_ne_zero hpositive.ne'
      rw [hcount]
      rfl

theorem composes_scalarArray (letter : UInt8) :
    Composes junk [.scalarArray letter] sig
      (closeType letter (.ok, sig ++ [TypeId.array.char])) := by
  apply Composes.single (by simp)
  · intro hfull
    simp only [early] at hfull
    simp [closeType, early, hfull]
  · intro hroom
    simp only [early] at hroom
    refine ⟨[TypeId.array.char, letter], ?_, rfl, ?_, fun _ => rfl, ?_⟩
    · rw [closeType_ok letter (by simpa using hroom), append_assoc]
      rfl
    · change sig.length + 2 ≤ 255
      omega
    · exact fun hnot => absurd trivial hnot

theorem composes_invalid (letter : UInt8) :
    Composes junk [.invalid] sig (closeType letter (.busBadValueType, sig)) := by
  obtain ⟨hstatus, htext⟩ :=
    closeType_failed (show (QStatus.busBadValueType, sig).1 ≠ .ok by simp) letter
  have hstop : stop [.invalid] sig.length = some sig.length := by simp [stop, early]
  exact .of_stop hstop hstatus (congrArg List.length htext)

end Composing

mutual
theorem composeValue_composes (junk : Nat → UInt8) : ∀ (arg : MsgArg) {sig : Signature},
    sig.length ≤ 255 → Composes junk (pieces arg) sig (composeValue junk arg sig)
  | .invalid, sig, hroom => by
    exact composes_invalid 0
  | .scalar type _, sig, hroom => by
    exact (Composes.nil hroom).close _
  | .string _, sig, hroom | .objectPath _, sig, hroom | .signature _, sig, hroom
  | .handle _, sig, hroom | .variant _, sig, hroom => by
    exact (Composes.nil hroom).close _
  | .struct members, sig, hroom => by
    apply Composes.bracket
    · intro hshort
      have hopened : (sig ++ [TypeId.structOpen.char]).length ≤ 254 := by simpa using hshort
      have hmembers := composeValues_composes junk (members.length % 256) members
        (hopened.trans (by decide))
      split
      · next hempty =>
          rw [List.isEmpty_iff.mp hempty] at hmembers ⊢
          exact hmembers
      · rwa [enter_ok hopened]
    · intro hfull
      split
      · rfl
      · simp [enter, hfull]
  | .dictEntry key val, sig, hroom => by
    apply Composes.bracket
    · intro hshort
      have hopened : (sig ++ [TypeId.dictEntryOpen.char]).length ≤ 254 := by simpa using hshort
      apply Composes.append
      · exact fun sig _ hsig => composes_entry (composeValue_composes junk val hsig)
      · rw [enter_ok hopened]
        exact composeValue_composes junk key (hopened.trans (by decide))
    · intro hfull
      simp [enter, hfull]
  | .array elemSig elements, sig, hroom => by
    exact composes_array elemSig elements
  | .scalarArray type _, sig, hroom => by
    exact composes_scalarArray _

theorem composeValues_composes (junk : Nat → UInt8) :
    ∀ (numValues : Nat) (args : List MsgArg) {sig : Signature}, sig.length ≤ 255 →
      Composes junk (memberPieces numValues args) sig (composeValues junk numValues args sig)
  | 0, _, sig, hroom => by
    rw [memberPieces, composeValues]
    exact .nil hroom
  | _ + 1, [], sig, hroom => .nil hroom
  | numValues + 1, arg :: args, sig, hroom => by
    apply Composes.append
    · exact fun sig _ hsig => composeValues_composes junk numValues args hsig
    · exact composeValue_composes junk arg hroom
end

end AllJoyn.Wire
