import AllJoyn.Wire.Pieces

/-!
The stores that `SignatureUtils::MakeSignature` makes to the buffer of its
caller, which holds 256 characters, and what it leaves there.
-/

namespace AllJoyn.Wire

open Lib.Bytes List TypeId MsgArg

variable {result : QStatus × Signature} {stores : List Nat} {args : List MsgArg}

/-! ### The stores -/

/-- The store behind the length check at the end of the loop body. -/
def closeStore (result : QStatus × Signature) : List Nat :=
  if result.2.length > 254 ∨ result.1 ≠ .ok then [] else [result.2.length]

/-- The stores of a nested `MakeSignature`, which ends with a terminator. -/
def callStores (compose : Signature → QStatus × Signature) (stores : Signature → List Nat)
    (sig : Signature) : List Nat :=
  if sig.length > 254 then [] else stores sig ++ [(compose sig).2.length]

section Stores

variable (junk : Nat → UInt8)

mutual
/-- The places stored to in one turn of the loop of `MakeSignature`. -/
def valueStores : MsgArg → Signature → List Nat
  | .struct members, sig =>
    let opened := sig ++ [structOpen.char]
    sig.length ::
      (if members.isEmpty then closeStore (.ok, opened)
      else
        callStores (composeValues junk (members.length % 256) members)
            (valuesStores (members.length % 256) members) opened ++
          closeStore (enter (composeValues junk (members.length % 256) members) opened))
  | .dictEntry key val, sig =>
    let opened := sig ++ [dictEntryOpen.char]
    sig.length ::
      (callStores (composeValue junk key) (valueStores key) opened ++
        match enter (composeValue junk key) opened with
        | (.ok, sig) =>
          callStores (composeValue junk val) (valueStores val) sig ++
            closeStore (enter (composeValue junk val) sig)
        | failed => closeStore failed)
  | .array elemSig _, sig =>
    -- the element signature is copied if there is room
    let opened := sig ++ [array.char]
    let chars := elemChars junk (elemSig.getD []) opened
    let copied :=
      if opened.length + (elemSig.getD []).length < 254 then
        List.range' opened.length (elemSig.getD []).length
      else []
    sig.length :: (copied ++ closeStore (.ok, (opened ++ chars).dropLast))
  | .scalarArray _ _, sig => sig.length :: closeStore (.ok, sig ++ [array.char])
  | .invalid, sig => closeStore (.busBadValueType, sig)
  | .scalar _ _, sig | .string _, sig | .objectPath _, sig | .signature _, sig | .handle _, sig
  | .variant _, sig => closeStore (.ok, sig)

/-- The places stored to by the loop of `MakeSignature`. -/
def valuesStores : Nat → List MsgArg → Signature → List Nat
  | 0, _, _ => []
  | _ + 1, [], _ => []
  | numValues + 1, value :: values, sig =>
    valueStores value sig ++
      match composeValue junk value sig with
      | (.ok, sig) => valuesStores numValues values sig
      | _ => []
end

end Stores

/-! ### Where the stores end -/

theorem closeStore_le : ∀ place ∈ closeStore result, place ≤ 255 := by
  intro place hplace
  unfold closeStore at hplace
  split at hplace
  · cases hplace
  · rw [mem_singleton] at hplace
    omega

/-- The stores lie in the buffer or in front of the place where composing
ended. -/
def StoresUpTo (stores : List Nat) (result : QStatus × Signature) : Prop :=
  ∀ place ∈ stores, place ≤ max 255 result.2.length

theorem StoresUpTo.close (hstores : StoresUpTo stores result)
    (hok : result.1 = .ok → result.2.length ≤ 255) (letter : UInt8) :
    StoresUpTo (stores ++ closeStore result) (closeType letter result) := by
  intro place hplace
  rcases mem_append.mp hplace with hplace | hplace
  · have hle := hstores place hplace
    by_cases hresult : result.1 = .ok
    · have hlength := hok hresult
      omega
    · rwa [(closeType_failed hresult letter).2]
  · have hle := closeStore_le place hplace
    omega

theorem StoresUpTo.of_le (result : QStatus × Signature) (hstores : ∀ place ∈ stores, place ≤ 255) :
    StoresUpTo stores result :=
  fun place hplace => (hstores place hplace).trans (Nat.le_max_left _ _)

theorem StoresUpTo.append {first second : List Nat} (hfirst : StoresUpTo first result)
    (hsecond : StoresUpTo second result) : StoresUpTo (first ++ second) result :=
  fun place hplace => (mem_append.mp hplace).elim (hfirst place) (hsecond place)

theorem StoresUpTo.cons {place : Nat} (hplace : place ≤ 255) (hstores : StoresUpTo stores result) :
    StoresUpTo (place :: stores) result := by
  rintro other (_ | ⟨_, hother⟩)
  · exact hplace.trans (Nat.le_max_left _ _)
  · exact hstores other hother

variable {compose : Signature → QStatus × Signature} {parts : List Piece}

theorem callStores_upTo {stores : Signature → List Nat} (sig : Signature)
    (hstores : sig.length ≤ 255 → StoresUpTo (stores sig) (compose sig)) :
    StoresUpTo (callStores compose stores sig) (enter compose sig) := by
  intro place hplace
  unfold callStores at hplace
  split at hplace
  · cases hplace
  · next hroom =>
      rw [enter_ok (Nat.not_lt.mp hroom)]
      rcases mem_append.mp hplace with hplace | hplace
      · exact hstores (by omega) place hplace
      · rw [mem_singleton] at hplace
        omega

theorem enter_length_le {junk : Nat → UInt8} (sig : Signature)
    (hcompose : sig.length ≤ 255 → Composes junk parts sig (compose sig))
    (hok : (enter compose sig).1 = .ok) : (enter compose sig).2.length ≤ 255 := by
  unfold enter at hok ⊢
  split at hok
  · cases hok
  · next hroom =>
      rw [if_neg hroom]
      exact (hcompose (by omega)).length_le hok

mutual
theorem valueStores_upTo (junk : Nat → UInt8) : ∀ (arg : MsgArg) {sig : Signature},
    sig.length ≤ 255 → StoresUpTo (valueStores junk arg sig) (composeValue junk arg sig)
  | .struct members, sig, hroom => by
    rw [composeValue]
    refine .cons hroom ?_
    split
    · exact .of_le _ closeStore_le
    · have hcall := callStores_upTo (sig ++ [structOpen.char]) fun hsig =>
        valuesStores_upTo junk (members.length % 256) members hsig
      exact hcall.close (enter_length_le _ fun hsig =>
        composeValues_composes junk (members.length % 256) members hsig) _
  | .dictEntry key val, sig, hroom => by
    rw [composeValue]
    refine .cons hroom ?_
    have hkey := callStores_upTo (sig ++ [dictEntryOpen.char]) fun hsig =>
      valueStores_upTo junk key hsig
    have hlength := enter_length_le (sig ++ [dictEntryOpen.char]) fun hsig =>
      composeValue_composes junk key hsig
    generalize enter (composeValue junk key) (sig ++ [dictEntryOpen.char]) = result
      at hkey hlength ⊢
    obtain ⟨status, text⟩ := result
    cases status with
    | ok =>
      refine .append (.of_le _ fun place hplace => ?_) ?_
      · exact (hkey place hplace).trans (Nat.max_le.mpr ⟨le_rfl, hlength rfl⟩)
      · have hval := callStores_upTo text fun hsig => valueStores_upTo junk val hsig
        exact hval.close (enter_length_le _ fun hsig => composeValue_composes junk val hsig) _
    | _ => exact hkey.close (fun hok => by cases hok) _
  | .array elemSig _, sig, hroom => by
    refine .cons hroom (.of_le _ fun place hplace => ?_)
    rcases mem_append.mp hplace with hplace | hplace
    · split at hplace
      · have hrange := mem_range'_1.mp hplace
        omega
      · cases hplace
    · exact closeStore_le place hplace
  | .scalarArray _ _, sig, hroom => by
    exact .cons hroom (.of_le _ closeStore_le)
  | .invalid, sig, hroom => by
    exact .of_le _ closeStore_le
  | .scalar _ _, sig, hroom | .string _, sig, hroom | .objectPath _, sig, hroom
  | .signature _, sig, hroom | .handle _, sig, hroom | .variant _, sig, hroom => by
    exact .of_le _ closeStore_le

theorem valuesStores_upTo (junk : Nat → UInt8) :
    ∀ (numValues : Nat) (args : List MsgArg) {sig : Signature}, sig.length ≤ 255 →
      StoresUpTo (valuesStores junk numValues args sig) (composeValues junk numValues args sig)
  | 0, _, _, _ | _ + 1, [], _, _ => by
    rw [valuesStores]
    exact .of_le _ (by simp)
  | numValues + 1, arg :: args, sig, hroom => by
    have hfirst := valueStores_upTo junk arg hroom
    have hlength := (composeValue_composes junk arg hroom).length_le
    rw [valuesStores, composeValues]
    generalize composeValue junk arg sig = result at hfirst hlength ⊢
    obtain ⟨status, text⟩ := result
    cases status with
    | ok =>
      refine .append (.of_le _ fun place hplace => ?_) ?_
      · exact (hfirst place hplace).trans (Nat.max_le.mpr ⟨le_rfl, hlength rfl⟩)
      · exact valuesStores_upTo junk numValues args (hlength rfl)
    | _ => exact hfirst.append (.of_le _ (by simp))
end

/-! ### Signatures that are composed as they should -/

mutual
/-- A value without a type, at a place that the signature covers. -/
def MsgArg.hasInvalid : MsgArg → Bool
  | .invalid => true
  | .struct members => anyInvalid members
  | .dictEntry key val => key.hasInvalid || val.hasInvalid
  | _ => false

def anyInvalid : List MsgArg → Bool
  | [] => false
  | arg :: args => arg.hasInvalid || anyInvalid args
end

theorem sig_length_pos : ∀ {arg : MsgArg}, arg.hasInvalid = false → 1 ≤ arg.sig.length
  | .invalid, hvalid => by cases hvalid
  | .scalar _ _, _ | .string _, _ | .objectPath _, _ | .signature _, _ | .handle _, _
  | .variant _, _ | .struct _, _ | .dictEntry _ _, _ | .array _ _, _ | .scalarArray _ _, _ => by
    simp [sig]

theorem length_le_argSigs (hvalid : anyInvalid args = false) :
    args.length ≤ (argSigs args).length := by
  induction args with
  | nil => exact Nat.zero_le _
  | cons arg args ih =>
    rw [anyInvalid, Bool.or_eq_false_iff] at hvalid
    have harg := sig_length_pos hvalid.1
    have hargs := ih hvalid.2
    rw [argSigs, length_append, length_cons]
    omega

mutual
/-- A valid value whose signature ends in the buffer is composed as its
signature. -/
theorem pieces_fit : ∀ {arg : MsgArg} (offset : Nat), arg.hasInvalid = false →
    offset + arg.sig.length ≤ 255 →
      pieceText (pieces arg) = arg.sig ∧ stop (pieces arg) offset = none
  | .invalid, _, hvalid, _ => by cases hvalid
  | .scalar _ _, offset, _, hroom | .string _, offset, _, hroom | .objectPath _, offset, _, hroom
  | .signature _, offset, _, hroom | .handle _, offset, _, hroom | .variant _, offset, _, hroom => by
    simp only [sig, length_singleton] at hroom
    exact ⟨rfl, by simp [pieces, stop, Piece.early]; omega⟩
  | .struct members, offset, hvalid, hroom => by
    simp only [sig, length_cons, length_append] at hroom
    have hcount := length_le_argSigs hvalid
    have hmod : members.length % 256 = members.length := Nat.mod_eq_of_lt (by omega)
    obtain ⟨htext, hstop⟩ := memberPieces_fit (offset + 1) hvalid (by omega)
    rw [pieces, hmod]
    constructor
    · simp only [pieceText, flatMap_cons, flatMap_append] at htext ⊢
      rw [htext]
      rfl
    · rw [stop, if_neg (by simp only [Piece.early]; omega)]
      change stop _ (offset + 1) = none
      rw [stop_append, hstop, htext, stop,
        if_neg (by simp only [Piece.early]; omega)]
      rfl
  | .dictEntry key val, offset, hvalid, hroom => by
    simp only [sig, length_cons, length_append] at hroom
    rw [hasInvalid, Bool.or_eq_false_iff] at hvalid
    obtain ⟨hkey, hstopKey⟩ := pieces_fit (offset + 1) hvalid.1 (by omega)
    obtain ⟨hval, hstopVal⟩ := pieces_fit (offset + 1 + key.sig.length) hvalid.2 (by omega)
    have hentry : stop (.entry :: pieces val) (offset + 1 + key.sig.length) = none := by
      rw [stop, if_neg (by simp only [Piece.early]; omega)]
      exact hstopVal
    have hinner : pieceText (pieces key ++ .entry :: pieces val) = key.sig ++ val.sig := by
      rw [pieceText_append, hkey]
      exact congrArg _ hval
    rw [pieces]
    constructor
    · rw [← singleton_append, pieceText_append, pieceText_append, hinner, append_assoc]
      rfl
    · rw [stop, if_neg (by simp only [Piece.early]; omega)]
      change stop _ (offset + 1) = none
      rw [stop_append, stop_append, hstopKey, hkey, hentry, hinner, length_append, stop, if_neg (by simp only [Piece.early]; omega)]
      rfl
  | .array elemSig _, offset, _, hroom => by
    simp only [sig, length_cons] at hroom
    refine ⟨by simp [pieces, pieceText, Piece.text, sig], ?_⟩
    simp [pieces, stop, Piece.early]
    omega
  | .scalarArray _ _, offset, _, hroom => by
    simp only [sig, length_cons] at hroom
    refine ⟨rfl, ?_⟩
    simp [pieces, stop, Piece.early]
    omega

theorem memberPieces_fit : ∀ {args : List MsgArg} (offset : Nat), anyInvalid args = false →
    offset + (argSigs args).length ≤ 255 →
      pieceText (memberPieces args.length args) = argSigs args ∧
        stop (memberPieces args.length args) offset = none
  | [], _, _, _ => ⟨rfl, rfl⟩
  | arg :: args, offset, hvalid, hroom => by
    rw [anyInvalid, Bool.or_eq_false_iff] at hvalid
    rw [argSigs, length_append] at hroom
    obtain ⟨htext, hstop⟩ := pieces_fit offset hvalid.1 (by omega)
    obtain ⟨hrest, hstopRest⟩ := memberPieces_fit (offset + arg.sig.length) hvalid.2 (by omega)
    rw [length_cons, memberPieces, pieceText_append, hrest, stop_append,
      hstop, htext]
    exact ⟨rfl, hstopRest⟩
end

end AllJoyn.Wire
