import AllJoyn.Wire.Values

/-!
`SignatureUtils::GetSize`, which computes the room for a message body before it
is marshalled, agrees with `MarshalArgs`. It follows the padding rules on its
own and does not look at the elements of an array for their signature.
-/

namespace AllJoyn.Wire

open Lib.Bytes Lib.Result TypeId List Nat

/-- `PadUp`. With an alignment of zero the mask clears all bits. -/
def padUp (n alignment : Nat) : Nat := if alignment = 0 then 0 else align n alignment

section GetSize

variable (junk : Nat → UInt8)

mutual
/-- One turn of the loop of `GetSize`, none where it returns zero at once. A
nested call on a single value returns zero in that case. -/
def sizeValue : MsgArg → Nat → Option Nat
  | .invalid, _ => none
  | .scalar type _, sz => some (padUp sz type.size + type.size)
  | .string str, sz => some (padUp sz 4 + 4 + (str.getD []).length + 1)
  | .objectPath str, sz => some (padUp sz 4 + 4 + (str.getD []).length + 1)
  | .signature sig, sz => some (sz + (1 + (sig.getD []).length + 1))
  | .handle _, sz => some (padUp sz 4 + 4)
  | .variant val, sz =>
    some ((sizeValue val (sz + 1 + (makeSignature junk [val]).2.length + 1)).getD 0)
  | .struct members, sz => some (getSize members (padUp sz 8))
  | .dictEntry key val, sz =>
    some ((sizeValue val ((sizeValue key (padUp sz 8)).getD 0)).getD 0)
  | .array elemSig elements, sz =>
    if elements.isEmpty then
      some (padUp (padUp sz 4 + 4) (elemAlignment (elemSig.getD [])))
    else some (getSize elements (padUp sz 4 + 4))
  | .scalarArray type values, sz =>
    let sz := padUp sz 4 + 4
    some ((if type.size = 8 then padUp sz 8 else sz) + type.size * values.length)

def getSize : List MsgArg → Nat → Nat
  | [], sz => sz
  | value :: values, sz =>
    match sizeValue value sz with
    | none => 0
    | some sz => getSize values sz
end

end GetSize

mutual
/-- Every array in the argument has an element signature that starts with the
character of a type. -/
def MsgArg.WellFormed : MsgArg → Prop
  | .variant val => val.WellFormed
  | .struct members => AllWellFormed members
  | .dictEntry key val => key.WellFormed ∧ val.WellFormed
  | .array elemSig elements =>
    elemAlignment (elemSig.getD []) ≠ 0 ∧ AllWellFormed elements
  | _ => True

def AllWellFormed : List MsgArg → Prop
  | [] => True
  | arg :: args => arg.WellFormed ∧ AllWellFormed args
end

/-! ### Composing a signature -/

/-- Two results of composing that differ in characters only, the first of which
adds to `front`. -/
structure Alike (front : Signature) (first second : QStatus × Signature) : Prop where
  status : first.1 = second.1
  length : first.2.length = second.2.length
  front : front <+: first.2

section Alike

variable {front : Signature} {first second : QStatus × Signature}

theorem Alike.shorten {char : UInt8} (halike : Alike (front ++ [char]) first second) :
    Alike front first second :=
  ⟨halike.status, halike.length, (prefix_append front [char]).trans halike.front⟩

theorem closeType_alike (halike : Alike front first second) (typeChar typeChar' : UInt8) :
    Alike front (closeType typeChar first) (closeType typeChar' second) := by
  obtain ⟨status, sig⟩ := first
  obtain ⟨rfl, hlength, hfront⟩ := halike
  simp only [closeType, hlength]
  split
  · exact ⟨rfl, hlength, hfront⟩
  split
  · exact ⟨rfl, by simp [hlength], hfront.trans (prefix_append sig _)⟩
  · exact ⟨rfl, hlength, hfront⟩

theorem closeType_startsWith (hfront : front <+: first.2) (typeChar : UInt8) :
    front <+: (closeType typeChar first).2 :=
  (closeType_alike ⟨rfl, rfl, hfront⟩ typeChar typeChar).front

theorem enter_alike {compose compose' : Signature → QStatus × Signature} {sig sig' : Signature}
    (hlength : sig.length = sig'.length) (halike : Alike sig (compose sig) (compose' sig')) :
    Alike sig (enter compose sig) (enter compose' sig') := by
  unfold enter
  rw [hlength]
  split
  · exact ⟨rfl, hlength, prefix_rfl⟩
  · exact halike

theorem Alike.andThen {next next' : Signature → QStatus × Signature}
    (hnext : ∀ sig sig' : Signature, sig.length = sig'.length →
      Alike sig (next sig) (next' sig')) :
    Alike front first second →
    Alike front (match first with | (.ok, sig) => next sig | failed => failed)
      (match second with | (.ok, sig) => next' sig | failed => failed) := by
  intro halike
  obtain ⟨status, sig⟩ := first
  obtain ⟨status', sig'⟩ := second
  obtain ⟨rfl, hlength, hfront⟩ := halike
  cases status with
  | ok =>
    obtain ⟨hstatus, hlength, hmore⟩ := hnext sig sig' hlength
    exact ⟨hstatus, hlength, hfront.trans hmore⟩
  | _ => exact ⟨rfl, hlength, hfront⟩

end Alike

variable {arg : MsgArg} {elemSig : Signature} {pos : Nat} {env : MarshalEnv}

mutual
/-- Composing adds to a signature, by a length that does not depend on what its
buffer held. -/
theorem composeValue_alike (junk junk' : Nat → UInt8) :
    ∀ (arg : MsgArg) {sig sig' : Signature}, sig.length = sig'.length →
      Alike sig (composeValue junk arg sig) (composeValue junk' arg sig')
  | .invalid, _, _, hlength | .scalar _ _, _, _, hlength | .string str, _, _, hlength
  | .objectPath str, _, _, hlength | .signature str, _, _, hlength
  | .handle str, _, _, hlength | .variant str, _, _, hlength => by
    apply closeType_alike
    exact ⟨rfl, hlength, prefix_rfl⟩
  | .struct members, sig, sig', hlength => by
    apply closeType_alike
    have hopen : (sig ++ [structOpen.char]).length =
        (sig' ++ [structOpen.char]).length := by simp [hlength]
    apply Alike.shorten
    split
    · exact ⟨rfl, hopen, prefix_rfl⟩
    · exact enter_alike hopen (composeValues_alike junk junk' _ members hopen)
  | .dictEntry key val, sig, sig', hlength => by
    apply closeType_alike
    have hopen : (sig ++ [dictEntryOpen.char]).length =
        (sig' ++ [dictEntryOpen.char]).length := by simp [hlength]
    apply Alike.shorten
    apply Alike.andThen
    · exact fun _ _ hkey => enter_alike hkey (composeValue_alike junk junk' val hkey)
    · exact enter_alike hopen (composeValue_alike junk junk' key hopen)
  | .array elemSig elements, sig, sig', hlength => by
    rw [composeValue, composeValue]
    apply closeType_alike
    refine ⟨rfl, by simp [elemChars_length, hlength], ?_⟩
    rw [append_assoc, singleton_append, dropLast_append_cons]
    exact prefix_append sig _
  | .scalarArray type values, sig, _, hlength => by
    apply closeType_alike
    exact ⟨rfl, by simp [hlength], prefix_append sig _⟩

theorem composeValues_alike (junk junk' : Nat → UInt8) :
    ∀ (numValues : Nat) (args : List MsgArg) {sig sig' : Signature}, sig.length = sig'.length →
      Alike sig (composeValues junk numValues args sig) (composeValues junk' numValues args sig')
  | 0, _, _, _, hlength => by
    rw [composeValues, composeValues]
    exact ⟨rfl, hlength, prefix_rfl⟩
  | _ + 1, [], _, _, hlength => ⟨rfl, hlength, prefix_rfl⟩
  | numValues + 1, arg :: args, _, _, hlength => by
    apply Alike.andThen
    · exact fun _ _ hrest => composeValues_alike junk junk' numValues args hrest
    · exact composeValue_alike junk junk' arg hlength
end

variable (junk : Nat → UInt8)

theorem makeSignature_single (arg : MsgArg) :
    (makeSignature junk [arg]).2 = (composeValue junk arg []).2 := by
  change (composeValues junk 1 [arg] []).2 = _
  rw [composeValues]
  rcases composeValue junk arg [] with ⟨status, sig⟩
  cases status <;> rfl

theorem makeSignature_length (junk junk' : Nat → UInt8) (arg : MsgArg) :
    (makeSignature junk [arg]).2.length = (makeSignature junk' [arg]).2.length := by
  rw [makeSignature_single, makeSignature_single]
  exact (composeValue_alike junk junk' arg rfl).length

/-- The first character of a signature is of a type with the alignment of the
value. -/
theorem composeValue_first :
    ∀ {arg : MsgArg}, arg.alignment ≠ 0 →
      ∃ id : TypeId, id ≠ .invalid ∧ id.alignment = arg.alignment ∧
        [id.char] <+: (composeValue junk arg []).2
  | .invalid, hinvalid => absurd rfl hinvalid
  | .scalar type _, _ => ⟨.scalar type, by simp, rfl, prefix_rfl⟩
  | .string _, _ => ⟨.string, by simp, rfl, prefix_rfl⟩
  | .objectPath _, _ => ⟨.objectPath, by simp, rfl, prefix_rfl⟩
  | .signature _, _ => ⟨.signature, by simp, rfl, prefix_rfl⟩
  | .handle _, _ => ⟨.handle, by simp, rfl, prefix_rfl⟩
  | .variant _, _ => ⟨.variant, by simp, rfl, prefix_rfl⟩
  | .struct members, _ => by
    refine ⟨.structOpen, by simp, rfl, ?_⟩
    apply closeType_startsWith
    split
    · exact prefix_rfl
    · exact (enter_alike rfl (composeValues_alike junk junk _ members rfl)).front
  | .dictEntry key val, _ => by
    refine ⟨.dictEntryOpen, by simp, rfl, ?_⟩
    apply closeType_startsWith
    have hkey : Alike [dictEntryOpen.char] _ _ :=
      enter_alike rfl (composeValue_alike junk junk key rfl)
    exact (Alike.andThen (fun _ _ hval =>
      enter_alike hval (composeValue_alike junk junk val hval)) hkey).front
  | .array elemSig _, _ => by
    refine ⟨.array, by simp, rfl, ?_⟩
    rw [composeValue]
    simp only [nil_append]
    cases elemChars junk (elemSig.getD []) [array.char] with
    | nil => exact prefix_rfl
    | cons char chars =>
      apply closeType_startsWith
      exact prefix_append [array.char] _
  | .scalarArray type _, _ => ⟨.array, by simp, rfl, prefix_append [array.char] _⟩

/-- An element whose signature is that of the array has the alignment that the
signature tells. -/
theorem hasSignature_alignment {junk : Nat → UInt8} (harg : arg.alignment ≠ 0)
    (hsig : arg.hasSignature junk elemSig = true) : elemAlignment elemSig = arg.alignment := by
  obtain ⟨id, hid, halignment, rest, hrest⟩ := composeValue_first junk harg
  rw [MsgArg.hasSignature, beq_iff_eq, makeSignature_single, ← hrest] at hsig
  have hchar : decide (id.char ≠ 0) = true := by simpa using char_ne_zero hid
  rw [← hsig, ← halignment, elemAlignment, cString, singleton_append, takeWhile_cons,
    if_pos hchar, headD_cons, ofChar_char]

/-! ### The room for a body -/

variable {sz : Nat}

theorem align_add_mod (hmod : pos % 8 = sz % 8) (alignment : Nat) :
    align pos alignment % 8 = (sz + padBytes pos alignment) % 8 := by
  rw [align]
  omega

theorem padUp_eq (hmod : pos % 8 = sz % 8) {alignment : Nat} (hdvd : alignment ∣ 8) :
    padUp sz alignment = sz + padBytes pos alignment := by
  have hpositive : alignment ≠ 0 := fun hzero => by simp [hzero] at hdvd
  rw [padUp, if_neg hpositive, align, padBytes_congr hmod hdvd]

theorem TypeId.alignment_cases {id : TypeId} (hid : id.alignment ≠ 0) :
    id.alignment = 8 ∨ id.alignment ∣ 4 := by
  cases id with
  | scalar type => cases type <;> decide
  | string | objectPath | array | handle => decide
  | variant | signature => decide
  | struct | structOpen | dictEntry | dictEntryOpen => decide
  | _ => exact absurd rfl hid

/-- The padding in front of a value may be counted before the value. -/
theorem sizeValue_align (sz : Nat) (harg : arg.alignment = 8) :
    sizeValue junk arg (align sz 8) = sizeValue junk arg sz := by
  have halign : align (align sz 8) 8 = align sz 8 := align_of_dvd (dvd_align sz 8 (by decide))
  cases arg with
  | scalar type value =>
    change type.size = 8 at harg
    simp [sizeValue, padUp, harg, halign]
  | struct members => simp [sizeValue, padUp, halign]
  | dictEntry key val => simp [sizeValue, padUp, halign]
  | _ => cases harg

variable {elements : List MsgArg}

theorem marshalBody_array_signatures {body : List UInt8}
    (hmarshal : marshalBody env (.array (some elemSig) elements) pos = .ok body) :
    ∀ element ∈ elements, element.hasSignature env.junk elemSig = true := by
  rw [marshalBody] at hmarshal
  split at hmarshal
  · next hall => exact all_eq_true.mp hall
  · cases hmarshal

variable {bytes : List UInt8}

theorem marshalBody_alignment (hmarshal : marshalBody env arg pos = .ok bytes) :
    arg.alignment ≠ 0 := by
  cases arg with
  | invalid => simp [marshalBody] at hmarshal
  | scalar type value => exact type.size_pos.ne'
  | _ => simp [MsgArg.alignment, MsgArg.typeId, alignment]

/-- Where the elements of an array start, and where `GetSize` lets them. -/
theorem getSize_elements {junk : Nat → UInt8} (hwell : elemAlignment elemSig ≠ 0) (hpos : 4 ∣ pos)
    (hmod : pos % 8 = sz % 8)
    (hsignatures : ∀ element ∈ elements, element.hasSignature env.junk elemSig = true)
    (hmarshal : marshalArgs env elements (elemStart (elemAlignment elemSig) pos) = .ok bytes)
    (hsize : ∀ sz, elemStart (elemAlignment elemSig) pos % 8 = sz % 8 →
      getSize junk elements sz = sz + bytes.length) :
    (if elements.isEmpty then padUp sz (elemAlignment elemSig) else getSize junk elements sz) =
      sz + (elemPadding (elemAlignment elemSig) pos).length + bytes.length := by
  have hcases : elemAlignment elemSig = 8 ∨ elemAlignment elemSig ∣ 4 :=
    alignment_cases hwell
  rcases hcases with height | hsmall
  · have hpad : (elemPadding (elemAlignment elemSig) pos).length = padBytes pos 8 := by
      simp [elemPadding, height]
    have hstart : elemStart (elemAlignment elemSig) pos % 8 = align sz 8 % 8 := by
      rw [elemStart, align, ← padBytes_congr hmod (dvd_refl 8)]
      omega
    rw [hpad]
    cases elements with
    | nil =>
      cases hmarshal
      simp [height, padUp_eq hmod (dvd_refl 8)]
    | cons element others =>
      obtain ⟨inner, rest, hinner, -, -⟩ := marshalArgs_cons_inv hmarshal
      have halignment : element.alignment = 8 := by
        rw [← hasSignature_alignment (marshalBody_alignment hinner)
          (hsignatures element mem_cons_self), height]
      have hshift : getSize junk (element :: others) sz =
          getSize junk (element :: others) (align sz 8) := by
        rw [getSize, getSize, sizeValue_align junk sz halignment]
      rw [if_neg (by simp), hshift, hsize _ hstart, align, padBytes_congr hmod (dvd_refl 8)]
  · have hnot : elemAlignment elemSig ≠ 8 := by
      intro height
      rw [height] at hsmall
      revert hsmall
      decide
    have hpad : elemPadding (elemAlignment elemSig) pos = [] := if_neg hnot
    have hsame : padBytes pos (elemAlignment elemSig) = 0 := padBytes_of_dvd (hsmall.trans hpos)
    rw [elemStart, hpad] at hsize hmarshal
    rw [hpad, length_nil, Nat.add_zero]
    cases elements with
    | nil =>
      cases hmarshal
      simp [padUp_eq hmod (hsmall.trans (by decide)), hsame]
    | cons element others => rw [if_neg (by simp), hsize sz hmod]

mutual
/-- `GetSize` of a value that is marshalled at a position of the same
remainder. -/
theorem marshalBody_size (env : MarshalEnv) (junk : Nat → UInt8) :
    ∀ {arg : MsgArg} {pos sz : Nat} {bytes : List UInt8}, arg.WellFormed → pos % 8 = sz % 8 →
      marshalBody env arg (align pos arg.alignment) = .ok bytes →
      sizeValue junk arg sz = some (sz + padBytes pos arg.alignment + bytes.length)
  | .invalid, _, _, _, _, _, hmarshal => by simp [marshalBody] at hmarshal
  | .scalar type value, _, sz, _, _, hmod, hmarshal => by
    cases hmarshal
    rw [sizeValue, padUp_eq hmod type.size_dvd, word_length]
    rfl
  | .string str, _, sz, _, _, hmod, hmarshal => by
    cases hmarshal
    rw [sizeValue, padUp_eq hmod (by decide), stringBytes_length, Nat.add_assoc, Nat.add_assoc]
    rfl
  | .objectPath str, _, sz, _, _, hmod, hmarshal => by
    rw [marshalBody] at hmarshal
    split at hmarshal
    · cases hmarshal
    · cases hmarshal
      rw [sizeValue, padUp_eq hmod (by decide), stringBytes_length, Nat.add_assoc, Nat.add_assoc]
      rfl
  | .signature sig, pos, sz, _, _, _, hmarshal => by
    cases hmarshal
    change _ = some (sz + padBytes pos 1 + _)
    rw [sizeValue, signatureBytes_length, padBytes_one, Nat.add_zero sz]
  | .handle fd, _, sz, _, _, hmod, hmarshal => by
    obtain ⟨index, -, hbytes⟩ := bind_eq_ok.mp hmarshal
    cases hbytes
    rw [sizeValue, padUp_eq hmod (by decide), word_length]
    rfl
  | .variant val, pos, sz, bytes, hwell, hmod, hmarshal => by
    change marshalBody env (.variant val) (align pos 1) = _ at hmarshal
    rw [align_one] at hmarshal
    obtain ⟨sig, hsig⟩ : ∃ sig, makeSignature env.junk [val] = (.ok, sig) := by
      rw [marshalBody] at hmarshal
      split at hmarshal
      · next sig hsig => exact ⟨sig, hsig⟩
      · cases hmarshal
    obtain ⟨inner, hinner, rfl⟩ := marshalBody_variant_inv hsig hmarshal
    have hlength : (makeSignature junk [val]).2.length = sig.length := by
      rw [makeSignature_length junk env.junk, hsig]
    have hbehind : (pos + 1 + sig.length + 1) % 8 = (sz + 1 + sig.length + 1) % 8 := by omega
    have hval : sizeValue junk val _ = _ := marshalBody_size env junk hwell hbehind hinner
    change _ = some (sz + padBytes pos 1 + _)
    rw [sizeValue, hlength, hval, Option.getD_some, padBytes_one, length_append,
      length_append, padding_length, signatureBytes_length]
    congr 1
    omega
  | .struct members, pos, sz, bytes, hwell, hmod, hmarshal => by
    have hmembers := marshalArgs_size env junk hwell (align_add_mod hmod 8) hmarshal
    rw [sizeValue, padUp_eq hmod (dvd_refl 8)]
    exact congrArg some hmembers
  | .dictEntry key val, pos, sz, bytes, hwell, hmod, hmarshal => by
    rw [marshalBody_dictEntry] at hmarshal
    change marshalArgs env [key, val] (align pos 8) = _ at hmarshal
    have hstart := align_add_mod hmod 8
    obtain ⟨keyBytes, others, hkeyBytes, hothers, rfl⟩ := marshalArgs_cons_inv hmarshal
    obtain ⟨valBytes, nothing, hvalBytes, hnothing, rfl⟩ := marshalArgs_cons_inv hothers
    cases hnothing
    have hkey : sizeValue junk key _ = _ := marshalBody_size env junk hwell.1 hstart hkeyBytes
    have hbetween : (align (align pos 8) key.alignment + keyBytes.length) % 8 =
        (sz + padBytes pos 8 + padBytes (align pos 8) key.alignment + keyBytes.length) % 8 := by
      rw [add_mod, align_add_mod hstart, ← add_mod]
    have hval : sizeValue junk val _ = _ := marshalBody_size env junk hwell.2 hbetween hvalBytes
    change _ = some (sz + padBytes pos 8 + _)
    rw [sizeValue, padUp_eq hmod (dvd_refl 8), hkey, Option.getD_some, hval, Option.getD_some]
    congr 1
    simp only [length_append, padding_length, length_nil]
    omega
  | .array none elements, _, _, _, _, _, hmarshal => by simp [marshalBody] at hmarshal
  | .array (some elemSig) elements, pos, sz, bytes, hwell, hmod, hmarshal => by
    change marshalBody env (.array (some elemSig) elements) (align pos 4) = _ at hmarshal
    obtain ⟨inner, hinner, -, rfl⟩ := marshalBody_array_inv hmarshal
    have hbehind : (align pos 4 + 4) % 8 = (sz + padBytes pos 4 + 4) % 8 := by
      rw [add_mod, align_add_mod hmod, ← add_mod]
    have hfour : 4 ∣ align pos 4 + 4 := Nat.dvd_add (dvd_align pos 4 (by decide)) (dvd_refl 4)
    have halignment : elemAlignment elemSig ≠ 0 := hwell.1
    have helements := getSize_elements halignment hfour hbehind
      (marshalBody_array_signatures hmarshal) hinner
      fun sz hsz => marshalArgs_size env junk hwell.2 hsz hinner
    change _ = some (sz + padBytes pos 4 + _)
    rw [sizeValue, padUp_eq hmod (by decide), ← apply_ite some, Option.getD_some]
    congr 1
    simp only [length_append, word_length]
    omega
  | .scalarArray type values, pos, sz, bytes, _, hmod, hmarshal => by
    change marshalBody env (.scalarArray type values) (align pos 4) = _ at hmarshal
    obtain ⟨-, rfl⟩ := marshalBody_scalarArray_inv hmarshal
    have hbehind : (align pos 4 + 4) % 8 = (sz + padBytes pos 4 + 4) % 8 := by
      rw [add_mod, align_add_mod hmod, ← add_mod]
    change _ = some (sz + padBytes pos 4 + _)
    rw [sizeValue, padUp_eq hmod (by decide), length_append, word_length,
      length_append, scalarBytes_length, elemPadding]
    split
    · rw [padUp_eq hbehind (dvd_refl 8), padding_length]
      congr 1
      omega
    · congr 1
      rw [length_nil]
      omega

theorem marshalArgs_size (env : MarshalEnv) (junk : Nat → UInt8) :
    ∀ {args : List MsgArg} {pos sz : Nat} {bytes : List UInt8}, AllWellFormed args →
      pos % 8 = sz % 8 → marshalArgs env args pos = .ok bytes →
      getSize junk args sz = sz + bytes.length
  | [], _, _, _, _, _, hmarshal => by
    cases hmarshal
    rfl
  | arg :: args, pos, sz, bytes, hwell, hmod, hmarshal => by
    obtain ⟨inner, rest, hinner, hrest, rfl⟩ := marshalArgs_cons_inv hmarshal
    have harg : sizeValue junk arg sz = _ := marshalBody_size env junk hwell.1 hmod hinner
    have hbehind : (align pos arg.alignment + inner.length) % 8 =
        (sz + padBytes pos arg.alignment + inner.length) % 8 := by
      rw [add_mod, align_add_mod hmod, ← add_mod]
    have hargs : getSize junk args _ = _ := marshalArgs_size env junk hwell.2 hbehind hrest
    rw [getSize, harg]
    simp only [length_append, padding_length]
    omega
end

end AllJoyn.Wire
