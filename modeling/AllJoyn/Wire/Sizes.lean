import AllJoyn.Wire.Typed
import AllJoyn.Wire.Marshal

/-!
The room that values take in a message body and the size limits of the bus,
and that marshalling succeeds on typed values within the limits.
-/

namespace AllJoyn.Wire

open Lib.Bytes Lib.Result List

/-- Where the elements of an array start behind its length. -/
def elemStart (alignment pos : Nat) : Nat := pos + (elemPadding alignment pos).length

mutual
/-- Where a value ends that starts, behind its padding, at `pos`. -/
def bodyEnd : MsgArg → Nat → Nat
  | .invalid, pos => pos
  | .scalar type _, pos => pos + type.size
  | .string str, pos => pos + 4 + (str.getD []).length + 1
  | .objectPath str, pos => pos + 4 + (str.getD []).length + 1
  | .signature sig, pos => pos + 1 + (sig.getD []).length + 1
  | .handle _, pos => pos + 4
  | .variant val, pos => bodyEnd val (align (pos + 1 + val.sig.length + 1) val.alignment)
  | .struct members, pos => argsEnd members pos
  | .dictEntry key val, pos =>
    bodyEnd val (align (bodyEnd key (align pos key.alignment)) val.alignment)
  | .array elemSig elements, pos =>
    argsEnd elements (elemStart (elemAlignment (elemSig.getD [])) (pos + 4))
  | .scalarArray type values, pos => elemStart type.size (pos + 4) + type.size * values.length

def argsEnd : List MsgArg → Nat → Nat
  | [], pos => pos
  | arg :: args, pos => argsEnd args (bodyEnd arg (align pos arg.alignment))
end

mutual
/-- The elements of every array in the value take at most
`ALLJOYN_MAX_ARRAY_LEN` bytes. -/
def WithinLimits : MsgArg → Nat → Prop
  | .variant val, pos => WithinLimits val (align (pos + 1 + val.sig.length + 1) val.alignment)
  | .struct members, pos => AllWithinLimits members pos
  | .dictEntry key val, pos =>
    WithinLimits key (align pos key.alignment) ∧
      WithinLimits val (align (bodyEnd key (align pos key.alignment)) val.alignment)
  | .array elemSig elements, pos =>
    argsEnd elements (elemStart (elemAlignment (elemSig.getD [])) (pos + 4)) ≤
        elemStart (elemAlignment (elemSig.getD [])) (pos + 4) + maxArrayLen ∧
      AllWithinLimits elements (elemStart (elemAlignment (elemSig.getD [])) (pos + 4))
  | .scalarArray type values, _ => type.size * values.length ≤ maxArrayLen
  | _, _ => True

def AllWithinLimits : List MsgArg → Nat → Prop
  | [], _ => True
  | arg :: args, pos =>
    WithinLimits arg (align pos arg.alignment) ∧
      AllWithinLimits args (bodyEnd arg (align pos arg.alignment))
end

/-! ### Signatures of typed values -/

variable {type : Ty} {arg : MsgArg} {pos : Nat} {bytes : List UInt8} {elements : List MsgArg}
  {env : MarshalEnv}

theorem makeSignature_fits (junk : Nat → UInt8) {val : MsgArg} (htype : OfType val type)
    (hlength : type.sig.length ≤ 255) (hfits : SigFits val 0) :
    makeSignature junk [val] = (.ok, type.sig) := by
  have hval : OfTypes [val] [type] := ⟨type, [], rfl, htype, rfl⟩
  obtain ⟨written, hcompose, hwritten⟩ := composeValues_typed junk [] hval (by simpa [sigs])
  have hsig := hwritten.fitting ⟨hfits, trivial⟩
  rw [sigs, sigs] at hsig
  simpa [makeSignature, hsig] using hcompose

theorem hasSignature_fits (junk : Nat → UInt8) (htype : OfType arg type)
    (hlength : type.sig.length ≤ 255) (hfits : SigFits arg 0) :
    arg.hasSignature junk type.sig = true := by
  rw [MsgArg.hasSignature, makeSignature_fits junk htype hlength hfits,
    cString_of_nonzero type.sig_nonzero]
  exact beq_self_eq_true type.sig

/-! ### Marshalling succeeds -/

theorem padded_ok {alignment : Nat} {body : Nat → Except QStatus (List UInt8)}
    (hbody : body (align pos alignment) = .ok bytes) :
    padded alignment body pos = .ok (padding pos alignment ++ bytes) := by
  rw [padded, hbody]
  rfl

theorem padding_append_end {alignment bodyLength : Nat} :
    pos + (padBytes pos alignment + bodyLength) = align pos alignment + bodyLength := by
  rw [align]
  omega

theorem scalarBytes_length (env : MarshalEnv) {type : ScalarType}
    (values : List (Fin type.range)) :
    (env.scalarBytes values).length = type.size * values.length := by
  induction values with
  | nil => simp [MarshalEnv.scalarBytes]
  | cons value values ih =>
    rw [MarshalEnv.scalarBytes, flatMap_cons, length_append]
    rw [MarshalEnv.scalarBytes] at ih
    rw [ih, MarshalEnv.word, wordBytes_length, length_cons, Nat.mul_succ, Nat.add_comm]

theorem word_length (env : MarshalEnv) (width value : Nat) : (env.word width value).length = width :=
  wordBytes_length _ _ _

theorem stringBytes_length (env : MarshalEnv) (str : Option (List UInt8)) :
    (env.stringBytes str).length = 4 + (str.getD []).length + 1 := by
  simp only [MarshalEnv.stringBytes, length_append, word_length, length_singleton]
  omega

theorem signatureBytes_length (sig : List UInt8) :
    (signatureBytes sig).length = 1 + sig.length + 1 := by
  simp only [signatureBytes, length_cons, length_append, length_nil]
  omega

/-- The value has a type, and its signature fits at some position. -/
def TypedFits (arg : MsgArg) : Prop := ∃ type offset, HasType arg type ∧ SigFits arg offset

theorem HaveTypes.typedFits : ∀ {args : List MsgArg} {types : List Ty} {offset : Nat},
    HaveTypes args types → SigsFit args offset → ∀ arg ∈ args, TypedFits arg
  | [], _, _, _, _ => by simp
  | arg :: args, _, offset, htypes, hfits => by
    obtain ⟨type, rest, -, harg, hargs⟩ := htypes
    rw [forall_mem_cons]
    exact ⟨⟨type, offset, harg, hfits.1⟩, hargs.typedFits hfits.2⟩

theorem AllHaveType.typedFits (htypes : AllHaveType elements type) (hshort : type.sig.length < 254) :
    ∀ element ∈ elements, TypedFits element := by
  intro element hmem
  have helement := htypes.mem element hmem
  exact ⟨type, 0, helement, sigFits_of_short element 0 (by rw [helement.sig_eq]; omega)⟩

theorem checkedArraySize_ok {size : Nat} (hsize : size ≤ maxArrayLen) :
    checkedArraySize size = .ok size := if_neg (Nat.not_lt.mpr hsize)

theorem marshalBody_array_ok {elemSig : Signature}
    (hsignatures : elements.all (·.hasSignature env.junk elemSig) = true)
    (hbytes : marshalArgs env elements (elemStart (elemAlignment elemSig) (pos + 4)) = .ok bytes)
    (hsize : bytes.length ≤ maxArrayLen) :
    marshalBody env (.array (some elemSig) elements) pos =
      .ok (env.word 4 bytes.length ++
        (elemPadding (elemAlignment elemSig) (pos + 4) ++ bytes)) := by
  rw [elemStart] at hbytes
  rw [marshalBody, if_pos hsignatures]
  simp only [hbytes, Except.bind, bind, checkedArraySize_ok hsize]
  rfl

theorem marshalBody_dictEntry (env : MarshalEnv) (key val : MsgArg) (pos : Nat) :
    marshalBody env (.dictEntry key val) pos = marshalArgs env [key, val] pos := by
  simp only [marshalBody, marshalArgs, ok_bind, List.append_nil, bind_pure]

theorem marshalArgs_cons_end {args : List MsgArg}
    (hbody : ∃ bytes, marshalBody env arg (align pos arg.alignment) = .ok bytes ∧
      align pos arg.alignment + bytes.length = bodyEnd arg (align pos arg.alignment))
    (hargs : ∃ bytes, marshalArgs env args (bodyEnd arg (align pos arg.alignment)) = .ok bytes ∧
      bodyEnd arg (align pos arg.alignment) + bytes.length =
        argsEnd args (bodyEnd arg (align pos arg.alignment))) :
    ∃ bytes, marshalArgs env (arg :: args) pos = .ok bytes ∧
      pos + bytes.length = argsEnd (arg :: args) pos := by
  obtain ⟨bytes, hbytes, hend⟩ := hbody
  obtain ⟨others, hothers, hothersEnd⟩ := hargs
  have hmiddle : pos + (padding pos arg.alignment ++ bytes).length =
      bodyEnd arg (align pos arg.alignment) := by
    rw [length_append, padding_length, padding_append_end, hend]
  refine ⟨padding pos arg.alignment ++ bytes ++ others, ?_, ?_⟩
  · rw [marshalArgs, padded_ok hbytes]
    simp only [bind, Except.bind, hmiddle, hothers]
    rfl
  · rw [length_append, ← Nat.add_assoc, hmiddle, hothersEnd, argsEnd]

mutual
/-- Marshalling a typed value within the limits succeeds and takes the room of
the value. -/
theorem marshalBody_ok (env : MarshalEnv) :
    ∀ {arg : MsgArg} {type : Ty} {offset : Nat} (pos : Nat), HasType arg type →
      SigFits arg offset → VariantsFit arg → WithinLimits arg pos →
      ∃ bytes, marshalBody env arg pos = .ok bytes ∧ pos + bytes.length = bodyEnd arg pos
  | .scalar type value, _, _, pos, _, _, _, _ => ⟨_, rfl, by simp [word_length, bodyEnd]⟩
  | .string str, _, _, pos, _, _, _, _ =>
    ⟨_, rfl, by rw [stringBytes_length, bodyEnd]; omega⟩
  | .objectPath str, _, _, pos, htype, _, _, _ => by
    refine ⟨env.stringBytes str, ?_, by rw [stringBytes_length, bodyEnd]; omega⟩
    rw [marshalBody, if_neg (by simpa using htype.2.1)]
  | .signature sig, _, _, pos, _, _, _, _ =>
    ⟨_, rfl, by rw [signatureBytes_length, bodyEnd]; omega⟩
  | .variant val, _, _, pos, htype, _, hvariants, hlimits => by
    obtain ⟨-, valType, hval, -, hlength⟩ := htype
    obtain ⟨hfits, hvalVariants⟩ := hvariants
    rw [sigs, sigs, List.append_nil] at hlength
    rw [WithinLimits, hval.sig_eq] at hlimits
    obtain ⟨bytes, hbytes, hend⟩ := marshalBody_ok env _ hval hfits hvalVariants hlimits
    have hheader : pos + (signatureBytes valType.sig).length = pos + 1 + valType.sig.length + 1 := by
      rw [signatureBytes_length]
      omega
    refine ⟨signatureBytes valType.sig ++
      (padding (pos + 1 + valType.sig.length + 1) val.alignment ++ bytes), ?_, ?_⟩
    · rw [marshalBody, makeSignature_fits env.junk hval.ofType hlength hfits]
      simp only [hheader, padded_ok hbytes]
      rfl
    · rw [bodyEnd, hval.sig_eq, length_append, length_append, padding_length,
        ← Nat.add_assoc, hheader, padding_append_end, hend]
  | .struct members, _, _, pos, htype, hfits, hvariants, hlimits => by
    obtain ⟨types, -, hmembers⟩ := htype
    exact marshalArgs_ok env pos (hmembers.typedFits hfits) hvariants hlimits
  | .dictEntry key val, _, _, pos, htype, hfits, hvariants, hlimits => by
    obtain ⟨keyType, valType, -, hkey, hval⟩ := htype
    rw [marshalBody_dictEntry]
    exact marshalArgs_cons_end (marshalBody_ok env _ hkey hfits.1 hvariants.1 hlimits.1)
      (marshalArgs_cons_end (marshalBody_ok env _ hval hfits.2 hvariants.2 hlimits.2)
        ⟨[], rfl, rfl⟩)
  | .array _ elements, _, _, pos, htype, hfits, hvariants, hlimits => by
    obtain ⟨elemType, -, rfl, helements⟩ := htype
    rw [SigFits, Option.getD_some] at hfits
    rw [WithinLimits, Option.getD_some] at hlimits
    obtain ⟨bytes, hbytes, hend⟩ := marshalArgs_ok env
      (elemStart (elemAlignment elemType.sig) (pos + 4)) (helements.typedFits (by omega))
      hvariants hlimits.2
    have hsignatures : elements.all (·.hasSignature env.junk elemType.sig) = true := by
      rw [all_eq_true]
      intro element hmem
      have helement := helements.mem element hmem
      exact hasSignature_fits env.junk helement.ofType (by omega)
        (sigFits_of_short element 0 (by rw [helement.sig_eq]; omega))
    refine ⟨_, marshalBody_array_ok hsignatures hbytes (by omega), ?_⟩
    rw [bodyEnd, Option.getD_some, ← hend, elemStart, length_append, length_append,
      word_length]
    omega
  | .scalarArray type values, _, _, pos, _, _, _, hlimits => by
    refine ⟨env.word 4 (type.size * values.length) ++
      (elemPadding type.size (pos + 4) ++ env.scalarBytes values), ?_, ?_⟩
    · rw [marshalBody, checkedArraySize_ok hlimits]
      rfl
    · rw [bodyEnd, elemStart, length_append, length_append, word_length,
        scalarBytes_length]
      omega
  | .handle _, _, _, _, htype, _, _, _ | .invalid, _, _, _, htype, _, _, _ => htype.elim

theorem marshalArgs_ok (env : MarshalEnv) :
    ∀ {args : List MsgArg} (pos : Nat), (∀ arg ∈ args, TypedFits arg) → AllVariantsFit args →
      AllWithinLimits args pos →
      ∃ bytes, marshalArgs env args pos = .ok bytes ∧ pos + bytes.length = argsEnd args pos
  | [], pos, _, _, _ => ⟨[], rfl, rfl⟩
  | arg :: args, pos, htyped, hvariants, hlimits => by
    rw [forall_mem_cons] at htyped
    obtain ⟨⟨type, offset, harg, hfits⟩, hargs⟩ := htyped
    exact marshalArgs_cons_end (marshalBody_ok env _ harg hfits hvariants.1 hlimits.1)
      (marshalArgs_ok env _ hargs hvariants.2 hlimits.2)
end

end AllJoyn.Wire
