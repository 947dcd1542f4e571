import AllJoyn.Wire.Typed
import AllJoyn.Wire.ValidSignature

/-!
`MsgArg::operator==`. It compares the elements of arrays and not their element
signatures, so arguments that differ in the type of an empty array compare
equal.
-/

namespace AllJoyn.Wire

open MsgArg List

/-- The comparison of two strings: their lengths, then `strcmp`, which has no
answer for a null pointer. -/
def sameText (first second : Option (List UInt8)) : Option Bool :=
  if (first.getD []).length = (second.getD []).length then
    match first, second with
    | some first, some second => some (cString first == cString second)
    | _, _ => none
  else some false

mutual
/-- `MsgArg::operator==`; none where it hands a null pointer to `strcmp`. -/
def MsgArg.same : MsgArg → MsgArg → Option Bool
  | .dictEntry key val, .dictEntry key' val' => do
    let keysAreEqual ← key.same key'
    let valuesAreEqual ← val.same val'
    return keysAreEqual && valuesAreEqual
  | .struct members, .struct members' =>
    if members.length = members'.length then allSame members members' else some false
  | .array _ elements, .array _ elements' =>
    if elements.length = elements'.length then allSame elements elements' else some false
  | .variant val, .variant val' => val.same val'
  | .objectPath str, .objectPath str' => sameText str str'
  | .string str, .string str' => sameText str str'
  | .signature sig, .signature sig' => sameText sig sig'
  | .scalarArray type values, .scalarArray type' values' =>
    some (type = type' && values.map (·.val) == values'.map (·.val))
  | .scalar type value, .scalar type' value' => some (type = type' && value.val == value'.val)
  | .handle fd, .handle fd' => some (fd == fd')
  | _, _ => some false

/-- The loop over members or elements, up to the first difference. -/
def allSame : List MsgArg → List MsgArg → Option Bool
  | arg :: args, arg' :: args' => do
    if ← arg.same arg' then allSame args args' else return false
  | _, _ => some true
end

/-! ### Well-formed arguments -/

/-- What a pointer of a string argument may hold: nothing, or the characters
of a C string. -/
def IsText (str : Option (List UInt8)) : Prop := ∀ chars ∈ str, ∀ char ∈ chars, char ≠ 0

mutual
/-- An argument as `MsgArg::Set` and `SetElements` build it: the elements of
an array have the type that its element signature spells. -/
def MsgArg.Formed : MsgArg → Prop
  | .invalid => False
  | .scalar _ _ | .handle _ | .scalarArray _ _ => True
  | .string str | .objectPath str => IsText str
  | .signature sig => IsText sig ∧ (sig.getD []).length ≤ 255
  | .variant val => val.Formed
  | .struct members => members ≠ [] ∧ AllFormed members
  | .dictEntry key val => key.Formed ∧ val.Formed
  | .array elemSig elements =>
    ∃ elem : SigTy, elemSig = some elem.sig ∧ elementsStatus elem.sig elements = .ok ∧
      AllFormed elements ∧ ∀ element ∈ elements, element.sig = elem.sig

def AllFormed : List MsgArg → Prop
  | [] => True
  | arg :: args => arg.Formed ∧ AllFormed args
end

mutual
/-- No string of the argument is a null pointer. -/
def MsgArg.Solid : MsgArg → Prop
  | .string str | .objectPath str | .signature str => str.isSome = true
  | .variant val => val.Solid
  | .struct args | .array _ args => AllSolid args
  | .dictEntry key val => key.Solid ∧ val.Solid
  | _ => True

def AllSolid : List MsgArg → Prop
  | [] => True
  | arg :: args => arg.Solid ∧ AllSolid args
end

mutual
/-- The argument without the element signatures of its arrays. -/
def MsgArg.erase : MsgArg → MsgArg
  | .array _ elements => .array none (eraseAll elements)
  | .struct members => .struct (eraseAll members)
  | .dictEntry key val => .dictEntry key.erase val.erase
  | .variant val => .variant val.erase
  | arg => arg

def eraseAll : List MsgArg → List MsgArg
  | [] => []
  | arg :: args => arg.erase :: eraseAll args
end

/-! ### What compares equal -/

theorem length_eraseAll (args : List MsgArg) : (eraseAll args).length = args.length := by
  induction args with
  | nil => rfl
  | cons arg args ih => simp [eraseAll, ih]

theorem length_eq_of_eraseAll {args args' : List MsgArg} (hsame : eraseAll args = eraseAll args') :
    args.length = args'.length := by
  rw [← length_eraseAll, hsame, length_eraseAll]

theorem sameText_comm (first second : Option (List UInt8)) :
    sameText first second = sameText second first := by
  unfold sameText
  by_cases hlength : (first.getD []).length = (second.getD []).length
  · rw [if_pos hlength, if_pos hlength.symm]
    cases first <;> cases second <;> simp [Bool.beq_comm]
  · rw [if_neg hlength, if_neg (Ne.symm hlength)]

theorem sameText_iff {first second : Option (List UInt8)} (hfirst : IsText first)
    (hsecond : IsText second) :
    sameText first second = some true ↔ first = second ∧ first.isSome = true := by
  unfold sameText
  cases first with
  | none => cases second <;> simp
  | some first =>
    cases second with
    | none => simp
    | some second =>
      simp only [cString_of_nonzero (hfirst first rfl), cString_of_nonzero (hsecond second rfl)]
      by_cases hlength : first.length = second.length
      · simp [hlength]
      · have hdiffer : first ≠ second := fun hsame => hlength (hsame ▸ rfl)
        simp [hlength, hdiffer]

mutual
theorem same_comm : ∀ first second : MsgArg, first.same second = second.same first
  | .dictEntry key val, second => by
    cases second with
    | dictEntry key' val' =>
      rw [same, same, same_comm key key', same_comm val val']
    | _ => rfl
  | .struct args, second | .array _ args, second => by
    cases second <;> first | rfl | simp only [same, allSame_comm args, eq_comm]
  | .variant val, second => by
    cases second <;> first | rfl | exact same_comm val _
  | .objectPath _, second | .string _, second | .signature _, second => by
    cases second <;> first | rfl | exact sameText_comm _ _
  | .scalarArray _ _, second | .scalar _ _, second | .handle _, second => by
    cases second <;> first | rfl | simp only [same, eq_comm, Bool.beq_comm]
  | .invalid, second => by cases second <;> rfl

theorem allSame_comm : ∀ args args' : List MsgArg, allSame args args' = allSame args' args
  | [], [] => rfl
  | [], _ :: _ | _ :: _, [] => rfl
  | arg :: args, arg' :: args' => by
    rw [allSame, allSame, same_comm arg arg', allSame_comm args args']
end

theorem bind_and_eq_true {first second : Option Bool} :
    (do let x ← first; let y ← second; return x && y) = some true ↔
      first = some true ∧ second = some true := by
  cases first with
  | none => simp
  | some x => cases second <;> cases x <;> simp

theorem allSame_cons_iff {arg arg' : MsgArg} {args args' : List MsgArg} :
    allSame (arg :: args) (arg' :: args') = some true ↔
      arg.same arg' = some true ∧ allSame args args' = some true := by
  rw [allSame]
  cases arg.same arg' with
  | none => simp
  | some x => cases x <;> simp

mutual
/-- Equal are the arguments that differ in element signatures at most and have
no null pointers. -/
theorem same_iff : ∀ {first second : MsgArg}, first.Formed → second.Formed →
    (first.same second = some true ↔ first.erase = second.erase ∧ first.Solid)
  | .dictEntry key val, second, hfirst, hsecond => by
    cases second with
    | dictEntry key' val' =>
      rw [same, bind_and_eq_true, same_iff hfirst.1 hsecond.1,
        same_iff hfirst.2 hsecond.2]
      simp only [erase, dictEntry.injEq, MsgArg.Solid]
      tauto
    | _ => simp [same, erase]
  | .struct members, second, hfirst, hsecond => by
    cases second with
    | struct members' =>
      simp only [erase, struct.injEq]
      exact allSame_length_iff hfirst.2 hsecond.2
    | _ => simp [same, erase]
  | .array elemSig elements, second, hfirst, hsecond => by
    obtain ⟨-, -, -, helements, -⟩ := hfirst
    cases second with
    | array elemSig' elements' =>
      obtain ⟨-, -, -, helements', -⟩ := hsecond
      simp only [erase, array.injEq, true_and]
      exact allSame_length_iff helements helements'
    | _ => simp [same, erase]
  | .variant val, second, hfirst, hsecond => by
    cases second with
    | variant val' =>
      rw [same, same_iff (show val.Formed from hfirst) (show val'.Formed from hsecond)]
      simp only [erase, variant.injEq, MsgArg.Solid]
    | _ => simp [same, erase]
  | .objectPath _, second, hfirst, hsecond | .string _, second, hfirst, hsecond => by
    cases second <;>
      first
        | simp [same, erase, sameText_iff hfirst hsecond, MsgArg.Solid]; done
        | simp [same, erase]
  | .signature _, second, hfirst, hsecond => by
    cases second with
    | signature sig' => simp [same, erase, sameText_iff hfirst.1 hsecond.1, MsgArg.Solid]
    | _ => simp [same, erase]
  | .scalarArray type values, second, _, _ => by
    cases second with
    | scalarArray type' values' =>
      by_cases htype : type = type'
      · subst htype
        have hvalues : values.map (·.val) = values'.map (·.val) ↔ values = values' :=
          (map_injective_iff.mpr Fin.val_injective).eq_iff
        simp [same, erase, MsgArg.Solid, hvalues]
      · simp [same, erase, htype]
    | _ => simp [same, erase]
  | .scalar type value, second, _, _ => by
    cases second with
    | scalar type' value' =>
      by_cases htype : type = type'
      · subst htype
        simp [same, erase, MsgArg.Solid, Fin.ext_iff]
      · simp [same, erase, htype]
    | _ => simp [same, erase]
  | .handle fd, second, _, _ => by
    cases second with
    | handle fd' => simp [same, erase, MsgArg.Solid]
    | _ => simp [same, erase]
  | .invalid, _, hfirst, _ => hfirst.elim

theorem allSame_length_iff : ∀ {args args' : List MsgArg}, AllFormed args → AllFormed args' →
    ((if args.length = args'.length then allSame args args' else some false) = some true ↔
      eraseAll args = eraseAll args' ∧ AllSolid args)
  | [], [], _, _ => by simp [allSame, AllSolid]
  | [], _ :: _, _, _ => by simp [eraseAll]
  | _ :: _, [], _, _ => by simp [eraseAll]
  | arg :: args, arg' :: args', hargs, hargs' => by
    have hrest := allSame_length_iff hargs.2 hargs'.2
    have hfirst := same_iff hargs.1 hargs'.1
    simp only [length_cons, Nat.add_right_cancel_iff, eraseAll, List.cons.injEq, AllSolid]
    by_cases hlength : args.length = args'.length
    · rw [if_pos hlength] at hrest ⊢
      rw [allSame_cons_iff]
      tauto
    · rw [if_neg hlength]
      refine iff_of_false (by simp) ?_
      rintro ⟨⟨-, herase⟩, -⟩
      exact hlength (length_eq_of_eraseAll herase)
end

/-! ### Equal arguments with different signatures -/

/-- Two empty arrays in the same place, outside of variants, have different
element signatures. -/
inductive Mismatched : MsgArg → MsgArg → Prop
  | empty {elemSig elemSig' : Option Signature} (hdiffer : elemSig ≠ elemSig') :
      Mismatched (.array elemSig []) (.array elemSig' [])
  | element {elemSig elemSig' : Option Signature} {before before' after after' : List MsgArg}
      {first second : MsgArg} (hplace : before.length = before'.length)
      (hinner : Mismatched first second) :
      Mismatched (.array elemSig (before ++ first :: after))
        (.array elemSig' (before' ++ second :: after'))
  | member {before before' after after' : List MsgArg} {first second : MsgArg}
      (hplace : before.length = before'.length) (hinner : Mismatched first second) :
      Mismatched (.struct (before ++ first :: after)) (.struct (before' ++ second :: after'))
  | key {key key' val val' : MsgArg} (hinner : Mismatched key key') :
      Mismatched (.dictEntry key val) (.dictEntry key' val')
  | val {key key' val val' : MsgArg} (hinner : Mismatched val val') :
      Mismatched (.dictEntry key val) (.dictEntry key' val')

mutual
/-- The signature of a well-formed argument spells one type. -/
theorem MsgArg.Formed.spells : ∀ {arg : MsgArg}, arg.Formed → ∃ type : SigTy, arg.sig = type.sig
  | .scalar type _, _ => ⟨.leaf (.scalar type), rfl⟩
  | .string _, _ => ⟨.leaf .string, rfl⟩
  | .objectPath _, _ => ⟨.leaf .objectPath, rfl⟩
  | .signature _, _ => ⟨.leaf .signature, rfl⟩
  | .handle _, _ => ⟨.leaf .handle, rfl⟩
  | .variant _, _ => ⟨.leaf .variant, rfl⟩
  | .scalarArray type _, _ => ⟨.array (.leaf (.scalar type)), rfl⟩
  | .struct members, hformed => by
    obtain ⟨types, htypes⟩ := AllFormed.spells hformed.2
    refine ⟨.struct types, ?_⟩
    rw [sig, SigTy.sig, htypes.1]
  | .dictEntry key val, hformed => by
    obtain ⟨keyType, hkey⟩ := hformed.1.spells
    obtain ⟨valType, hval⟩ := hformed.2.spells
    exact ⟨.dictEntry keyType valType, by rw [sig, SigTy.sig, hkey, hval]⟩
  | .array _ elements, hformed => by
    obtain ⟨elem, rfl, -⟩ := hformed
    exact ⟨.array elem, rfl⟩
  | .invalid, hformed => hformed.elim

theorem AllFormed.spells : ∀ {args : List MsgArg}, AllFormed args →
    ∃ types : List SigTy, argSigs args = SigTy.sigs types ∧
      args.map sig = types.map SigTy.sig
  | [], _ => ⟨[], rfl, rfl⟩
  | arg :: args, hformed => by
    obtain ⟨type, htype⟩ := hformed.1.spells
    obtain ⟨types, hsigs, heach⟩ := AllFormed.spells hformed.2
    exact ⟨type :: types, by rw [argSigs, SigTy.sigs, htype, hsigs], by simp [htype, heach]⟩
end

theorem argSigs_inj {args args' : List MsgArg} (hformed : AllFormed args)
    (hformed' : AllFormed args') (hsame : argSigs args = argSigs args') :
    args.map sig = args'.map sig := by
  obtain ⟨types, hsigs, heach⟩ := hformed.spells
  obtain ⟨types', hsigs', heach'⟩ := hformed'.spells
  rw [heach, heach', SigTy.sigs_inj (hsigs.symm.trans (hsame.trans hsigs'))]

theorem AllFormed.mem : ∀ {args : List MsgArg}, AllFormed args → ∀ arg ∈ args, arg.Formed
  | [], _ => by simp
  | arg :: args, hformed => forall_mem_cons.mpr ⟨hformed.1, hformed.2.mem⟩

theorem sig_eq_at {before before' after after' : List MsgArg} {first second : MsgArg}
    (hplace : before.length = before'.length)
    (hsame : (before ++ first :: after).map sig =
      (before' ++ second :: after').map sig) :
    first.sig = second.sig := by
  simp only [map_append] at hsame
  exact (cons_eq_cons.mp (append_inj hsame (by simpa using hplace)).2).1

theorem Mismatched.sig_ne {first second : MsgArg} (hmismatched : Mismatched first second)
    (hfirst : first.Formed) (hsecond : second.Formed) : first.sig ≠ second.sig := by
  induction hmismatched with
  | empty hdiffer =>
    obtain ⟨elem, rfl, -⟩ := hfirst
    obtain ⟨elem', rfl, -⟩ := hsecond
    intro hsame
    exact hdiffer (congrArg some (cons_eq_cons.mp hsame).2)
  | element hplace hinner ih =>
    obtain ⟨elem, rfl, -, hformed, hspell⟩ := hfirst
    obtain ⟨elem', rfl, -, hformed', hspell'⟩ := hsecond
    intro hsame
    refine ih (hformed.mem _ (by simp)) (hformed'.mem _ (by simp)) ?_
    rw [hspell _ (by simp), hspell' _ (by simp)]
    exact (cons_eq_cons.mp hsame).2
  | member hplace hinner ih =>
    intro hsame
    refine ih (hfirst.2.mem _ (by simp)) (hsecond.2.mem _ (by simp)) (sig_eq_at hplace
      (argSigs_inj hfirst.2 hsecond.2 ?_))
    exact append_cancel_right (cons_eq_cons.mp hsame).2
  | key hinner ih =>
    intro hsame
    obtain ⟨keyType, hkey⟩ := hfirst.1.spells
    obtain ⟨keyType', hkey'⟩ := hsecond.1.spells
    refine ih hfirst.1 hsecond.1 ?_
    rw [sig, sig, hkey, hkey'] at hsame
    rw [hkey, hkey', (SigTy.sig_append_inj (cons_eq_cons.mp hsame).2).1]
  | val hinner ih =>
    intro hsame
    obtain ⟨keyType, hkey⟩ := hfirst.1.spells
    obtain ⟨keyType', hkey'⟩ := hsecond.1.spells
    refine ih hfirst.2 hsecond.2 ?_
    rw [sig, sig, hkey, hkey'] at hsame
    exact append_cancel_right (SigTy.sig_append_inj (cons_eq_cons.mp hsame).2).2

mutual
/-- Arguments without mismatched arrays that differ in element signatures at
most have the same signature. -/
theorem sig_eq_of_not_mismatched : ∀ {first second : MsgArg}, first.Formed → second.Formed →
    first.erase = second.erase → ¬Mismatched first second → first.sig = second.sig
  | .dictEntry key val, second, hfirst, hsecond, herase, hnot => by
    cases second with
    | dictEntry key' val' =>
      obtain ⟨hkey, hval⟩ := dictEntry.inj herase
      rw [sig, sig,
        sig_eq_of_not_mismatched hfirst.1 hsecond.1 hkey fun hinner => hnot (.key hinner),
        sig_eq_of_not_mismatched hfirst.2 hsecond.2 hval fun hinner => hnot (.val hinner)]
    | _ => simp [erase] at herase
  | .struct members, second, hfirst, hsecond, herase, hnot => by
    cases second with
    | struct members' =>
      have hmembers := sigs_eq_of_not_mismatched hfirst.2 hsecond.2
        (struct.inj herase) fun before before' _ _ _ _ hsplit hsplit' hplace hinner =>
          hnot (by rw [hsplit, hsplit']; exact .member hplace hinner)
      rw [sig, sig, hmembers]
    | _ => simp [erase] at herase
  | .array elemSig [], second, _, _, herase, hnot => by
    cases second with
    | array elemSig' elements' =>
      obtain rfl : elements' = [] :=
        length_eq_zero_iff.mp (length_eq_of_eraseAll (array.inj herase).2).symm
      obtain rfl : elemSig = elemSig' := Classical.not_not.mp fun hdiffer =>
        hnot (.empty hdiffer)
      rfl
    | _ => simp [erase] at herase
  | .array elemSig (element :: elements), second, hfirst, hsecond, herase, hnot => by
    cases second with
    | array elemSig' elements' =>
      cases elements' with
      | nil => simp [erase, eraseAll] at herase
      | cons element' elements' =>
        obtain ⟨elem, rfl, -, hformed, hspell⟩ := hfirst
        obtain ⟨elem', rfl, -, hformed', hspell'⟩ := hsecond
        have hhead := sig_eq_of_not_mismatched hformed.1 hformed'.1
          (cons_eq_cons.mp (array.inj herase).2).1
          fun hinner => hnot (show Mismatched (.array _ ([] ++ element :: elements))
            (.array _ ([] ++ element' :: elements')) from .element rfl hinner)
        rw [hspell element (by simp), hspell' element' (by simp)] at hhead
        exact congrArg (97 :: ·) hhead
    | _ => simp [erase] at herase
  | .scalar _ _, second, _, _, herase, _
  | .scalarArray _ _, second, _, _, herase, _
  | .string _, second, _, _, herase, _
  | .objectPath _, second, _, _, herase, _
  | .signature _, second, _, _, herase, _
  | .handle _, second, _, _, herase, _ => by
    cases second <;>
      first | exact congrArg sig herase | simp [erase] at herase
  | .variant val, second, _, _, herase, _ => by
    cases second with
    | variant val' => rfl
    | _ => simp [erase] at herase
  | .invalid, _, hfirst, _, _, _ => hfirst.elim

theorem sigs_eq_of_not_mismatched : ∀ {args args' : List MsgArg}, AllFormed args →
    AllFormed args' → eraseAll args = eraseAll args' →
    (∀ before before' after after' first second, args = before ++ first :: after →
      args' = before' ++ second :: after' → before.length = before'.length →
      ¬Mismatched first second) → argSigs args = argSigs args'
  | [], [], _, _, _, _ => rfl
  | [], _ :: _, _, _, herase, _ | _ :: _, [], _, _, herase, _ => by simp [eraseAll] at herase
  | arg :: args, arg' :: args', hformed, hformed', herase, hnot => by
    obtain ⟨hfirst, hrest⟩ := cons_eq_cons.mp herase
    rw [argSigs, argSigs,
      sig_eq_of_not_mismatched hformed.1 hformed'.1 hfirst
        (hnot [] [] args args' arg arg' rfl rfl rfl),
      sigs_eq_of_not_mismatched hformed.2 hformed'.2 hrest fun before before' after after' first
          second hsplit hsplit' hplace =>
        hnot (arg :: before) (arg' :: before') after after' first second
          (by rw [hsplit, cons_append]) (by rw [hsplit', cons_append])
          (by simpa using hplace)]
end

end AllJoyn.Wire
