import AllJoyn.Wire.Grammar

/-!
The types that signatures spell. `Ty.Legal` is the D-Bus grammar with its
nesting limits; the scanner of `SignatureUtils.cc` takes exactly one complete
type from the front of a signature that starts with a legal one.
-/

namespace AllJoyn.Wire

open List

inductive Ty where
  | scalar (type : ScalarType)
  | string
  | objectPath
  | signature
  | variant
  | array (elem : Ty)
  | struct (members : List Ty)
  | dictEntry (key val : Ty)

mutual
/-- The signature of a complete type. -/
def Ty.sig : Ty → Signature
  | .scalar type => [(TypeId.scalar type).char]
  | .string => [TypeId.string.char]
  | .objectPath => [TypeId.objectPath.char]
  | .signature => [TypeId.signature.char]
  | .variant => [TypeId.variant.char]
  | .array elem => TypeId.array.char :: elem.sig
  | .struct members => TypeId.structOpen.char :: (sigs members ++ [TypeId.structClose.char])
  | .dictEntry key val =>
    TypeId.dictEntryOpen.char :: (key.sig ++ (val.sig ++ [TypeId.dictEntryClose.char]))

def sigs : List Ty → Signature
  | [] => []
  | type :: types => type.sig ++ sigs types
end

def Ty.isBasic : Ty → Bool
  | .scalar _ | .string | .objectPath | .signature => true
  | _ => false

mutual
/-- A type of the D-Bus grammar that nests at most `arrays` arrays and
`structs` structs and dict entries; dict entries stand in arrays only. -/
def Ty.Legal (inArray : Bool) (arrays structs : Nat) : Ty → Prop
  | .array elem => 0 < arrays ∧ elem.Legal true (arrays - 1) structs
  | .struct members => 0 < structs ∧ members ≠ [] ∧ AllLegal arrays (structs - 1) members
  | .dictEntry key val =>
    inArray = true ∧ 0 < structs ∧ key.isBasic = true ∧ val.Legal false arrays (structs - 1)
  | _ => True

def AllLegal (arrays structs : Nat) : List Ty → Prop
  | [] => True
  | type :: types => type.Legal false arrays structs ∧ AllLegal arrays structs types
end

/-- A legal D-Bus signature, as the list of its types. -/
def LegalSignature (types : List Ty) : Prop :=
  AllLegal 32 32 types ∧ (sigs types).length ≤ 255

variable {type : Ty} {inArray : Bool} {arrays structs : Nat} {front : Signature}

theorem Ty.legal_of_isBasic (hbasic : type.isBasic = true) (inArray : Bool) (arrays structs : Nat) :
    type.Legal inArray arrays structs := by
  cases type <;> trivial

/-! ### Characters -/

theorem Ty.sig_ne_nil (type : Ty) : type.sig ≠ [] := by
  cases type <;> simp [Ty.sig]

theorem Ty.sig_length_pos (type : Ty) : 0 < type.sig.length :=
  length_pos_iff.mpr type.sig_ne_nil

variable (types : List Ty)

theorem length_le_sigs : types.length ≤ (sigs types).length := by
  induction types with
  | nil => simp
  | cons type types ih =>
    have hpos := type.sig_length_pos
    simp only [sigs, length_cons, length_append]
    omega

/-! ### Scanning -/

mutual
/-- The type as a syntax tree of the scanner's grammar. -/
def Ty.tree : Ty → SigTy
  | .scalar type => .leaf (.scalar type)
  | .string => .leaf .string
  | .objectPath => .leaf .objectPath
  | .signature => .leaf .signature
  | .variant => .leaf .variant
  | .array elem => .array elem.tree
  | .struct members => .struct (trees members)
  | .dictEntry key val => .dictEntry key.tree val.tree

def trees : List Ty → List SigTy
  | [] => []
  | type :: types => type.tree :: trees types
end

theorem length_trees : (trees types).length = types.length := by
  induction types with
  | nil => rfl
  | cons type types ih => simp [trees, ih]

mutual
theorem Ty.tree_sig : ∀ type : Ty, type.tree.sig = type.sig
  | .scalar _ | .string | .objectPath | .signature | .variant => rfl
  | .array elem => by rw [Ty.tree, SigTy.sig, elem.tree_sig, Ty.sig]
  | .struct members => by rw [Ty.tree, SigTy.sig, trees_sigs members, Ty.sig]
  | .dictEntry key val => by rw [Ty.tree, SigTy.sig, key.tree_sig, val.tree_sig, Ty.sig]

theorem trees_sigs : ∀ types : List Ty, SigTy.sigs (trees types) = sigs types
  | [] => rfl
  | type :: types => by rw [trees, SigTy.sigs, type.tree_sig, trees_sigs types, sigs]
end

theorem Ty.sig_nonzero (type : Ty) : ∀ char ∈ type.sig, char ≠ 0 :=
  type.tree_sig ▸ type.tree.sig_nonzero

theorem sigs_nonzero : ∀ char ∈ sigs types, char ≠ 0 :=
  trees_sigs types ▸ SigTy.sigs_nonzero (trees types)

theorem Ty.tree_isBasic (hbasic : type.isBasic = true) :
    type.tree.isBasic = true ∧ ∀ arrays structs entries, type.tree.depth arrays structs entries = 0 := by
  cases type with
  | scalar | string | objectPath | signature => exact ⟨rfl, fun _ _ _ => rfl⟩
  | variant | array | struct | dictEntry => simp [Ty.isBasic] at hbasic

mutual
theorem Ty.tree_shape : ∀ (type : Ty) {inArray : Bool} {arrays structs : Nat},
    type.Legal inArray arrays structs →
      type.tree.Shape inArray ∧ type.tree.depth 1 0 0 ≤ arrays ∧ type.tree.depth 0 1 1 ≤ structs
  | .scalar _, _, _, _, _ | .string, _, _, _, _ | .objectPath, _, _, _, _
  | .signature, _, _, _, _ | .variant, _, _, _, _ => ⟨trivial, Nat.zero_le _, Nat.zero_le _⟩
  | .array elem, _, _, _, hlegal => by
    obtain ⟨hpositive, helem⟩ := hlegal
    obtain ⟨hshape, harrays, hstructs⟩ := elem.tree_shape helem
    refine ⟨hshape, ?_, ?_⟩ <;> simp only [Ty.tree, SigTy.depth] <;> omega
  | .struct members, _, _, _, hlegal => by
    obtain ⟨hpositive, hnonempty, hmembers⟩ := hlegal
    obtain ⟨hshapes, harrays, hstructs⟩ := trees_shapes members hmembers
    refine ⟨⟨?_, hshapes⟩, ?_, ?_⟩
    · rw [← length_pos_iff, length_trees, length_pos_iff]
      exact hnonempty
    · simp only [Ty.tree, SigTy.depth]
      omega
    · simp only [Ty.tree, SigTy.depth]
      omega
  | .dictEntry key val, _, _, _, hlegal => by
    obtain ⟨hinArray, hpositive, hbasic, hval⟩ := hlegal
    obtain ⟨hshape, harrays, hstructs⟩ := val.tree_shape hval
    obtain ⟨hkey, hzero⟩ := Ty.tree_isBasic hbasic
    refine ⟨⟨hinArray, hkey, hshape⟩, ?_, ?_⟩ <;>
      simp only [Ty.tree, SigTy.depth, hzero] <;> omega

theorem trees_shapes : ∀ (types : List Ty) {arrays structs : Nat}, AllLegal arrays structs types →
    SigTy.Shapes (trees types) ∧ SigTy.depths 1 0 0 (trees types) ≤ arrays ∧
      SigTy.depths 0 1 1 (trees types) ≤ structs
  | [], _, _, _ => ⟨trivial, Nat.zero_le _, Nat.zero_le _⟩
  | type :: types, _, _, hlegal => by
    obtain ⟨htype, htypes⟩ := hlegal
    obtain ⟨hshape, harrays, hstructs⟩ := type.tree_shape htype
    obtain ⟨hshapes, harraysRest, hstructsRest⟩ := trees_shapes types htypes
    refine ⟨⟨hshape, hshapes⟩, ?_, ?_⟩ <;> simp only [trees, SigTy.depths] <;> omega
end

theorem scanSignature_allLegal (container : Container) (types : List Ty) (scan : Scan)
    (rest : Signature) (hlegal : AllLegal arrays structs types)
    (houter : scan.outer.typeId = .struct) (hdepth : 0 < scan.structDepth)
    (harrays : scan.arrayDepth + arrays ≤ 32) (hstructs : scan.structDepth + structs ≤ 32)
    (hmembers : scan.outer.members + types.length < 256) (hlength : (sigs types).length ≤ 255) :
    scanSignature container (sigs types ++ rest) scan =
      scanSignature container rest (scan.addMembers types.length) := by
  obtain ⟨hshapes, harraysTrees, hstructsTrees⟩ := trees_shapes types hlegal
  rw [← trees_sigs types] at hlength ⊢
  rw [← length_trees] at hmembers ⊢
  exact scanSignature_trees container (trees types) scan rest hshapes (by simp [houter]) hdepth
    ⟨by omega, by omega⟩ hmembers hlength

/-! ### Complete types -/

theorem parseContainerSignature_array (elem : Ty) (rest : Signature)
    (hlegal : elem.Legal true arrays structs) (harrays : arrays < 32) (hstructs : structs ≤ 32)
    (hlength : elem.sig.length ≤ 255) :
    parseContainerSignature .array (elem.sig ++ rest) = .ok (rest, 0) := by
  obtain ⟨hshape, harraysTree, hstructsTree⟩ := elem.tree_shape hlegal
  rw [← elem.tree_sig] at hlength ⊢
  exact parseContainer_array rest hshape (by omega) (by omega) hlength

theorem parseContainerSignature_struct (members : List Ty) (rest : Signature)
    (hlegal : AllLegal arrays structs members) (hnonempty : members ≠ []) (harrays : arrays ≤ 32)
    (hstructs : structs < 32) (hlength : (sigs members).length ≤ 255) :
    parseContainerSignature .struct (sigs members ++ TypeId.structClose.char :: rest) =
      .ok (rest, members.length) := by
  obtain ⟨hshapes, harraysTrees, hstructsTrees⟩ := trees_shapes members hlegal
  rw [← trees_sigs members] at hlength ⊢
  rw [← length_trees members]
  rw [← length_pos_iff, ← length_trees, length_pos_iff] at hnonempty
  exact parseContainer_struct rest hshapes hnonempty (by omega) (by omega) hlength

theorem parseContainerSignature_dictEntry (key val : Ty) (rest : Signature)
    (hkey : key.isBasic = true) (hval : val.Legal false arrays structs) (harrays : arrays ≤ 32)
    (hstructs : structs < 32) (hlength : val.sig.length < 255) :
    parseContainerSignature .dictEntry
      (key.sig ++ (val.sig ++ TypeId.dictEntryClose.char :: rest)) = .ok (rest, 0) := by
  obtain ⟨hshape, harraysTree, hstructsTree⟩ := val.tree_shape hval
  obtain ⟨hkeyShape, -, -⟩ := key.tree_shape (Ty.legal_of_isBasic hkey false arrays structs)
  have hzero := (Ty.tree_isBasic hkey).2
  have hkeyLength : key.sig.length = 1 := by
    cases key <;> simp_all [Ty.sig, Ty.isBasic]
  rw [← key.tree_sig] at hkeyLength ⊢
  rw [← val.tree_sig] at hlength ⊢
  exact parseContainer_dictEntry rest hkeyShape hshape (by rw [hzero]; omega)
    (by rw [hzero]; omega) (by omega)

section Legal

variable (hlegal : type.Legal inArray arrays structs) (harrays : arrays ≤ 32)
  (hstructs : structs ≤ 32)

include hlegal harrays hstructs

theorem Ty.tree_accepted : type.tree.Accepted := by
  obtain ⟨hshape, harraysTree, hstructsTree⟩ := type.tree_shape hlegal
  refine ⟨?_, by omega, by omega⟩
  cases type with
  | dictEntry key val =>
    obtain ⟨-, -, hbasic, -⟩ := hlegal
    exact .inr ⟨(key.tree_shape (Ty.legal_of_isBasic hbasic false 0 0)).1, hshape.2.2⟩
  | _ => exact .inl hshape

theorem parseCompleteType_legal (rest : Signature) (hlength : type.sig.length ≤ 255) :
    parseCompleteType (type.sig ++ rest) = .ok rest := by
  rw [← type.tree_sig] at hlength ⊢
  exact parseCompleteType_tree rest (Ty.tree_accepted hlegal harrays hstructs) hlength

theorem countTypes_cons (turns : Nat) (rest : Signature) (hlength : type.sig.length ≤ 255) :
    countTypes (turns + 1) (type.sig ++ rest) = countTypes turns rest + 1 := by
  have hparse := parseCompleteType_legal hlegal harrays hstructs rest hlength
  obtain ⟨char, chars, hsig⟩ := exists_cons_of_ne_nil type.sig_ne_nil
  rw [hsig, cons_append] at hparse ⊢
  simp [countTypes, hparse]

theorem countCompleteTypes_one (hlength : type.sig.length ≤ 255) :
    countCompleteTypes type.sig = 1 := by
  obtain ⟨turns, hturns⟩ := Nat.exists_eq_add_of_lt type.sig_length_pos
  have hcount := countTypes_cons hlegal harrays hstructs turns [] hlength
  rw [List.append_nil] at hcount
  rw [countCompleteTypes, hturns, Nat.zero_add, hcount]
  cases turns <;> simp [countTypes]

end Legal

theorem countTypes_sigs (rest : Signature) (turns : Nat)
    (hlegal : AllLegal 32 32 types) (hlength : (sigs types).length ≤ 255) :
    countTypes (types.length + turns) (sigs types ++ rest) =
      types.length + countTypes turns rest := by
  induction types with
  | nil => simp [sigs]
  | cons type types ih =>
    obtain ⟨htype, htypes⟩ := hlegal
    simp only [sigs, length_append] at hlength
    rw [sigs, append_assoc, length_cons, Nat.add_right_comm,
      countTypes_cons htype (le_refl 32) (le_refl 32) _ _ (by omega), ih htypes (by omega)]
    omega

theorem countCompleteTypes_sigs {types : List Ty} (hlegal : LegalSignature types) :
    countCompleteTypes (sigs types) = types.length := by
  obtain ⟨htypes, hlength⟩ := hlegal
  have hcount := length_le_sigs types
  have hall := countTypes_sigs types [] ((sigs types).length - types.length) htypes hlength
  rw [List.append_nil, Nat.add_sub_cancel' hcount] at hall
  have hnil : ∀ turns, countTypes turns [] = 0 := fun turns => by cases turns <;> rfl
  rw [countCompleteTypes, hall, hnil]
  exact Nat.mod_eq_of_lt (by omega)

theorem elementsStatus_ok {elemSig : Signature} {elements : List MsgArg}
    {typeId : TypeId × Option ScalarType} (hcount : countCompleteTypes elemSig = 1)
    (hids : ∀ element ∈ elements, element.typeId = typeId) :
    elementsStatus elemSig elements = .ok := by
  have hsame : ∀ element ∈ elements, element.typeId = (elements.headD .invalid).typeId := by
    cases elements with
    | nil => simp
    | cons first rest =>
      intro element hmem
      rw [hids element hmem, headD_cons, hids first mem_cons_self]
  rw [elementsStatus, if_neg (not_not.mpr hcount), if_pos hsame]

/-! ### Signatures cut off behind an array -/

/-- The front of the signature of a type up to the `a` of one of its arrays. -/
inductive CutOf : Signature → Ty → Prop
  | array (elem : Ty) : CutOf [TypeId.array.char] (.array elem)
  | struct (before : List Ty) {type : Ty} (after : List Ty) {front : Signature} :
      CutOf front type →
      CutOf (TypeId.structOpen.char :: (sigs before ++ front)) (.struct (before ++ type :: after))

theorem sigs_append (first second : List Ty) :
    sigs (first ++ second) = sigs first ++ sigs second := by
  induction first with
  | nil => rfl
  | cons type types ih => simp [sigs, ih]

theorem allLegal_append {first second : List Ty} :
    AllLegal arrays structs (first ++ second) ↔
      AllLegal arrays structs first ∧ AllLegal arrays structs second := by
  induction first with
  | nil => simp [AllLegal]
  | cons type types ih => simp [AllLegal, ih, and_assoc]

/-- The scanner never finds the end of a type that is cut off. -/
theorem scanSignature_cut (container : Container) (hcut : CutOf front type) (scan : Scan)
    (hlegal : type.Legal inArray arrays structs) (harrays : scan.arrayDepth + arrays ≤ 32)
    (hstructs : scan.structDepth + structs ≤ 32) (hlength : type.sig.length ≤ 255) :
    ∃ status, scanSignature container front scan = .error status := by
  induction hcut generalizing scan inArray arrays structs with
  | array elem =>
    have hpositive := hlegal.1
    rw [scanSignature_type (by decide), scanType_array container (by omega)]
    exact ⟨.busBadSignature, rfl⟩
  | @struct before type after front hcut ih =>
    obtain ⟨hpositive, -, hmembers⟩ := hlegal
    obtain ⟨hbefore, htype, -⟩ := allLegal_append.mp hmembers
    have hcount := length_le_sigs before
    simp only [Ty.sig, sigs_append, sigs, length_cons, length_append] at hlength
    have hinner := scanSignature_allLegal container before scan.openStruct front hbefore rfl
      (Nat.succ_pos _) harrays (show scan.structDepth + 1 + (structs - 1) ≤ 32 by omega)
      (show 0 + before.length < 256 by omega) (by omega)
    rw [scanSignature_type (by decide), scanType_structOpen container (by omega)]
    change ∃ status, resume container (sigs before ++ front) scan.openStruct = .error status
    rw [resume_openStruct, hinner]
    exact ih _ htype harrays (show scan.structDepth + 1 + (structs - 1) ≤ 32 by omega) (by omega)

theorem parseContainerSignature_struct_cut (before after : List Ty) (hcut : CutOf front type)
    (hlegal : (Ty.struct (before ++ type :: after)).Legal false 32 32)
    (hlength : (Ty.struct (before ++ type :: after)).sig.length ≤ 255) :
    ∃ status, parseContainerSignature .struct (sigs before ++ front) = .error status := by
  obtain ⟨-, -, hmembers⟩ := hlegal
  obtain ⟨hbefore, htype, -⟩ := allLegal_append.mp hmembers
  have hcount := length_le_sigs before
  simp only [Ty.sig, sigs_append, sigs, length_cons, length_append] at hlength
  have hscan := scanSignature_allLegal .struct before ⟨⟨.struct, 0⟩, [], 1, 0, 0⟩ front hbefore
    rfl Nat.one_pos (by decide) (by decide) (show 0 + before.length < 256 by omega) (by omega)
  obtain ⟨status, herror⟩ := scanSignature_cut .struct hcut
    (Scan.addMembers ⟨⟨.struct, 0⟩, [], 1, 0, 0⟩ before.length) htype (le_refl 32) (le_refl 32)
    (by omega)
  refine ⟨status, ?_⟩
  simp only [parseContainerSignature, reduceCtorEq, if_false, hscan, herror]
  rfl

theorem parseCompleteType_cut (hcut : CutOf front type) (hlegal : type.Legal false 32 32)
    (hlength : type.sig.length ≤ 255) : ∃ status, parseCompleteType front = .error status := by
  cases hcut with
  | array elem => exact ⟨.busBadSignature, rfl⟩
  | struct before after hcut =>
    obtain ⟨status, herror⟩ :=
      parseContainerSignature_struct_cut before after hcut hlegal hlength
    exact ⟨status, by simp [parseCompleteType, herror, Except.map]⟩

end AllJoyn.Wire
