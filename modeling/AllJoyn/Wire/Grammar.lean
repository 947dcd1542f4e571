import AllJoyn.Lib.Result
import AllJoyn.Wire.Signature

/-!
The grammar that the scanner of `SignatureUtils.cc` reads, as syntax trees. A
tree of the right shape and depth is scanned as one member of the innermost
open container, and a scan that ends well has read such trees.
-/

namespace AllJoyn.Wire

open Lib.Result List Nat

variable {scan : Scan} {container : Container}

/-! ### Syntax trees -/

/-- The types of one character. `struct` and `wildcard` stand for types that
are not spelled out. -/
inductive Leaf where
  | scalar (type : ScalarType)
  | string
  | objectPath
  | signature
  | handle
  | variant
  | struct
  | wildcard
  deriving DecidableEq, Repr

def Leaf.id : Leaf → TypeId
  | .scalar type => .scalar type
  | .string => .string
  | .objectPath => .objectPath
  | .signature => .signature
  | .handle => .handle
  | .variant => .variant
  | .struct => .struct
  | .wildcard => .wildcard

/-- The two characters that the D-Bus grammar has not. -/
def Leaf.isPlaceholder : Leaf → Bool
  | .struct | .wildcard => true
  | _ => false

inductive SigTy where
  | leaf (kind : Leaf)
  | array (elem : SigTy)
  | struct (members : List SigTy)
  | dictEntry (key val : SigTy)

namespace SigTy

mutual
/-- The characters of a tree. -/
def sig : SigTy → Signature
  | .leaf kind => [kind.id.char]
  | .array elem => TypeId.array.char :: elem.sig
  | .struct members => TypeId.structOpen.char :: (sigs members ++ [TypeId.structClose.char])
  | .dictEntry key val =>
    TypeId.dictEntryOpen.char :: (key.sig ++ (val.sig ++ [TypeId.dictEntryClose.char]))

def sigs : List SigTy → Signature
  | [] => []
  | type :: types => type.sig ++ sigs types
end

mutual
/-- The greatest weight of the containers around one another. -/
def depth (arrays structs entries : Nat) : SigTy → Nat
  | .leaf _ => 0
  | .array elem => arrays + elem.depth arrays structs entries
  | .struct members => structs + depths arrays structs entries members
  | .dictEntry key val =>
    entries + max (key.depth arrays structs entries) (val.depth arrays structs entries)

def depths (arrays structs entries : Nat) : List SigTy → Nat
  | [] => 0
  | type :: types =>
    max (type.depth arrays structs entries) (depths arrays structs entries types)
end

def isBasic : SigTy → Bool
  | .leaf kind => kind.id.isBasic
  | _ => false

mutual
/-- Structs have members; dict entries stand in arrays and have a basic key. -/
def Shape (inArray : Bool) : SigTy → Prop
  | .leaf _ => True
  | .array elem => elem.Shape true
  | .struct members => members ≠ [] ∧ Shapes members
  | .dictEntry key val => inArray = true ∧ key.isBasic = true ∧ val.Shape false

def Shapes : List SigTy → Prop
  | [] => True
  | type :: types => type.Shape false ∧ Shapes types
end

mutual
theorem sig_nonzero : ∀ type : SigTy, ∀ char ∈ type.sig, char ≠ 0
  | .leaf kind => by
    rw [sig, forall_mem_singleton]
    exact TypeId.char_ne_zero (by cases kind <;> simp [Leaf.id])
  | .array elem => by
    rw [sig, forall_mem_cons]
    exact ⟨TypeId.char_ne_zero (by decide), elem.sig_nonzero⟩
  | .struct members => by
    have hmembers := sigs_nonzero members
    simp only [sig, forall_mem_cons, forall_mem_append]
    exact ⟨TypeId.char_ne_zero (by decide), hmembers, TypeId.char_ne_zero (by decide), by simp⟩
  | .dictEntry key val => by
    have hkey := key.sig_nonzero
    have hval := val.sig_nonzero
    simp only [sig, forall_mem_cons, forall_mem_append]
    exact ⟨TypeId.char_ne_zero (by decide), hkey, hval, TypeId.char_ne_zero (by decide), by simp⟩

theorem sigs_nonzero : ∀ types : List SigTy, ∀ char ∈ sigs types, char ≠ 0
  | [] => by simp [sigs]
  | type :: types => by
    simp only [sigs, forall_mem_append]
    exact ⟨type.sig_nonzero, sigs_nonzero types⟩
end

end SigTy

/-! ### Turns of the scanner -/

/-- What the scanner does once a turn has left it in state `scan`. -/
def resume (container : Container) (rest : Signature) (scan : Scan) :
    Except QStatus (Signature × Scan) :=
  if scan.closeArrays.isComplete then .ok (rest, scan.closeArrays)
  else scanSignature container rest scan.closeArrays

variable {char key : UInt8} {rest : Signature} {count : Nat} {id closer : TypeId}

theorem scanSignature_char (hchar : TypeId.ofChar char ≠ .dictEntryOpen) :
    scanSignature container (char :: rest) scan =
      (scanType container scan (TypeId.ofChar char)).bind (resume container rest) := by
  cases rest <;> simp only [scanSignature, if_neg hchar] <;> rfl

variable {id : TypeId}

theorem scanSignature_type (hid : id ≠ .dictEntryOpen) :
    scanSignature container (id.char :: rest) scan =
      (scanType container scan id).bind (resume container rest) := by
  rw [scanSignature_char (by rwa [TypeId.ofChar_char]), TypeId.ofChar_char]

theorem scanSignature_dictEntry :
    scanSignature container (TypeId.dictEntryOpen.char :: key :: rest) scan =
      (scanDictEntry scan key).bind (resume container rest) := by
  rfl

theorem closeArrays_of_struct (houter : scan.outer.typeId ≠ .array) : scan.closeArrays = scan := by
  obtain ⟨⟨typeId, members⟩, below, structDepth, arrayDepth, numMembers⟩ := scan
  cases typeId with
  | array => exact absurd rfl houter
  | struct => simp [Scan.closeArrays, Wire.closeArrays]
  | dictEntry => simp [Scan.closeArrays, Wire.closeArrays]

section Resume

variable (container : Container)

theorem resume_of_struct (rest : Signature) (houter : scan.outer.typeId ≠ .array)
    (hdepth : 0 < scan.structDepth) :
    resume container rest scan = scanSignature container rest scan := by
  have hopen : scan.isComplete = false := by
    simp only [Scan.isComplete, decide_eq_false_iff_not]
    omega
  simp [resume, closeArrays_of_struct houter, hopen]

theorem resume_of_complete (rest : Signature) (houter : scan.outer.typeId ≠ .array)
    (hstructs : scan.structDepth = 0) (harrays : scan.arrayDepth = 0) :
    resume container rest scan = .ok (rest, scan) := by
  have hcomplete : scan.isComplete = true := by
    simp [Scan.isComplete, hstructs, harrays]
  simp [resume, closeArrays_of_struct houter, hcomplete]

/-- The scan behind the `a` of an array. -/
def Scan.openArray (scan : Scan) : Scan :=
  { scan.push .array with arrayDepth := scan.arrayDepth + 1 }

/-- The scan behind the `(` of a struct. -/
def Scan.openStruct (scan : Scan) : Scan :=
  { scan.push .struct with structDepth := scan.structDepth + 1 }

/-- The scan behind the `{` of a dict entry and its key. -/
def Scan.openEntry (scan : Scan) : Scan :=
  { (scan.push .dictEntry).addMember with structDepth := scan.structDepth + 1 }

theorem scanType_array (hroom : scan.arrayDepth < 32) :
    scanType container scan .array = .ok scan.openArray :=
  if_neg (Nat.not_lt.mpr hroom)

theorem scanType_structOpen (hroom : scan.structDepth < 32) :
    scanType container scan .structOpen = .ok scan.openStruct :=
  if_neg (Nat.not_lt.mpr hroom)

theorem resume_openStruct (rest : Signature) (scan : Scan) :
    resume container rest scan.openStruct = scanSignature container rest scan.openStruct :=
  resume_of_struct container rest (show Container.struct ≠ .array by decide) (succ_pos _)

theorem resume_openEntry (rest : Signature) (scan : Scan) :
    resume container rest scan.openEntry = scanSignature container rest scan.openEntry :=
  resume_of_struct container rest (show Container.dictEntry ≠ .array by decide) (succ_pos _)

end Resume

/-- An open array is complete as soon as its element type is, and then counts
as a member of the container around it. -/
theorem resume_element (scan : Scan) :
    resume container rest scan.openArray.addMember = resume container rest scan.addMember := rfl

def Scan.addMembers (scan : Scan) (count : Nat) : Scan :=
  { scan with outer := { scan.outer with members := scan.outer.members + count } }

theorem scanType_structClose (hcount : 0 < count)
    (hdepth : container = .struct → 0 < scan.structDepth) :
    scanType container (scan.openStruct.addMembers count) .structClose = .ok scan.addMember := by
  have hkeep : ¬(scan.structDepth = 0 ∧ container = .struct) := by
    rintro ⟨hzero, hstruct⟩
    have := hdepth hstruct
    omega
  simp [scanType, Scan.addMembers, Scan.openStruct, Scan.push, Scan.pop, Scan.addMember, hcount,
    hkeep]

/-- The depths still allowed below the open containers. -/
@[mk_iff]
structure Scan.Allows (scan : Scan) (arrays structs : Nat) : Prop where
  arrays : scan.arrayDepth + arrays ≤ 32
  structs : scan.structDepth + structs ≤ 32

section Fits

open SigTy

variable {scan : Scan} {type elem key val : SigTy} {types members : List SigTy}

def Scan.Fits (scan : Scan) (type : SigTy) : Prop :=
  scan.Allows (type.depth 1 0 0) (type.depth 0 1 1)

def Scan.FitAll (scan : Scan) (types : List SigTy) : Prop :=
  scan.Allows (depths 1 0 0 types) (depths 0 1 1 types)

theorem Scan.fits_array :
    scan.Fits (.array elem) ↔ scan.arrayDepth < 32 ∧ scan.openArray.Fits elem := by
  simp only [Fits, allows_iff, openArray, push, depth]
  omega

theorem Scan.fits_struct :
    scan.Fits (.struct members) ↔ scan.structDepth < 32 ∧ scan.openStruct.FitAll members := by
  simp only [Fits, FitAll, allows_iff, openStruct, push, depth]
  omega

theorem Scan.fits_dictEntry :
    scan.Fits (.dictEntry key val) ↔
      scan.structDepth < 32 ∧ scan.openEntry.Fits key ∧ scan.openEntry.Fits val := by
  simp only [Fits, allows_iff, openEntry, push, addMember, depth]
  omega

theorem Scan.fitAll_cons :
    scan.FitAll (type :: types) ↔ scan.Fits type ∧ scan.addMember.FitAll types := by
  simp only [Fits, FitAll, allows_iff, addMember, depths]
  omega

end Fits

/-! ### Trees are scanned -/

namespace SigTy

theorem sig_ne_nil (type : SigTy) : type.sig ≠ [] := by
  cases type <;> simp [sig]

theorem sig_length_pos (type : SigTy) : 0 < type.sig.length :=
  length_pos_iff.mpr type.sig_ne_nil

theorem length_le_sigs (types : List SigTy) : types.length ≤ (sigs types).length := by
  induction types with
  | nil => simp
  | cons type types ih =>
    have hpos := type.sig_length_pos
    simp only [sigs, length_cons, length_append]
    omega

theorem scanType_leaf (container : Container) (scan : Scan) (kind : Leaf) :
    scanType container scan kind.id = .ok scan.addMember := by
  cases kind <;> rfl

theorem leaf_id_ne (kind : Leaf) : kind.id ≠ .dictEntryOpen := by
  cases kind <;> simp [Leaf.id]

theorem leaf_id_ne_unknown (kind : Leaf) : kind.id ≠ .unknown := by
  cases kind <;> simp [Leaf.id]

end SigTy

open SigTy in
mutual
/-- The scanner takes a tree from the front of a signature as one member of
the innermost open container. -/
theorem scanSignature_tree (container : Container) :
    ∀ (type : SigTy) (scan : Scan) (rest : Signature) {inArray : Bool},
      type.Shape inArray → (inArray = true → scan.outer.typeId = .array) →
      (container = .struct → 0 < scan.structDepth) →
      scan.Fits type → type.sig.length ≤ 255 →
      scanSignature container (type.sig ++ rest) scan = resume container rest scan.addMember
  | .leaf kind, scan, rest, _, _, _, _, _, _ => by
    rw [sig, singleton_append, scanSignature_type (leaf_id_ne kind),
      scanType_leaf container scan kind]
    rfl
  | .array elem, scan, rest, inArray, hshape, _, hdepth, hfits, hlength => by
    simp only [sig, length_cons] at hlength
    obtain ⟨hroom, helem⟩ := Scan.fits_array.mp hfits
    have hinner := scanSignature_tree container elem scan.openArray rest hshape (fun _ => rfl)
      hdepth helem (by omega)
    rw [sig, cons_append, scanSignature_type (by simp), scanType_array container hroom]
    exact hinner.trans (resume_element scan)
  | .struct members, scan, rest, inArray, hshape, _, hdepth, hfits, hlength => by
    obtain ⟨hnonempty, hmembers⟩ := hshape
    simp only [sig, length_cons, length_append] at hlength
    obtain ⟨hroom, hinnerFit⟩ := Scan.fits_struct.mp hfits
    have hcount := length_le_sigs members
    have hinner := scanSignature_trees container members scan.openStruct
      (TypeId.structClose.char :: rest) hmembers (show Container.struct ≠ .array by decide)
      (succ_pos _) hinnerFit (show 0 + members.length < 256 by omega) (by omega)
    rw [sig, cons_append, append_assoc,
      scanSignature_type (by simp), scanType_structOpen container hroom]
    refine (resume_openStruct container _ scan).trans (hinner.trans ?_)
    rw [scanSignature_type (by simp),
      scanType_structClose (length_pos_iff.mpr hnonempty) hdepth]
    rfl
  | .dictEntry key val, scan, rest, inArray, hshape, houter, hdepth, hfits, hlength => by
      obtain ⟨hinArray, hbasic, hval⟩ := hshape
      simp only [sig, length_cons, length_append] at hlength
      obtain ⟨hroom, -, hinnerFit⟩ := Scan.fits_dictEntry.mp hfits
      obtain ⟨kind, rfl, hid⟩ : ∃ kind : Leaf, key = .leaf kind ∧ kind.id.isBasic = true := by
        cases key <;> first | exact ⟨_, rfl, hbasic⟩ | simp [isBasic] at hbasic
      have hopen : scanDictEntry scan kind.id.char = .ok scan.openEntry := by
        simp [scanDictEntry, show ¬32 < scan.structDepth + 1 by omega, houter hinArray, hid,
          Scan.openEntry]
      have hinner := scanSignature_tree container val scan.openEntry
        (TypeId.dictEntryClose.char :: rest) hval (by simp) (fun _ => succ_pos _) hinnerFit
        (by omega)
      have hafter := resume_of_struct container (TypeId.dictEntryClose.char :: rest)
        (show scan.openEntry.addMember.outer.typeId ≠ .array from
          show Container.dictEntry ≠ .array by decide) (succ_pos _)
      rw [sig, sig, cons_append, singleton_append, cons_append,
        append_assoc, scanSignature_dictEntry, hopen]
      refine (resume_openEntry container _ scan).trans (hinner.trans (hafter.trans ?_))
      rw [scanSignature_type (by simp)]
      rfl

theorem scanSignature_trees (container : Container) :
    ∀ (types : List SigTy) (scan : Scan) (rest : Signature),
      Shapes types → scan.outer.typeId ≠ .array → 0 < scan.structDepth → scan.FitAll types →
      scan.outer.members + types.length < 256 → (sigs types).length ≤ 255 →
      scanSignature container (sigs types ++ rest) scan =
        scanSignature container rest (scan.addMembers types.length)
  | [], _, _, _, _, _, _, _, _ => rfl
  | type :: types, scan, rest, hshape, houter, hdepth, hfit, hmembers, hlength => by
    obtain ⟨htype, htypes⟩ := hshape
    obtain ⟨hfits, hfitRest⟩ := Scan.fitAll_cons.mp hfit
    simp only [sigs, length_append] at hlength
    simp only [length_cons] at hmembers
    have hfirst := scanSignature_tree container type scan (sigs types ++ rest)
      htype (by simp) (fun _ => hdepth) hfits (by omega)
    have hcount : scan.addMember.outer.members = scan.outer.members + 1 :=
      mod_eq_of_lt (by omega)
    have hrest := scanSignature_trees container types scan.addMember rest
      htypes houter hdepth hfitRest (by omega) (by omega)
    have hnext := resume_of_struct container (sigs types ++ rest)
      (show scan.addMember.outer.typeId ≠ .array from houter) hdepth
    rw [sigs, append_assoc, hfirst, hnext, hrest]
    congr 1
    simp only [Scan.addMembers, hcount, Nat.add_assoc, Nat.add_comm 1]
    rfl
end

/-! ### What is scanned is a tree -/

theorem TypeId.eq_char_of_ofChar (hid : TypeId.ofChar char = id) (hknown : id ≠ .unknown) :
    char = id.char := by
  subst hid
  apply UInt8.toNat_inj.mp
  revert hknown
  unfold TypeId.ofChar
  split <;> simp_all [TypeId.char, ScalarType.char]

/-- The characters that end a struct or a dict entry. -/
def IsCloser (id : TypeId) : Prop := id = .structClose ∨ id = .dictEntryClose

/-- A character stands for a type of its own, or opens or closes a container, or is
not one of the format. -/
theorem TypeId.leaf_or (id : TypeId) :
    (∃ kind : Leaf, kind.id = id) ∨ id = .array ∨ id = .structOpen ∨ id = .dictEntryOpen ∨
      IsCloser id ∨ id = .invalid ∨ id = .dictEntry ∨ id = .unknown := by
  cases id with
  | scalar type => exact .inl ⟨.scalar type, rfl⟩
  | string => exact .inl ⟨.string, rfl⟩
  | objectPath => exact .inl ⟨.objectPath, rfl⟩
  | signature => exact .inl ⟨.signature, rfl⟩
  | handle => exact .inl ⟨.handle, rfl⟩
  | variant => exact .inl ⟨.variant, rfl⟩
  | struct => exact .inl ⟨.struct, rfl⟩
  | wildcard => exact .inl ⟨.wildcard, rfl⟩
  | _ => simp [IsCloser]

variable {scan scan' : Scan}

/-- The ways a turn for a character other than `{` succeeds. -/
theorem scanType_ok_cases (hok : scanType container scan id = .ok scan') :
    (∃ kind : Leaf, id = kind.id ∧ scan' = scan.addMember) ∨
      (id = .array ∧ scan.arrayDepth < 32 ∧ scan' = scan.openArray) ∨
      (id = .structOpen ∧ scan.structDepth < 32 ∧ scan' = scan.openStruct) ∨ IsCloser id := by
  rcases id.leaf_or with ⟨kind, rfl⟩ | rfl | rfl | rfl | hcloser | rfl | rfl | rfl
  · rw [SigTy.scanType_leaf] at hok
    exact .inl ⟨kind, rfl, (Except.ok.inj hok).symm⟩
  · rw [scanType] at hok
    split at hok
    · cases hok
    · exact .inr (.inl ⟨rfl, by omega, (Except.ok.inj hok).symm⟩)
  · rw [scanType] at hok
    split at hok
    · cases hok
    · exact .inr (.inr (.inl ⟨rfl, by omega, (Except.ok.inj hok).symm⟩))
  · cases hok
  · exact .inr (.inr (.inr hcloser))
  all_goals cases hok

theorem scanDictEntry_ok (hok : scanDictEntry scan key = .ok scan') :
    scan.structDepth < 32 ∧ scan.outer.typeId = .array ∧ (TypeId.ofChar key).isBasic = true ∧
      scan' = scan.openEntry := by
  rw [scanDictEntry] at hok
  split at hok
  · cases hok
  · split at hok
    next hentry => exact ⟨by omega, hentry.1, hentry.2, (Except.ok.inj hok).symm⟩
    next => cases hok

theorem exists_leaf_of_isBasic (hbasic : id.isBasic = true) :
    ∃ kind : Leaf, kind.id = id := by
  rcases id.leaf_or with hleaf | rfl | rfl | rfl | (rfl | rfl) | rfl | rfl | rfl
  · exact hleaf
  all_goals cases hbasic

/-- A tree has been read from the front of a signature, as a member of the
innermost open container. -/
structure ReadTree (container : Container) (scan : Scan) (sig : Signature)
    (result : Signature × Scan) (type : SigTy) (rest : Signature) : Prop where
  spelled : sig = type.sig ++ rest
  shape : type.Shape (decide (scan.outer.typeId = .array))
  allowed : scan.Allows (type.depth 1 0 0) (type.depth 0 1 1)
  next : resume container rest scan.addMember = .ok result

/-- All members of the innermost open container have been read, up to the
character that closes it. -/
structure ReadTrees (container : Container) (scan : Scan) (sig : Signature)
    (result : Signature × Scan) (types : List SigTy) (closer : TypeId) (rest : Signature) :
    Prop where
  spelled : sig = SigTy.sigs types ++ closer.char :: rest
  isCloser : IsCloser closer
  shapes : SigTy.Shapes types
  allowed : scan.Allows (SigTy.depths 1 0 0 types) (SigTy.depths 0 1 1 types)
  next : (scanType container (scan.addMembers types.length) closer).bind (resume container rest) =
    .ok result

/-- From every signature up to a length one tree is read, or the container is
closed. -/
def ReadsTree (container : Container) (length : Nat) : Prop :=
  ∀ (sig : Signature) (scan : Scan) (result : Signature × Scan), sig.length ≤ length →
    sig.length ≤ 255 → (container = .struct → 0 < scan.structDepth) → scan.Allows 0 0 →
    scanSignature container sig scan = .ok result →
    (∃ closer rest, IsCloser closer ∧ sig = closer.char :: rest) ∨
      ∃ type rest, ReadTree container scan sig result type rest

/-- From every signature up to a length the members of an open struct or dict
entry are read. -/
def ReadsTrees (container : Container) (length : Nat) : Prop :=
  ∀ (sig : Signature) (scan : Scan) (result : Signature × Scan), sig.length ≤ length →
    scan.outer.members + sig.length ≤ 255 → scan.outer.typeId ≠ .array → 0 < scan.structDepth →
    scan.Allows 0 0 → scanSignature container sig scan = .ok result →
    ∃ types closer rest, ReadTrees container scan sig result types closer rest

theorem IsCloser.ne_dictEntryOpen (hcloser : IsCloser id) : id ≠ .dictEntryOpen := by
  rcases hcloser with rfl | rfl <;> simp

theorem IsCloser.ne_unknown (hcloser : IsCloser id) : id ≠ .unknown := by
  rcases hcloser with rfl | rfl <;> simp

/-- A struct that is open inside of the container is closed by its own character. -/
theorem scanType_inner_struct (hcloser : IsCloser closer)
    (hdepth : container = .struct → 0 < scan.structDepth)
    (hok : scanType container (scan.openStruct.addMembers count) closer = .ok scan') :
    closer = .structClose ∧ 0 < count ∧ scan' = scan.addMember := by
  rcases hcloser with rfl | rfl
  · by_cases hcount : 0 < count
    · rw [scanType_structClose hcount hdepth] at hok
      exact ⟨rfl, hcount, (Except.ok.inj hok).symm⟩
    · simp [scanType, Scan.addMembers, Scan.openStruct, Scan.push, hcount] at hok
  · simp [scanType, Scan.addMembers, Scan.openStruct, Scan.push] at hok

/-- A dict entry that is open inside of the container has its key, and is
closed behind one value. -/
theorem scanType_inner_dictEntry (hcloser : IsCloser closer)
    (hok : scanType container (scan.openEntry.addMembers count) closer = .ok scan') :
    closer = .dictEntryClose ∧ count = 1 ∧ scan' = scan.addMember := by
  rcases hcloser with rfl | rfl
  · simp [scanType, Scan.addMembers, Scan.openEntry, Scan.push, Scan.addMember,
      Frame.addMember] at hok
  · by_cases hcount : count = 1
    · subst hcount
      exact ⟨rfl, rfl, (Except.ok.inj hok).symm⟩
    · have hmembers : ¬1 + count = 2 := by omega
      simp [scanType, Scan.addMembers, Scan.openEntry, Scan.push, Scan.addMember, Frame.addMember,
        hmembers] at hok

section Reads

variable {container : Container} {sig rest : Signature} {scan : Scan} {result : Signature × Scan}
  {length : Nat}

open SigTy

section Opened

variable (hlength : rest.length ≤ length) (hshort : rest.length ≤ 255)
  (hdepth : container = .struct → 0 < scan.structDepth) (hallows : scan.Allows 0 0)

include hlength hshort hdepth hallows

theorem readTree_array (hreads : ReadsTree container length) (hroom : scan.arrayDepth < 32)
    (hok : resume container rest scan.openArray = .ok result) :
    ∃ type behind, ReadTree container scan (TypeId.array.char :: rest) result type behind := by
  rcases hreads rest scan.openArray result hlength hshort hdepth ⟨hroom, hallows.structs⟩ hok with
    ⟨closer, behind, hcloser, rfl⟩ | ⟨elem, behind, hread⟩
  · -- nothing can be closed inside of an array
    have hfail : scanSignature container (closer.char :: behind) scan.openArray = .ok result := hok
    rw [scanSignature_type hcloser.ne_dictEntryOpen] at hfail
    rcases hcloser with rfl | rfl <;>
      simp [scanType, Scan.openArray, Scan.push, Except.bind] at hfail
  · exact ⟨.array elem, behind, by rw [sig, cons_append, ← hread.spelled], hread.shape,
      Scan.fits_array.mpr ⟨hroom, hread.allowed⟩, hread.next⟩

theorem readTree_struct (hreads : ReadsTrees container length) (hroom : scan.structDepth < 32)
    (hok : resume container rest scan.openStruct = .ok result) :
    ∃ type behind, ReadTree container scan (TypeId.structOpen.char :: rest) result type behind := by
  rw [resume_openStruct] at hok
  obtain ⟨members, closer, behind, hread⟩ := hreads rest scan.openStruct result hlength
    (by simpa [Scan.openStruct, Scan.push] using hshort) (show Container.struct ≠ .array by decide)
    (succ_pos _) ⟨hallows.arrays, hroom⟩ hok
  obtain ⟨after, hclosed, hnext⟩ := bind_eq_ok.mp hread.next
  obtain ⟨rfl, hcount, rfl⟩ := scanType_inner_struct hread.isCloser hdepth hclosed
  refine ⟨.struct members, behind, ?_, ⟨length_pos_iff.mp hcount, hread.shapes⟩,
    Scan.fits_struct.mpr ⟨hroom, hread.allowed⟩, hnext⟩
  rw [sig, hread.spelled]
  simp

end Opened

theorem readTree_dictEntry (hreads : ReadsTrees container length) (hlength : rest.length ≤ length)
    (hshort : rest.length < 255) {inner : Scan} (hallows : scan.Allows 0 0)
    (hopen : scanDictEntry scan key = .ok inner) (hok : resume container rest inner = .ok result) :
    ∃ type behind, ReadTree container scan (TypeId.dictEntryOpen.char :: key :: rest) result type
      behind := by
  obtain ⟨hroom, harray, hbasic, rfl⟩ := scanDictEntry_ok hopen
  have hone : scan.openEntry.outer.members = 1 := rfl
  rw [resume_openEntry] at hok
  obtain ⟨members, closer, behind, hread⟩ := hreads rest scan.openEntry result hlength (by omega)
    (show Container.dictEntry ≠ .array by decide) (succ_pos _) ⟨hallows.arrays, hroom⟩ hok
  obtain ⟨after, hclosed, hnext⟩ := bind_eq_ok.mp hread.next
  obtain ⟨rfl, hcount, rfl⟩ := scanType_inner_dictEntry hread.isCloser hclosed
  obtain ⟨val, rfl⟩ := length_eq_one_iff.mp hcount
  obtain ⟨kind, hkind⟩ := exists_leaf_of_isBasic hbasic
  have hkey : key = kind.id.char := TypeId.eq_char_of_ofChar hkind.symm (leaf_id_ne_unknown kind)
  have hleaf : scan.openEntry.Fits (.leaf kind) := ⟨hallows.arrays, hroom⟩
  refine ⟨.dictEntry (.leaf kind) val, behind, ?_, ⟨decide_eq_true harray, ?_, hread.shapes.1⟩,
    Scan.fits_dictEntry.mpr ⟨hroom, hleaf, (Scan.fitAll_cons.mp hread.allowed).1⟩, hnext⟩
  · rw [sig, sig, hread.spelled, hkey]
    simp [sigs]
  · rw [isBasic, hkind]
    exact hbasic

theorem readsTree_succ (htree : ReadsTree container length) (htrees : ReadsTrees container length) :
    ReadsTree container (length + 1) := by
  intro sig scan result hlength hshort hdepth hallows hok
  cases sig with
  | nil => cases hok
  | cons char rest =>
    simp only [length_cons] at hlength hshort
    by_cases hbrace : TypeId.ofChar char = .dictEntryOpen
    · obtain rfl := TypeId.eq_char_of_ofChar hbrace (by simp)
      cases rest with
      | nil => cases hok
      | cons key rest =>
        simp only [length_cons] at hlength hshort
        obtain ⟨inner, hopen, hnext⟩ := bind_eq_ok.mp hok
        exact .inr (readTree_dictEntry htrees (by omega) (by omega) hallows hopen hnext)
    · rw [scanSignature_char hbrace] at hok
      obtain ⟨inner, hturn, hnext⟩ := bind_eq_ok.mp hok
      rcases scanType_ok_cases hturn with ⟨kind, hid, rfl⟩ | ⟨hid, hroom, rfl⟩ |
        ⟨hid, hroom, rfl⟩ | hcloser
      · obtain rfl := TypeId.eq_char_of_ofChar hid (leaf_id_ne_unknown kind)
        exact .inr ⟨.leaf kind, rest, rfl, trivial, hallows, hnext⟩
      · obtain rfl := TypeId.eq_char_of_ofChar hid (by simp)
        exact .inr (readTree_array (by omega) (by omega) hdepth hallows htree hroom hnext)
      · obtain rfl := TypeId.eq_char_of_ofChar hid (by simp)
        exact .inr (readTree_struct (by omega) (by omega) hdepth hallows htrees hroom hnext)
      · exact .inl ⟨_, rest, hcloser, by
          rw [← TypeId.eq_char_of_ofChar rfl hcloser.ne_unknown]⟩

theorem readsTrees_succ (htree : ReadsTree container (length + 1))
    (htrees : ReadsTrees container length) : ReadsTrees container (length + 1) := by
  intro sig scan result hlength hcount houter hdepth hallows hok
  rcases htree sig scan result hlength (by omega) (fun _ => hdepth) hallows hok with
    ⟨closer, rest, hcloser, rfl⟩ | ⟨type, rest, hread⟩
  · rw [scanSignature_type hcloser.ne_dictEntryOpen] at hok
    exact ⟨[], closer, rest, rfl, hcloser, trivial, hallows, hok⟩
  · have hpositive := type.sig_length_pos
    have hsplit := congrArg List.length hread.spelled
    rw [length_append] at hsplit
    have hmembers : scan.addMember.outer.members = scan.outer.members + 1 :=
      mod_eq_of_lt (by omega)
    have hnext := hread.next
    rw [resume_of_struct container rest (show scan.addMember.outer.typeId ≠ .array from houter)
      hdepth] at hnext
    have hrestAllows : scan.addMember.Allows 0 0 := ⟨hallows.arrays, hallows.structs⟩
    obtain ⟨types, closer, behind, hrest⟩ := htrees rest scan.addMember result (by omega)
      (by omega) houter hdepth hrestAllows hnext
    refine ⟨type :: types, closer, behind, ?_, hrest.isCloser, ⟨?_, hrest.shapes⟩,
      Scan.fitAll_cons.mpr ⟨hread.allowed, hrest.allowed⟩, ?_⟩
    · rw [hread.spelled, hrest.spelled, sigs, append_assoc]
    · have hshape := hread.shape
      rwa [decide_eq_false houter] at hshape
    · have hsame : scan.addMembers (type :: types).length =
          scan.addMember.addMembers types.length := by
        simp only [Scan.addMembers, hmembers, Nat.add_assoc, Nat.add_comm 1]
        rfl
      rw [hsame]
      exact hrest.next

theorem readsTree (container : Container) (length : Nat) :
    ReadsTree container length ∧ ReadsTrees container length := by
  induction length with
  | zero =>
    constructor
    · intro sig scan result hlength _ _ _ hok
      rw [eq_nil_of_length_eq_zero (le_zero.mp hlength)] at hok
      cases hok
    · intro sig scan result hlength _ _ _ _ hok
      rw [eq_nil_of_length_eq_zero (le_zero.mp hlength)] at hok
      cases hok
  | succ length ih =>
    have htree := readsTree_succ ih.1 ih.2
    exact ⟨htree, readsTrees_succ htree ih.2⟩

end Reads

/-! ### Complete types -/

/-- A dict entry outside of an array, whose key is a type like any other. -/
def SigTy.Bare : SigTy → Prop
  | .dictEntry key val => key.Shape false ∧ val.Shape false
  | _ => False

/-- What `ParseCompleteType` takes for a complete type. -/
structure SigTy.Accepted (type : SigTy) : Prop where
  shape : type.Shape false ∨ type.Bare
  arrays : type.depth 1 0 0 ≤ 32
  structs : type.depth 0 1 1 ≤ 32

section Containers

open SigTy

variable (rest : Signature)

theorem parseContainer_array {elem : SigTy} (hshape : elem.Shape true)
    (harrays : elem.depth 1 0 0 < 32) (hstructs : elem.depth 0 1 1 ≤ 32)
    (hlength : elem.sig.length ≤ 255) :
    parseContainerSignature .array (elem.sig ++ rest) = .ok (rest, 0) := by
  have hscan := scanSignature_tree .array elem ⟨⟨.array, 0⟩, [], 0, 1, 0⟩ rest hshape
    (fun _ => rfl) (by simp) ⟨show 1 + _ ≤ 32 by omega, show 0 + _ ≤ 32 by omega⟩ hlength
  simp only [parseContainerSignature, if_pos, hscan]
  rfl

theorem parseContainer_struct {members : List SigTy} (hshapes : Shapes members)
    (hnonempty : members ≠ []) (harrays : depths 1 0 0 members ≤ 32)
    (hstructs : depths 0 1 1 members < 32) (hlength : (sigs members).length ≤ 255) :
    parseContainerSignature .struct (sigs members ++ TypeId.structClose.char :: rest) =
      .ok (rest, members.length) := by
  have hcount := length_le_sigs members
  have hscan := scanSignature_trees .struct members ⟨⟨.struct, 0⟩, [], 1, 0, 0⟩
    (TypeId.structClose.char :: rest) hshapes (by simp) Nat.one_pos
    ⟨show 0 + _ ≤ 32 by omega, show 1 + _ ≤ 32 by omega⟩ (show 0 + members.length < 256 by omega)
    hlength
  have hpositive := length_pos_iff.mpr hnonempty
  simp only [parseContainerSignature, reduceCtorEq, if_false, hscan,
    scanSignature_type (show TypeId.structClose ≠ .dictEntryOpen by decide)]
  simp [scanType, Scan.addMembers, Scan.pop, Scan.addMember, hpositive, resume,
    Scan.closeArrays, Wire.closeArrays, Scan.isComplete, Except.bind, bind, pure, Except.pure]

theorem parseContainer_dictEntry {key val : SigTy} (hkey : key.Shape false) (hval : val.Shape false)
    (harrays : max (key.depth 1 0 0) (val.depth 1 0 0) ≤ 32)
    (hstructs : max (key.depth 0 1 1) (val.depth 0 1 1) < 32)
    (hlength : key.sig.length + val.sig.length ≤ 255) :
    parseContainerSignature .dictEntry
      (key.sig ++ (val.sig ++ TypeId.dictEntryClose.char :: rest)) = .ok (rest, 0) := by
  have hscan := scanSignature_trees .dictEntry [key, val] ⟨⟨.dictEntry, 0⟩, [], 1, 0, 0⟩
    (TypeId.dictEntryClose.char :: rest) ⟨hkey, hval, trivial⟩ (by simp) Nat.one_pos
    ⟨by simp only [depths]; omega, by simp only [depths]; omega⟩ (show 0 + 2 < 256 by decide)
    (by simpa [sigs] using hlength)
  rw [show sigs [key, val] ++ TypeId.dictEntryClose.char :: rest =
    key.sig ++ (val.sig ++ TypeId.dictEntryClose.char :: rest) by simp [sigs]] at hscan
  simp only [parseContainerSignature, reduceCtorEq, if_false, hscan]
  rw [scanSignature_type (by decide)]
  rfl

theorem parseCompleteType_tree {type : SigTy} (haccepted : type.Accepted)
    (hlength : type.sig.length ≤ 255) : parseCompleteType (type.sig ++ rest) = .ok rest := by
  obtain ⟨hshape, harrays, hstructs⟩ := haccepted
  cases type with
  | leaf kind => cases kind <;> simp [sig, parseCompleteType, Leaf.id]
  | array elem =>
    simp only [sig, length_cons, depth] at hlength harrays hstructs
    have hparsed := parseContainer_array rest (hshape.resolve_right id) (by omega)
      (by omega) (by omega)
    simp [sig, parseCompleteType, hparsed, Except.map]
  | struct members =>
    simp only [sig, length_cons, length_append, depth] at hlength harrays hstructs
    obtain ⟨hnonempty, hshapes⟩ := hshape.resolve_right id
    have hparsed := parseContainer_struct rest hshapes hnonempty (by omega) (by omega)
      (by omega)
    simp [sig, parseCompleteType, hparsed, Except.map]
  | dictEntry key val =>
    simp only [sig, length_cons, length_append, depth] at hlength harrays hstructs
    obtain ⟨hkey, hval⟩ : SigTy.Bare (.dictEntry key val) :=
      hshape.resolve_left fun hentry => Bool.false_ne_true hentry.1
    have hparsed := parseContainer_dictEntry rest hkey hval (by omega) (by omega)
      (by omega)
    simp [sig, parseCompleteType, hparsed, Except.map]

variable {rest} {sig : Signature} {count : Nat}

theorem array_of_parseContainer (hlength : sig.length ≤ 255)
    (hok : parseContainerSignature .array sig = .ok (rest, count)) :
    ∃ elem : SigTy, sig = elem.sig ++ rest ∧ elem.Shape true ∧ elem.depth 1 0 0 < 32 ∧
      elem.depth 0 1 1 ≤ 32 := by
  obtain ⟨result, hscan, hrest⟩ := bind_eq_ok.mp hok
  rcases (readsTree .array sig.length).1 sig ⟨⟨.array, 0⟩, [], 0, 1, 0⟩ result (le_refl _) hlength
    (by simp) ⟨by decide, by decide⟩ hscan with ⟨closer, behind, hcloser, rfl⟩ | ⟨elem, behind, hread⟩
  · change scanSignature .array (closer.char :: behind) ⟨⟨.array, 0⟩, [], 0, 1, 0⟩ = _ at hscan
    rw [scanSignature_type hcloser.ne_dictEntryOpen] at hscan
    rcases hcloser with rfl | rfl <;> simp [scanType, Except.bind] at hscan
  · have hnext : Except.ok (behind, _) = Except.ok result := hread.next
    obtain rfl := Except.ok.inj hnext
    have hsame : behind = rest := congrArg Prod.fst (Except.ok.inj hrest)
    have harrays : 1 + elem.depth 1 0 0 ≤ 32 := hread.allowed.arrays
    have hstructs : 0 + elem.depth 0 1 1 ≤ 32 := hread.allowed.structs
    exact ⟨elem, hsame ▸ hread.spelled, hread.shape, by omega, by omega⟩

/-- The container at the bottom of the stack is closed by its own character. -/
theorem scanType_bottom (rest : Signature) {after : Scan} (hcontainer : container ≠ .array)
    (hcloser : IsCloser closer)
    (hok : scanType container ⟨⟨container, count⟩, [], 1, 0, 0⟩ closer = .ok after) :
    resume container rest after = .ok (rest, after) ∧
      (container = .struct → closer = .structClose ∧ 0 < count) ∧
      (container = .dictEntry → closer = .dictEntryClose ∧ count = 2) := by
  cases container with
  | array => exact absurd rfl hcontainer
  | struct =>
    rcases hcloser with rfl | rfl
    · by_cases hcount : 0 < count
      · rw [scanType, if_pos ⟨rfl, hcount⟩] at hok
        obtain rfl := Except.ok.inj hok
        have houter : Container.struct ≠ .array := by simp
        exact ⟨resume_of_complete _ rest houter rfl rfl, fun _ => ⟨rfl, hcount⟩, by simp⟩
      · simp [scanType, hcount] at hok
    · simp [scanType] at hok
  | dictEntry =>
    rcases hcloser with rfl | rfl
    · simp [scanType] at hok
    · by_cases hcount : count = 2
      · rw [scanType, if_pos ⟨rfl, hcount⟩] at hok
        obtain rfl := Except.ok.inj hok
        have houter : Container.dictEntry ≠ .array := by simp
        exact ⟨resume_of_complete _ rest houter rfl rfl, by simp, fun _ => ⟨rfl, hcount⟩⟩
      · simp [scanType, hcount] at hok

/-- The members of a struct or dict entry at the bottom of the stack. -/
theorem members_of_parseContainer (hcontainer : container ≠ .array) (hlength : sig.length ≤ 255)
    (hok : parseContainerSignature container sig = .ok (rest, count)) :
    ∃ members closer, sig = sigs members ++ TypeId.char closer :: rest ∧ Shapes members ∧
      depths 1 0 0 members ≤ 32 ∧ depths 0 1 1 members < 32 ∧
      (container = .struct → closer = .structClose ∧ 0 < members.length) ∧
      (container = .dictEntry → closer = .dictEntryClose ∧ members.length = 2) := by
  obtain ⟨result, hscan, hrest⟩ := bind_eq_ok.mp hok
  simp only [if_neg hcontainer] at hscan
  obtain ⟨members, closer, behind, hread⟩ := (readsTree container sig.length).2 sig
    ⟨⟨container, 0⟩, [], 1, 0, 0⟩ result (le_refl _) (show 0 + _ ≤ 255 by omega) hcontainer
    Nat.one_pos ⟨show 0 + 0 ≤ 32 by decide, show 1 + 0 ≤ 32 by decide⟩ hscan
  obtain ⟨after, hclosed, hnext⟩ := bind_eq_ok.mp hread.next
  have harrays : 0 + depths 1 0 0 members ≤ 32 := hread.allowed.arrays
  have hstructs : 1 + depths 0 1 1 members ≤ 32 := hread.allowed.structs
  simp only [Scan.addMembers, Nat.zero_add] at hclosed
  obtain ⟨hresume, hstruct, hentry⟩ :=
    scanType_bottom behind hcontainer hread.isCloser hclosed
  rw [hresume] at hnext
  obtain rfl := Except.ok.inj hnext
  have hsame : behind = rest := congrArg Prod.fst (Except.ok.inj hrest)
  exact ⟨members, closer, hsame ▸ hread.spelled, hread.shapes, by omega, by omega, hstruct, hentry⟩

/-- What `ParseCompleteType` takes from the front of a signature. -/
theorem accepted_of_parseCompleteType (hlength : sig.length ≤ 255)
    (hok : parseCompleteType sig = .ok rest) :
    ∃ type : SigTy, sig = type.sig ++ rest ∧ type.Accepted := by
  cases sig with
  | nil => cases hok
  | cons char behind =>
    simp only [length_cons] at hlength
    have hleaf (kind : Leaf) (hid : TypeId.ofChar char = kind.id) (hrest : behind = rest) :
        ∃ type : SigTy, char :: behind = type.sig ++ rest ∧ type.Accepted :=
      ⟨.leaf kind, by
        rw [hrest, TypeId.eq_char_of_ofChar hid (leaf_id_ne_unknown kind)]
        rfl, .inl trivial, Nat.zero_le _, Nat.zero_le _⟩
    have hcontainer {container : Container}
        (hparsed : (parseContainerSignature container behind).map Prod.fst = .ok rest) :
        ∃ count, parseContainerSignature container behind = .ok (rest, count) := by
      cases hresult : parseContainerSignature container behind with
      | error status => simp [hresult, Except.map] at hparsed
      | ok result =>
        simp only [hresult, Except.map, Except.ok.injEq] at hparsed
        exact ⟨result.2, by rw [← hparsed]⟩
    rw [parseCompleteType] at hok
    rcases (TypeId.ofChar char).leaf_or with ⟨kind, hid⟩ | hid | hid | hid | (hid | hid) | hid |
      hid | hid
    · exact hleaf kind hid.symm (by cases kind <;> simpa [← hid, Leaf.id] using hok)
    · simp only [hid] at hok
      obtain ⟨count, hparsed⟩ := hcontainer hok
      obtain ⟨elem, hspelled, hshape, harrays, hstructs⟩ :=
        array_of_parseContainer (by omega) hparsed
      refine ⟨.array elem, ?_, .inl hshape, ?_, ?_⟩
      · rw [TypeId.eq_char_of_ofChar hid (by simp), hspelled, SigTy.sig, cons_append]
      · simp only [depth]
        omega
      · simp only [depth]
        omega
    · simp only [hid] at hok
      obtain ⟨count, hparsed⟩ := hcontainer hok
      obtain ⟨members, closer, hspelled, hshapes, harrays, hstructs, hstruct, -⟩ :=
        members_of_parseContainer (by simp) (by omega) hparsed
      obtain ⟨rfl, hnonempty⟩ := hstruct rfl
      refine ⟨.struct members, ?_, .inl ⟨length_pos_iff.mp hnonempty, hshapes⟩, ?_, ?_⟩
      · rw [TypeId.eq_char_of_ofChar hid (by simp), hspelled, SigTy.sig]
        simp
      · simp only [depth]
        omega
      · simp only [depth]
        omega
    · simp only [hid] at hok
      obtain ⟨count, hparsed⟩ := hcontainer hok
      obtain ⟨members, closer, hspelled, hshapes, harrays, hstructs, -, hentry⟩ :=
        members_of_parseContainer (by simp) (by omega) hparsed
      obtain ⟨rfl, htwo⟩ := hentry rfl
      obtain ⟨key, val, rfl⟩ := length_eq_two.mp htwo
      simp only [depths] at harrays hstructs
      refine ⟨.dictEntry key val, ?_, .inr ⟨hshapes.1, hshapes.2.1⟩, ?_, ?_⟩
      · rw [TypeId.eq_char_of_ofChar hid (by simp), hspelled, SigTy.sig]
        simp [sigs]
      · simp only [depth]
        omega
      · simp only [depth]
        omega
    all_goals simp [hid] at hok

end Containers

end AllJoyn.Wire
