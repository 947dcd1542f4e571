import AllJoyn.Lib.Heap
import AllJoyn.Wire.Equal

/-!
`MsgArg::Clone` over a heap: the union of a `MsgArg` holds pointers to strings,
to scalars and to other arguments, and the copy gets objects of its own for
all of them.
-/

namespace AllJoyn.Wire

open Lib.Heap MsgArg List

variable {ptr : Option Nat} {arg : MsgArg} {src : Nat}

/-- The union of a `MsgArg`, with its pointers. -/
inductive Cell where
  | invalid
  | scalar (type : ScalarType) (value : Fin type.range)
  | string (len : Nat) (str : Option Nat)
  | objectPath (len : Nat) (str : Option Nat)
  | signature (len : Nat) (sig : Option Nat)
  | handle (fd : Nat)
  | variant (val : Nat)
  | struct (numMembers members : Nat)
  | dictEntry (key val : Nat)
  | array (elemSig : Option Nat) (numElements : Nat) (elements : Option Nat)
  | scalarArray (type : ScalarType) (numElements values : Nat)

def Cell.typeId : Cell → TypeId × Option ScalarType
  | .invalid => (.invalid, none)
  | .scalar type _ => (.scalar type, none)
  | .string _ _ => (.string, none)
  | .objectPath _ _ => (.objectPath, none)
  | .signature _ _ => (.signature, none)
  | .handle _ => (.handle, none)
  | .variant _ => (.variant, none)
  | .struct _ _ => (.struct, none)
  | .dictEntry _ _ => (.dictEntry, none)
  | .array _ _ _ => (.array, none)
  | .scalarArray type _ _ => (.array, some type)

inductive Word where
  | arg (cell : Cell)
  | char (byte : UInt8)
  | scalar (value : Nat)

def Word.byte : Word → UInt8
  | .char byte => byte
  | _ => 0

def Word.typeId : Word → TypeId × Option ScalarType
  | .arg cell => cell.typeId
  | _ => (.invalid, none)

/-! ### The copy -/

/-- `new MsgArg[count]`. -/
def newArgs (heap : List Word) (count : Nat) : List Word :=
  heap ++ List.replicate count (.arg .invalid)

/-- `new char[len + 1]` and the `memcpy` from a string, unless that is null. -/
def copyText (heap : List Word) (len : Nat) : Option Nat → List Word × Option Nat
  | some str => (heap ++ (heap.drop str).take (len + 1), some heap.length)
  | none => (heap, none)

def getElemSig (heap : List Word) : Option Nat → Signature
  | some elemSig => cString ((heap.drop elemSig).map Word.byte)
  | none => []

/-- The status of `AllJoynArray::SetElements`, from the types of the elements. -/
def typesStatus (elemSig : Signature) (types : List (TypeId × Option ScalarType)) : QStatus :=
  if countCompleteTypes elemSig ≠ 1 then .busBadSignature
  else if ∀ type ∈ types, type = types.headD (.invalid, none) then .ok
  else .busBadValue

/-- `AllJoynArray::SetElements`. -/
def setArray (heap : List Word) (elemSig : Signature) (numElements : Nat) (elements : Option Nat) :
    List Word × Cell :=
  let types := ((heap.drop (elements.getD 0)).take numElements).map Word.typeId
  if typesStatus elemSig types = .ok then
    (heap ++ (elemSig ++ [0]).map .char, .array (some heap.length) numElements elements)
  else (heap, .array none 0 none)

/-- `new MsgArg(*src)`, with the clone function. -/
def newArg (clone : List Word → Nat → Nat → Option (List Word)) (heap : List Word) (src : Nat) :
    Option (List Word) :=
  clone (newArgs heap 1) heap.length src

/-- The loop over members or elements. -/
def cloneArgs (clone : List Word → Nat → Nat → Option (List Word)) :
    Nat → List Word → Nat → Nat → Option (List Word)
  | 0, heap, _, _ => some heap
  | count + 1, heap, dest, src => do
    let heap ← clone heap dest src
    cloneArgs clone count heap (dest + 1) (src + 1)

/-- The cases of `MsgArg::Clone`: the heap with the new objects, and the union
of the copy. -/
def cloneCell (clone : List Word → Nat → Nat → Option (List Word)) (heap : List Word) :
    Cell → Option (List Word × Cell)
  | .dictEntry key val => do
    let withKey ← newArg clone heap key
    let withVal ← newArg clone withKey val
    return (withVal, .dictEntry heap.length withKey.length)
  | .struct numMembers members => do
    let cloned ← cloneArgs clone numMembers (newArgs heap numMembers) heap.length members
    return (cloned, .struct numMembers heap.length)
  | .array elemSig numElements elements =>
    if 0 < numElements then do
      let elements ← elements
      let cloned ← cloneArgs clone numElements (newArgs heap numElements) heap.length elements
      return setArray cloned (getElemSig cloned elemSig) numElements (some heap.length)
    else return setArray heap (getElemSig heap elemSig) numElements none
  | .variant val => do
    let withVal ← newArg clone heap val
    return (withVal, .variant heap.length)
  | .objectPath len str =>
    let copied := copyText heap len str
    return (copied.1, .objectPath len copied.2)
  | .string len str =>
    let copied := copyText heap len str
    return (copied.1, .string len copied.2)
  | .signature len sig =>
    let copied := copyText heap len sig
    return (copied.1, .signature len copied.2)
  | .scalarArray type numElements values =>
    return (heap ++ (heap.drop values).take numElements,
      .scalarArray type numElements heap.length)
  | cell => return (heap, cell)

/-- `MsgArg::Clone` into an argument that was just constructed. The source has
no bound on the depth; `fuel` is more than the depth of what is copied. -/
def clone : Nat → List Word → Nat → Nat → Option (List Word)
  | 0, _, _, _ => none
  | fuel + 1, heap, dest, src => do
    let .arg cell ← heap[src]? | none
    let copied ← cloneCell (clone fuel) heap cell
    return copied.1.set dest (.arg copied.2)

/-! ### Arguments in the heap -/

/-- The pointer to a string: null, or the address of its characters and the
terminating nul. -/
def TextAt (heap : List Word) (own : Nat → Prop) (str : Option (List UInt8)) (ptr : Option Nat) :
    Prop :=
  match str, ptr with
  | none, none => True
  | some chars, some addr => Holds heap own addr ((chars ++ [0]).map .char)
  | _, _ => False

/-- An address with an argument whose union has the property. -/
def CellAt (heap : List Word) (own : Nat → Prop) (means : Cell → Prop) (addr : Nat) : Prop :=
  ∃ cell, own addr ∧ heap[addr]? = some (.arg cell) ∧ means cell

mutual
/-- The union stands for the argument, and all that it points to is in places
that `own` allows. -/
def Means (heap : List Word) (own : Nat → Prop) : MsgArg → Cell → Prop
  | .invalid, cell => cell = .invalid
  | .scalar type value, cell => cell = .scalar type value
  | .string str, cell => ∃ ptr, cell = .string (str.getD []).length ptr ∧ TextAt heap own str ptr
  | .objectPath str, cell =>
    ∃ ptr, cell = .objectPath (str.getD []).length ptr ∧ TextAt heap own str ptr
  | .signature sig, cell =>
    ∃ ptr, cell = .signature (sig.getD []).length ptr ∧ TextAt heap own sig ptr
  | .handle fd, cell => cell = .handle fd
  | .variant val, cell =>
    ∃ addr, cell = .variant addr ∧ CellAt heap own (Means heap own val) addr
  | .struct members, cell =>
    ∃ addr, cell = .struct members.length addr ∧ MeansAll heap own members addr
  | .dictEntry key val, cell =>
    ∃ keyAddr valAddr, cell = .dictEntry keyAddr valAddr ∧
      CellAt heap own (Means heap own key) keyAddr ∧ CellAt heap own (Means heap own val) valAddr
  | .array elemSig elements, cell =>
    ∃ sigPtr ptr, cell = .array sigPtr elements.length ptr ∧ TextAt heap own elemSig sigPtr ∧
      (elements ≠ [] → ∃ addr, ptr = some addr ∧ MeansAll heap own elements addr)
  | .scalarArray type values, cell =>
    ∃ addr, cell = .scalarArray type values.length addr ∧
      Holds heap own addr (values.map fun value => .scalar value.val)

def MeansAll (heap : List Word) (own : Nat → Prop) : List MsgArg → Nat → Prop
  | [], _ => True
  | arg :: args, addr =>
    CellAt heap own (Means heap own arg) addr ∧ MeansAll heap own args (addr + 1)
end

/-- The argument at an address, which occupies places in `own`. -/
def ArgAt (heap : List Word) (own : Nat → Prop) (arg : MsgArg) (addr : Nat) : Prop :=
  CellAt heap own (Means heap own arg) addr

/-! ### What other objects do not change -/

section Frame

variable {heap heap' : List Word} {own own' : Nat → Prop}
  (hframed : Framed heap heap' own own')

include hframed

variable {str : Option (List UInt8)} {addr : Nat} {cell : Cell} {elements : List MsgArg}

theorem TextAt.mono (htext : TextAt heap own str ptr) : TextAt heap' own' str ptr := by
  cases str with
  | none => cases ptr <;> exact htext
  | some chars =>
    cases ptr with
    | none => exact htext
    | some addr => exact Holds.mono htext hframed

theorem CellAt.mono {means means' : Cell → Prop} (hcell : CellAt heap own means addr)
    (hmeans : ∀ cell, means cell → means' cell) : CellAt heap' own' means' addr := by
  obtain ⟨cell, howns, hread, hcell⟩ := hcell
  obtain ⟨howns', hsame⟩ := hframed addr (List.getElem?_eq_some_iff.mp hread).1 howns
  exact ⟨cell, howns', hsame.trans hread, hmeans cell hcell⟩

mutual
theorem Means.mono : ∀ {arg : MsgArg} {cell : Cell}, Means heap own arg cell →
    Means heap' own' arg cell
  | .invalid, _, hmeans | .scalar _ _, _, hmeans | .handle _, _, hmeans => hmeans
  | .string _, _, ⟨ptr, hcell, htext⟩ | .objectPath _, _, ⟨ptr, hcell, htext⟩
  | .signature _, _, ⟨ptr, hcell, htext⟩ => ⟨ptr, hcell, htext.mono hframed⟩
  | .variant _, _, ⟨addr, hcell, hval⟩ => ⟨addr, hcell, hval.mono hframed fun _ => Means.mono⟩
  | .struct _, _, ⟨addr, hcell, hmembers⟩ => ⟨addr, hcell, MeansAll.mono hmembers⟩
  | .dictEntry _ _, _, ⟨keyAddr, valAddr, hcell, hkey, hval⟩ =>
    ⟨keyAddr, valAddr, hcell, hkey.mono hframed fun _ => Means.mono,
      hval.mono hframed fun _ => Means.mono⟩
  | .array _ _, _, ⟨sigPtr, ptr, hcell, htext, helements⟩ =>
    ⟨sigPtr, ptr, hcell, htext.mono hframed, fun hsome =>
      have ⟨addr, hptr, hall⟩ := helements hsome
      ⟨addr, hptr, MeansAll.mono hall⟩⟩
  | .scalarArray _ _, _, ⟨addr, hcell, hvalues⟩ => ⟨addr, hcell, hvalues.mono hframed⟩

theorem MeansAll.mono : ∀ {args : List MsgArg} {addr : Nat}, MeansAll heap own args addr →
    MeansAll heap' own' args addr
  | [], _, _ => trivial
  | _ :: _, _, ⟨hfirst, hrest⟩ => ⟨hfirst.mono hframed fun _ => Means.mono, MeansAll.mono hrest⟩
end

theorem ArgAt.mono (harg : ArgAt heap own arg addr) : ArgAt heap' own' arg addr :=
  CellAt.mono hframed harg fun _ => Means.mono hframed

end Frame

/-! ### What the copy means -/

variable {heap heap' : List Word} {own : Nat → Prop}

/-- Nothing in the heap changed. -/
abbrev Keeps (heap heap' : List Word) : Prop := Grows (fun _ => False) heap heap'

theorem copyText_spec (htext : TextAt heap own str ptr) :
    Keeps heap (copyText heap (str.getD []).length ptr).1 ∧
      TextAt (copyText heap (str.getD []).length ptr).1 (heap.length ≤ ·) str
        (copyText heap (str.getD []).length ptr).2 := by
  cases str with
  | none =>
    cases ptr with
    | none => exact ⟨grows_refl _ heap, trivial⟩
    | some addr => exact htext.elim
  | some chars =>
    cases ptr with
    | none => exact htext.elim
    | some addr =>
      have hwords : (heap.drop addr).take (chars.length + 1) = (chars ++ [0]).map .char := by
        simpa using Holds.take_drop htext
      simp only [copyText, Option.getD_some, hwords]
      exact ⟨grows_append _ heap _, holds_append heap _⟩

theorem getElemSig_of_textAt {sig : Signature} (htext : TextAt heap own (some sig) ptr)
    (hnonzero : ∀ char ∈ sig, char ≠ 0) : getElemSig heap ptr = sig := by
  cases ptr with
  | none => exact htext.elim
  | some addr =>
    have hholds : Holds heap own addr ((sig ++ [0]).map Word.char) := htext
    have hbytes : (((sig ++ [0]).map Word.char).map Word.byte) = sig ++ [0] := by
      rw [map_map]
      exact map_id _
    rw [getElemSig, ← take_append_drop ((sig ++ [0]).map Word.char).length (heap.drop addr),
      hholds.take_drop, map_append, hbytes, append_assoc, singleton_append,
      cString_append_zero hnonzero]

theorem typeId_of_means (hmeans : Means heap own arg cell) : cell.typeId = arg.typeId := by
  cases arg with
  | invalid | scalar | handle => rw [show cell = _ from hmeans]; rfl
  | string | objectPath | signature | variant | struct | scalarArray =>
    obtain ⟨-, rfl, -⟩ := hmeans
    rfl
  | dictEntry | array =>
    obtain ⟨-, -, rfl, -⟩ := hmeans
    rfl

theorem typeIds_of_meansAll : ∀ {args : List MsgArg} {addr : Nat}, MeansAll heap own args addr →
    ((heap.drop addr).take args.length).map Word.typeId = args.map typeId
  | [], _, _ => by simp
  | arg :: args, addr, ⟨⟨cell, _, hread, hmeans⟩, hrest⟩ => by
    obtain ⟨haddr, hword⟩ := List.getElem?_eq_some_iff.mp hread
    rw [drop_eq_getElem_cons haddr, length_cons, take_succ_cons, map_cons,
      typeIds_of_meansAll hrest, hword]
    exact congrArg (· :: _) (typeId_of_means hmeans)

theorem typesStatus_eq (elemSig : Signature) (elements : List MsgArg) :
    typesStatus elemSig (elements.map typeId) = elementsStatus elemSig elements := by
  have hhead : (elements.map typeId).headD (.invalid, none) =
      (elements.headD .invalid).typeId := by cases elements <;> rfl
  simp only [typesStatus, elementsStatus, hhead, forall_mem_map]

mutual
/-- How deep containers are in one another. -/
def MsgArg.height : MsgArg → Nat
  | .variant val => val.height + 1
  | .struct args | .array _ args => heights args + 1
  | .dictEntry key val => max key.height val.height + 1
  | _ => 0

def heights : List MsgArg → Nat
  | [] => 0
  | arg :: args => max arg.height (heights args)
end

/-- What the copy of one argument does: it changes `dest` only, and the copy
consists of that and of new places. -/
def Clones (clone : List Word → Nat → Nat → Option (List Word)) (arg : MsgArg) : Prop :=
  ∀ (heap : List Word) (own : Nat → Prop) (dest src : Nat), dest < heap.length →
    (∀ addr, own addr → addr < heap.length ∧ addr ≠ dest) → ArgAt heap own arg src →
    ∃ heap', clone heap dest src = some heap' ∧ Grows (· = dest) heap heap' ∧
      ArgAt heap' (fun addr => addr = dest ∨ heap.length ≤ addr) arg dest

variable {clone : List Word → Nat → Nat → Option (List Word)}

theorem length_newArgs (heap : List Word) (count : Nat) :
    (newArgs heap count).length = heap.length + count := by
  simp [newArgs]

theorem keeps_newArgs (heap : List Word) (count : Nat) : Keeps heap (newArgs heap count) :=
  grows_append _ heap _

theorem cloneArgs_spec : ∀ {args : List MsgArg} {heap : List Word} {own : Nat → Prop}
    (dest : Nat) {src : Nat}, (∀ arg ∈ args, Clones clone arg) → dest + args.length ≤ heap.length →
    (∀ addr, own addr → addr < heap.length ∧ (addr < dest ∨ dest + args.length ≤ addr)) →
    MeansAll heap own args src →
    ∃ heap', cloneArgs clone args.length heap dest src = some heap' ∧
      Grows (fun addr => dest ≤ addr ∧ addr < dest + args.length) heap heap' ∧
      MeansAll heap' (fun addr => (dest ≤ addr ∧ addr < dest + args.length) ∨ heap.length ≤ addr)
        args dest
  | [], heap, _, _, _, _, _, _, _ => ⟨heap, rfl, grows_refl _ heap, trivial⟩
  | arg :: args, heap, own, dest, src, hclones, hroom, hown, hall => by
    simp only [length_cons] at hroom hown ⊢
    obtain ⟨heap₁, hclone, hgrows, hcopy⟩ := hclones arg (by simp) heap own dest src (by omega)
      (fun addr howns => by have := hown addr howns; omega) hall.1
    have hlength := hgrows.length_le
    have hrest : MeansAll heap₁ own args (src + 1) := MeansAll.mono
      (hgrows.framed fun addr _ howns => ⟨howns, by have := hown addr howns; omega⟩) hall.2
    obtain ⟨heap₂, hcloned, hgrown, hcopies⟩ := cloneArgs_spec (dest + 1)
      (fun other hother => hclones other (mem_cons_of_mem _ hother)) (by omega)
      (fun addr howns => by have := hown addr howns; omega) hrest
    refine ⟨heap₂, ?_, ?_, ?_, ?_⟩
    · rw [cloneArgs, hclone]
      exact hcloned
    · exact ⟨by have := hgrown.length_le; omega, fun addr haddr hnot => by
        rw [hgrown.kept addr (by omega) (by omega), hgrows.kept addr haddr (by omega)]⟩
    · exact hcopy.mono (hgrown.framed fun addr haddr hplace => by omega)
    · exact hcopies.mono ((grows_refl (fun _ => False) heap₂).framed
        fun addr _ hplace => ⟨by omega, id⟩)

theorem newArgs_spec {args : List MsgArg} (hclones : ∀ arg ∈ args, Clones clone arg)
    (hown : ∀ addr, own addr → addr < heap.length) (hall : MeansAll heap own args src) :
    ∃ heap', cloneArgs clone args.length (newArgs heap args.length) heap.length src = some heap' ∧
      Keeps heap heap' ∧ MeansAll heap' (heap.length ≤ ·) args heap.length := by
  have hkeeps := keeps_newArgs heap args.length
  have hlength := length_newArgs heap args.length
  obtain ⟨heap', hclone, hgrows, hcopies⟩ := cloneArgs_spec heap.length hclones (by omega)
    (fun addr howns => by have := hown addr howns; omega)
    (hall.mono (hkeeps.framed fun _ _ howns => ⟨howns, id⟩))
  refine ⟨heap', hclone, hkeeps.trans hgrows (fun addr haddr hspot => by omega), ?_⟩
  exact hcopies.mono ((grows_refl (fun _ => False) heap').framed
    fun addr _ hplace => ⟨by omega, id⟩)

theorem newArg_spec (hclones : Clones clone arg) (hown : ∀ addr, own addr → addr < heap.length)
    (harg : ArgAt heap own arg src) :
    ∃ heap', newArg clone heap src = some heap' ∧ Keeps heap heap' ∧
      ArgAt heap' (heap.length ≤ ·) arg heap.length := by
  have hall : MeansAll heap own [arg] src := ⟨harg, trivial⟩
  obtain ⟨heap', hclone, hkeeps, hcopy, -⟩ := newArgs_spec (by simpa using hclones) hown hall
  -- a loop over one argument is a single copy
  exact ⟨heap', by simpa [cloneArgs, newArg] using hclone, hkeeps, hcopy⟩

theorem setArray_spec {elemSig : Signature} (hstatus : elementsStatus elemSig elements = .ok)
    (htypes : ((heap.drop (ptr.getD 0)).take elements.length).map Word.typeId =
      elements.map typeId) :
    setArray heap elemSig elements.length ptr =
      (heap ++ (elemSig ++ [0]).map .char, .array (some heap.length) elements.length ptr) := by
  rw [setArray, htypes, typesStatus_eq, if_pos hstatus]

theorem cloneArray_spec {elem : SigTy} {sigPtr : Option Nat}
    (hstatus : elementsStatus elem.sig elements = .ok)
    (hclones : ∀ element ∈ elements, Clones clone element)
    (hown : ∀ addr, own addr → addr < heap.length) (htext : TextAt heap own (some elem.sig) sigPtr)
    (helements : elements ≠ [] → ∃ addr, ptr = some addr ∧ MeansAll heap own elements addr) :
    ∃ copied, cloneCell clone heap (.array sigPtr elements.length ptr) = some copied ∧
      Keeps heap copied.1 ∧
      Means copied.1 (heap.length ≤ ·) (.array (some elem.sig) elements) copied.2 := by
  cases elements with
  | nil =>
    have hset : setArray heap elem.sig 0 none = _ := setArray_spec hstatus (by simp)
    refine ⟨_, rfl, ?_⟩
    rw [getElemSig_of_textAt htext elem.sig_nonzero, length_nil, hset]
    exact ⟨grows_append _ heap _, some heap.length, none, rfl, holds_append heap _,
      fun hsome => (hsome rfl).elim⟩
  | cons element rest =>
    obtain ⟨addr, rfl, hall⟩ := helements (by simp)
    obtain ⟨heap', hnew, hkeeps, hcopies⟩ := newArgs_spec hclones hown hall
    have hsig := getElemSig_of_textAt
      (TextAt.mono (hkeeps.framed fun _ _ howns => ⟨howns, id⟩) htext) elem.sig_nonzero
    have hset : setArray heap' elem.sig _ (some heap.length) = _ :=
      setArray_spec hstatus (typeIds_of_meansAll hcopies)
    refine ⟨setArray heap' elem.sig (element :: rest).length (some heap.length), ?_, ?_⟩
    · rw [cloneCell, if_pos (by simp)]
      simp only [hnew, hsig, Option.bind_eq_bind, Option.bind_some, pure]
    · rw [hset]
      refine ⟨hkeeps.trans (grows_append _ heap' _) fun _ _ hspot => hspot, some heap'.length,
        some heap.length, rfl, ?_, fun _ => ⟨heap.length, rfl, ?_⟩⟩
      · exact (holds_append heap' _).mono ((grows_refl (fun _ => False) _).framed
          fun _ _ hplace => ⟨Nat.le_trans hkeeps.length_le hplace, id⟩)
      · exact hcopies.mono ((grows_append (fun _ => False) heap' _).framed
          fun _ _ hplace => ⟨hplace, id⟩)

/-- The arguments that an argument points to. -/
def MsgArg.parts : MsgArg → List MsgArg
  | .variant val => [val]
  | .struct args | .array _ args => args
  | .dictEntry key val => [key, val]
  | _ => []

theorem cloneCell_spec (hformed : arg.Formed) (hparts : ∀ part ∈ arg.parts, Clones clone part)
    (hown : ∀ addr, own addr → addr < heap.length) (hmeans : Means heap own arg cell) :
    ∃ copied, cloneCell clone heap cell = some copied ∧ Keeps heap copied.1 ∧
      Means copied.1 (heap.length ≤ ·) arg copied.2 := by
  cases arg with
  | invalid => exact hformed.elim
  | scalar type value =>
    obtain rfl : cell = .scalar type value := hmeans
    exact ⟨_, rfl, grows_refl _ heap, rfl⟩
  | handle fd =>
    obtain rfl : cell = .handle fd := hmeans
    exact ⟨_, rfl, grows_refl _ heap, rfl⟩
  | string text | objectPath text | signature text =>
    obtain ⟨ptr, rfl, htext⟩ := hmeans
    have hcopied := copyText_spec htext
    exact ⟨_, rfl, hcopied.1, _, rfl, hcopied.2⟩
  | variant val =>
    obtain ⟨addr, rfl, hval⟩ := hmeans
    obtain ⟨heap', hnew, hkeeps, hcopy⟩ := newArg_spec (hparts val (by simp [parts]))
      hown hval
    exact ⟨(heap', .variant heap.length), by rw [cloneCell, hnew]; rfl, hkeeps, _, rfl, hcopy⟩
  | struct members =>
    obtain ⟨addr, rfl, hmembers⟩ := hmeans
    have hclones : ∀ member ∈ members, Clones clone member := hparts
    obtain ⟨heap', hnew, hkeeps, hcopy⟩ := newArgs_spec hclones hown hmembers
    exact ⟨(heap', .struct members.length heap.length), by rw [cloneCell, hnew]; rfl, hkeeps, _,
      rfl, hcopy⟩
  | dictEntry key val =>
    obtain ⟨keyAddr, valAddr, rfl, hkey, hval⟩ := hmeans
    obtain ⟨withKey, hnewKey, hkeepsKey, hcopyKey⟩ :=
      newArg_spec (hparts key (by simp [parts])) hown hkey
    have hlength := hkeepsKey.length_le
    obtain ⟨withVal, hnewVal, hkeepsVal, hcopyVal⟩ :=
      newArg_spec (hparts val (by simp [parts]))
        (fun addr howns => Nat.lt_of_lt_of_le (hown addr howns) hlength)
        (ArgAt.mono (hkeepsKey.framed fun _ _ howns => ⟨howns, id⟩) hval)
    refine ⟨(withVal, .dictEntry heap.length withKey.length), ?_,
      hkeepsKey.trans hkeepsVal fun _ _ hspot => hspot, _, _, rfl, ?_, ?_⟩
    · simp [cloneCell, hnewKey, hnewVal]
    · exact hcopyKey.mono (hkeepsVal.framed fun _ _ hplace => ⟨hplace, id⟩)
    · exact hcopyVal.mono ((grows_refl (fun _ => False) withVal).framed
        fun _ _ hplace => ⟨Nat.le_trans hlength hplace, id⟩)
  | array elemSig elements =>
    obtain ⟨elem, rfl, hstatus, -, -⟩ := hformed
    obtain ⟨sigPtr, ptr, rfl, htext, helements⟩ := hmeans
    exact cloneArray_spec hstatus hparts hown htext helements
  | scalarArray type values =>
    obtain ⟨addr, rfl, hvalues⟩ := hmeans
    have hcopied := hvalues.take_drop
    rw [length_map] at hcopied
    refine ⟨_, rfl, grows_append _ heap _, heap.length, rfl, ?_⟩
    rw [hcopied]
    exact holds_append heap _

theorem clones_succ {fuel : Nat} (hformed : arg.Formed)
    (hparts : ∀ part ∈ arg.parts, Clones (Wire.clone fuel) part) :
    Clones (Wire.clone (fuel + 1)) arg := by
  intro heap own dest src hdest hown harg
  obtain ⟨cell, hplace, hread, hmeans⟩ := harg
  obtain ⟨copied, hcopied, hkeeps, hcopy⟩ :=
    cloneCell_spec hformed hparts (fun addr howns => (hown addr howns).1) hmeans
  refine ⟨copied.1.set dest (.arg copied.2), ?_, hkeeps.set _, copied.2, Or.inl rfl, ?_, ?_⟩
  · simp [Wire.clone, hread, hcopied]
  · exact List.getElem?_set_self (Nat.lt_of_lt_of_le hdest hkeeps.length_le)
  · refine Means.mono (fun addr _ hplace => ⟨Or.inr hplace, ?_⟩) hcopy
    exact List.getElem?_set_ne (by omega)

mutual
theorem clones_of_height : ∀ {arg : MsgArg} {fuel : Nat}, arg.Formed → arg.height < fuel →
    Clones (Wire.clone fuel) arg
  | _, 0, _, hheight => absurd hheight (Nat.not_lt_zero _)
  | .invalid, _ + 1, hformed, _ => hformed.elim
  | .scalar _ _, _ + 1, hformed, _ | .string _, _ + 1, hformed, _
  | .objectPath _, _ + 1, hformed, _ | .signature _, _ + 1, hformed, _
  | .handle _, _ + 1, hformed, _ | .scalarArray _ _, _ + 1, hformed, _ =>
    clones_succ hformed (by simp [parts])
  | .variant val, fuel + 1, hformed, hheight => by
    have hval : Clones (Wire.clone fuel) val :=
      clones_of_height hformed (Nat.succ_lt_succ_iff.mp hheight)
    exact clones_succ hformed (by simpa [parts] using hval)
  | .struct members, fuel + 1, hformed, hheight =>
    clones_succ hformed (clones_of_heights hformed.2 (Nat.succ_lt_succ_iff.mp hheight))
  | .array elemSig elements, fuel + 1, hformed, hheight => by
    have hall : AllFormed elements := by
      obtain ⟨-, -, -, hall, -⟩ := hformed
      exact hall
    exact clones_succ hformed (clones_of_heights hall (Nat.succ_lt_succ_iff.mp hheight))
  | .dictEntry key val, fuel + 1, hformed, hheight => by
    have hmax := Nat.succ_lt_succ_iff.mp hheight
    have hkey := clones_of_height hformed.1 (Nat.lt_of_le_of_lt (Nat.le_max_left _ _) hmax)
    have hval := clones_of_height hformed.2 (Nat.lt_of_le_of_lt (Nat.le_max_right _ _) hmax)
    exact clones_succ hformed (by simp [parts, hkey, hval])

theorem clones_of_heights : ∀ {args : List MsgArg} {fuel : Nat}, AllFormed args →
    heights args < fuel → ∀ arg ∈ args, Clones (Wire.clone fuel) arg
  | [], _, _, _ => by simp
  | arg :: args, fuel, hformed, hheight => by
    have hfirst := clones_of_height hformed.1 (Nat.lt_of_le_of_lt (Nat.le_max_left _ _) hheight)
    have hrest := clones_of_heights hformed.2
      (Nat.lt_of_le_of_lt (Nat.le_max_right _ _) hheight)
    exact forall_mem_cons.mpr ⟨hfirst, hrest⟩
end

/-! ### Equality and copies -/

/-- What an equivalence has for these arguments, and equal signatures of equal
arguments. -/
structure Compares (x y z : MsgArg) : Prop where
  refl : x.same x = some true
  symm : x.same y = y.same x
  trans : x.same y = some true → y.same z = some true → x.same z = some true
  sig_eq : x.same y = some true → x.sig = y.sig

/-- The copy compares equal, and no change of the memory that it consists of
changes the argument. -/
def CopiesApart (fuel : Nat) (heap : List Word) (own : Nat → Prop) (x : MsgArg) (dest src : Nat) :
    Prop :=
  ∃ heap', Wire.clone fuel heap dest src = some heap' ∧
    (∃ copy, ArgAt heap' (fun addr => addr = dest ∨ heap.length ≤ addr) copy dest ∧
      x.same copy = some true) ∧
    ∀ changed : List Word,
      (∀ addr, ¬(addr = dest ∨ heap.length ≤ addr) → changed[addr]? = heap'[addr]?) →
      ArgAt changed own x src

theorem copiesApart_of_solid {x : MsgArg} {fuel dest : Nat} (hformed : x.Formed)
    (hsolid : x.Solid) (hdest : dest < heap.length)
    (hown : ∀ addr, own addr → addr < heap.length ∧ addr ≠ dest) (harg : ArgAt heap own x src)
    (hfuel : x.height < fuel) : CopiesApart fuel heap own x dest src := by
  obtain ⟨heap', hclone, hgrows, hcopy⟩ :=
    clones_of_height hformed hfuel heap own dest src hdest hown harg
  refine ⟨heap', hclone, ⟨x, hcopy, (same_iff hformed hformed).mpr ⟨rfl, hsolid⟩⟩, ?_⟩
  intro changed hchanged
  refine ArgAt.mono (fun addr haddr howns => ⟨howns, ?_⟩) harg
  rw [hchanged addr (by have := hown addr howns; omega),
    hgrows.kept addr haddr (hown addr howns).2]

/-- Equality and copies are what they should be for arguments without null
strings, apart from arguments that differ in the element signatures of empty
arrays only. -/
theorem same_clone_iff {x y z : MsgArg} {fuel dest src : Nat} (hx : x.Formed) (hy : y.Formed)
    (hz : z.Formed) (hdest : dest < heap.length)
    (hown : ∀ addr, own addr → addr < heap.length ∧ addr ≠ dest) (harg : ArgAt heap own x src)
    (hfuel : x.height < fuel) :
    (Compares x y z ∧ CopiesApart fuel heap own x dest src) ↔
      x.Solid ∧ ¬(x.erase = y.erase ∧ Mismatched x y) := by
  constructor
  · rintro ⟨hcompares, -⟩
    have hsolid : x.Solid := ((same_iff hx hx).mp hcompares.refl).2
    refine ⟨hsolid, ?_⟩
    rintro ⟨herase, hmismatched⟩
    exact hmismatched.sig_ne hx hy (hcompares.sig_eq ((same_iff hx hy).mpr ⟨herase, hsolid⟩))
  · rintro ⟨hsolid, hnot⟩
    refine ⟨⟨(same_iff hx hx).mpr ⟨rfl, hsolid⟩, same_comm x y, ?_, ?_⟩,
      copiesApart_of_solid hx hsolid hdest hown harg hfuel⟩
    · intro hfirst hsecond
      rw [same_iff hx hy] at hfirst
      rw [same_iff hy hz] at hsecond
      exact (same_iff hx hz).mpr ⟨hfirst.1.trans hsecond.1, hsolid⟩
    · intro hsame
      have herase := ((same_iff hx hy).mp hsame).1
      exact sig_eq_of_not_mismatched hx hy herase fun hmismatched => hnot ⟨herase, hmismatched⟩

theorem not_mismatched_variant {val val' : MsgArg} :
    ¬Mismatched (.variant val) (.variant val') := by
  intro hmismatched
  cases hmismatched

theorem emptyArray_formed (kind : Leaf) (hstatus : elementsStatus [kind.id.char] [] = .ok) :
    (array (some [kind.id.char]) []).Formed :=
  ⟨.leaf kind, rfl, hstatus, trivial, by simp⟩

/-- Variants of empty arrays of strings and of variants. -/
theorem same_clone_variants :
    let strings := MsgArg.variant (.array (some [115]) [])
    let variants := MsgArg.variant (.array (some [118]) [])
    let heap : List Word :=
      [.arg (.variant 2), .arg .invalid, .arg (.array (some 3) 0 none), .char 115, .char 0]
    Compares strings variants strings ∧
      CopiesApart 3 heap (fun addr => addr < 5 ∧ addr ≠ 1) strings 1 0 := by
  intro strings variants heap
  have hstrings : strings.Formed := emptyArray_formed .string (by decide)
  have hvariants : variants.Formed := emptyArray_formed .variant (by decide)
  refine (same_clone_iff hstrings hvariants hstrings (by decide) (fun _ howns => howns) ?_
    (by decide)).mpr ⟨trivial, fun hboth => not_mismatched_variant hboth.2⟩
  refine ⟨_, by decide, rfl, 2, rfl, _, by decide, rfl, some 3, none, rfl, ?_, by simp⟩
  intro index word hword
  match index with
  | 0 => exact ⟨by decide, hword⟩
  | 1 => exact ⟨by decide, hword⟩
  | index + 2 => simp at hword

/-- An empty array of strings and an empty array of variants. -/
theorem same_empty_arrays :
    (MsgArg.array (some [115]) []).Formed ∧ (MsgArg.array (some [118]) []).Formed ∧
      (MsgArg.array (some [115]) []).same (.array (some [118]) []) = some true ∧
      (MsgArg.array (some [115]) []).sig ≠ (MsgArg.array (some [118]) []).sig :=
  ⟨emptyArray_formed .string (by decide), emptyArray_formed .variant (by decide), rfl, by decide⟩

end AllJoyn.Wire
