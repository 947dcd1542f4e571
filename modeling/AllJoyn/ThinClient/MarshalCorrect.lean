import AllJoyn.ThinClient.MarshalSteps

/-!
The bytes that the calls of the thin client write for an argument list,
compared with what `MarshalArgs` writes: both are compared with the encoding of
the wire format.
-/

namespace AllJoyn.ThinClient

open Lib.Bytes Lib.Result Wire List

variable {arg : MsgArg} {calls inner : List Call} {type : Ty}

section Calls

variable {host : Host}

/-- The first call for an argument takes its type from the signature. -/
structure Starts (host : Host) (arg : MsgArg) (type : Ty) (call : Call) : Prop where
  takesType : call.takesType = true
  advances : ∀ (msg : TxMessage) (rest : Signature), msg.nextSig = type.sig ++ rest →
    msg.sigOffset ≠ 255 → msg.HasRoom (encodeArg host.swap arg msg.written.length) →
    ∃ opened, call.run host msg = .ok opened ∧ opened.sigOffset = (msg.advance rest).sigOffset

/-- A list of calls that is empty or goes on with a call that takes a type. -/
def HeadTakesType (calls : List Call) : Prop := ∀ call ∈ calls.head?, call.takesType = true

/-- The calls write the encoding of an argument and take its type from the
signature. Once the offset in the signature of the message is 255, no further
type can be taken. -/
structure Marshals (host : Host) (arg : MsgArg) (type : Ty) (calls : List Call) : Prop where
  starts : ∃ call more, calls = call :: more ∧ Starts host arg type call ∧
    (more.filter Call.takesType ≠ [] → HeadTakesType more)
  run : ∀ (msg : TxMessage) (rest : Signature), msg.nextSig = type.sig ++ rest →
    msg.sigOffset ≠ 255 →
    ((msg.advance rest).sigOffset = 255 → (calls.filter Call.takesType).length ≤ 1) →
    msg.HasRoom (encodeArg host.swap arg msg.written.length) →
    runCalls host msg calls =
      .ok ((msg.advance rest).append (encodeArg host.swap arg msg.written.length))

/-- The same for members or elements of the innermost open container. -/
structure PartsMarshal (host : Host) (args : List MsgArg) (calls : List Call)
    (container after : AjArg) : Prop where
  head : HeadTakesType calls
  run : ∀ (msg : TxMessage) (containers : List AjArg), msg.varOffset = 0 →
    msg.outer = container :: containers →
    (msg.sigOffset = 255 → calls.filter Call.takesType = []) →
    msg.HasRoom (encodeArgs host.swap args msg.written.length) →
    runCalls host msg calls = .ok (TxMessage.append { msg with outer := after :: containers }
      (encodeArgs host.swap args msg.written.length))

theorem Marshals.filter_ne_nil (hmarshals : Marshals host arg type calls) (more : List Call) :
    (calls ++ more).filter Call.takesType ≠ [] := by
  obtain ⟨call, others, rfl, hstarts, -⟩ := hmarshals.starts
  simp [hstarts.takesType]

theorem Marshals.head_append (hmarshals : Marshals host arg type calls) (more : List Call) :
    HeadTakesType (calls ++ more) := by
  obtain ⟨call, others, rfl, hstarts, -⟩ := hmarshals.starts
  simpa [HeadTakesType] using hstarts.takesType

/-! ### Values of basic types -/

theorem Marshals.single {ajArg : AjArg} (hmarshal : ∀ (msg : TxMessage) (rest : Signature),
      msg.HasRoom (encodeArg host.swap arg msg.written.length) →
      ∃ result, marshal host msg (type.sig ++ rest) ajArg =
        .ok (msg.write (encodeArg host.swap arg msg.written.length), rest, result)) :
    Marshals host arg type [.marshalArg ajArg] := by
  have hrun : ∀ (msg : TxMessage) (rest : Signature), msg.nextSig = type.sig ++ rest →
      msg.sigOffset ≠ 255 → msg.HasRoom (encodeArg host.swap arg msg.written.length) →
      Call.run host msg (.marshalArg ajArg) =
        .ok ((msg.advance rest).append (encodeArg host.swap arg msg.written.length)) := by
    intro msg rest hsig hoffset hroom
    obtain ⟨result, hresult⟩ := hmarshal { msg with varOffset := 0 } rest hroom
    have hne : msg.nextSig ≠ [] := by
      rw [hsig]
      exact append_ne_nil_of_left_ne_nil type.sig_ne_nil rest
    rw [← hsig] at hresult
    rw [Call.run, ajMarshalArg_plain hoffset hne hresult]
    rfl
  refine ⟨⟨_, [], rfl, ⟨rfl, ?_⟩, by simp⟩, ?_⟩
  · intro msg rest hsig hoffset hroom
    exact ⟨_, hrun msg rest hsig hoffset hroom, rfl⟩
  · intro msg rest hsig hoffset _ hroom
    rw [runCalls_cons, hrun msg rest hsig hoffset hroom]
    rfl

/-! ### Members and elements -/

/-- The container behind a type of its signature: the signature of an array
stays for the next element. -/
def AjArg.behind (container : AjArg) (rest : Signature) : AjArg :=
  if container.typeId = TypeId.array.char then container else { container with sigPtr := rest }

variable {args : List MsgArg} {first : List Call}

/-- The parts of a container are passed one behind the other. -/
theorem PartsMarshal.cons {rest : Signature} {container after : AjArg}
    (hfirst : Marshals host arg type first) (hsig : container.sigPtr = type.sig ++ rest)
    (hrest : PartsMarshal host args calls (container.behind rest) after) :
    PartsMarshal host (arg :: args) (first ++ calls) container after where
  head := hfirst.head_append calls
  run := by
    intro msg containers hvar houter hoffset hroom
    rw [encodeArgs_cons] at hroom ⊢
    have hnext : msg.nextSig = type.sig ++ rest := by
      rw [TxMessage.nextSig, if_neg (not_not.mpr hvar), houter]
      exact hsig
    have hadvance : msg.advance rest =
        { msg with outer := container.behind rest :: containers } := by
      rw [TxMessage.advance, if_neg (not_not.mpr hvar), houter, AjArg.behind]
      dsimp only
      split
      · rw [← houter]
      · rfl
    have hopen : msg.sigOffset ≠ 255 := fun hend => hfirst.filter_ne_nil calls (hoffset hend)
    have hstep := hfirst.run msg _ hnext hopen (by rw [hadvance]; exact fun h => absurd h hopen)
      hroom.left
    have hothers := hrest.run ((msg.advance rest).append
      (encodeArg host.swap arg msg.written.length)) containers (by rw [hadvance]; exact hvar)
      (by rw [hadvance]; rfl) (by rw [hadvance]; exact fun h => absurd h hopen)
      (by simpa [TxMessage.HasRoom, TxMessage.append, Nat.add_assoc] using hroom)
    rw [runCalls_append, hstep]
    change runCalls host _ calls = _
    rw [hothers, hadvance]
    simp [TxMessage.append, UInt16.add_assoc]

theorem PartsMarshal.nil (container : AjArg) : PartsMarshal host [] [] container container where
  head := by simp [HeadTakesType]
  run := by
    intro msg containers _ houter _ _
    rw [← houter, encodeArgs, TxMessage.append_nil]
    rfl

/-! ### Variants -/

theorem encodeArg_variant (val : MsgArg) (pos : Nat) :
    encodeArg host.swap (.variant val) pos =
      signatureBytes val.sig ++
        encodeArg host.swap val (pos + (signatureBytes val.sig).length) := by
  rw [encodeArg, show (MsgArg.variant val).alignment = 1 from rfl, padding, padBytes_one, align_one]
  rfl

variable {msg : TxMessage}

theorem nextSig_variant {front : List UInt8}
    (hwritten : msg.written = front ++ signatureBytes type.sig)
    (hvar : msg.varOffset = type.sig.length + 1) : msg.nextSig = type.sig := by
  have hsplit : msg.written = front ++ [UInt8.ofNat type.sig.length] ++ (type.sig ++ [0]) := by
    rw [hwritten, append_assoc]
    rfl
  have hstart : msg.written.length - msg.varOffset =
      (front ++ [UInt8.ofNat type.sig.length]).length := by
    rw [hsplit]
    simp only [length_append, length_singleton]
    omega
  rw [TxMessage.nextSig, if_pos (by omega), hstart, hsplit, drop_left,
    cString_append_zero type.sig_nonzero]

theorem Marshals.variant {val : MsgArg} {valType : Ty} (hval : Marshals host val valType inner)
    (htype : OfType val valType) (hshort : val.sig.length < 255) :
    Marshals host (.variant val) .variant (.marshalVariant val.sig :: inner) := by
  rw [htype.sig_eq] at hshort ⊢
  refine ⟨⟨_, inner, rfl, ⟨rfl, ?_⟩, ?_⟩, ?_⟩
  · intro msg rest hnext hoffset hroom
    rw [encodeArg_variant, htype.sig_eq] at hroom
    exact ⟨_, open_variant hshort hnext hoffset hroom.left, rfl⟩
  · intro _
    simpa using hval.head_append []
  · intro msg rest hnext hoffset hafter hroom
    have hopen : (msg.advance rest).sigOffset ≠ 255 := by
      intro hend
      have hcount := hafter hend
      have hinner := length_pos_iff.mpr (hval.filter_ne_nil [])
      simp only [filter_cons, Call.takesType, if_true, length_cons, List.append_nil]
        at hcount hinner
      omega
    rw [encodeArg_variant, htype.sig_eq] at hroom ⊢
    let opened : TxMessage :=
      { (msg.advance rest).append (signatureBytes valType.sig) with
        varOffset := valType.sig.length + 1 }
    have hsig : opened.nextSig = valType.sig ++ [] := by
      rw [List.append_nil]
      exact nextSig_variant rfl rfl
    have hadvance : opened.advance [] = (msg.advance rest).append (signatureBytes valType.sig) := by
      rw [TxMessage.advance, if_pos (Nat.succ_ne_zero _), ← advance_varOffset msg rest]
      rfl
    have hlength : opened.written.length =
        msg.written.length + (signatureBytes valType.sig).length := by
      simp [opened, TxMessage.append]
    have hinner := hval.run opened [] hsig hopen (by rw [hadvance]; exact fun h => absurd h hopen)
      (by
        simpa [TxMessage.HasRoom, opened, TxMessage.append, Nat.add_assoc] using hroom)
    rw [runCalls_cons, Call.run, open_variant hshort hnext hoffset hroom.left]
    change runCalls host opened inner = _
    rw [hinner, hadvance, hlength, TxMessage.append_append]

/-! ### Containers -/

theorem filter_container {typeId : UInt8}
    (hcount : ((Call.marshalContainer typeId :: (inner ++ [.closeContainer])).filter
      Call.takesType).length ≤ 1) : inner.filter Call.takesType = [] := by
  simp only [filter_cons, Call.takesType, if_true, length_cons, filter_append,
    length_append] at hcount
  exact length_eq_zero_iff.mp (by omega)

theorem head_container (hhead : HeadTakesType inner)
    (hmore : (inner ++ [Call.closeContainer]).filter Call.takesType ≠ []) :
    HeadTakesType (inner ++ [.closeContainer]) := by
  cases inner with
  | nil => exact absurd rfl hmore
  | cons call inner => simpa [HeadTakesType] using hhead

/-- An open struct or dict entry has its members behind it. -/
def MembersMarshal (host : Host) (args : List MsgArg) (types : List Ty) (calls : List Call) :
    Prop :=
  ∀ (container : AjArg) (rest : Signature), container.typeId ≠ TypeId.array.char →
    container.sigPtr = sigs types ++ rest →
    PartsMarshal host args calls container { container with sigPtr := rest }

theorem MembersMarshal.nil : MembersMarshal host [] [] [] := by
  intro container rest _ hsig
  rw [show rest = container.sigPtr from hsig.symm]
  exact .nil container

variable {types : List Ty}

theorem MembersMarshal.cons (hfirst : Marshals host arg type first)
    (hrest : MembersMarshal host args types calls) :
    MembersMarshal host (arg :: args) (type :: types) (first ++ calls) := by
  intro container rest hstruct hsig
  rw [sigs, append_assoc] at hsig
  refine .cons hfirst hsig ?_
  rw [AjArg.behind, if_neg hstruct]
  exact hrest _ rest hstruct rfl

theorem Marshals.struct {close : TypeId} (htype : type.head = .structOpen ∧ close = .structClose ∨
      type.head = .dictEntryOpen ∧ close = .dictEntryClose)
    (hsig : type.sig = type.head.char :: (sigs types ++ [close.char]))
    (hlength : type.sig.length ≤ 255) (hencode : ∀ pos, encodeArg host.swap arg pos =
      padding pos 8 ++ encodeArgs host.swap args (align pos 8))
    (hmembers : MembersMarshal host args types inner) :
    Marshals host arg type (.marshalContainer type.head.char :: (inner ++ [.closeContainer])) := by
  have hkind : type.head = .structOpen ∨ type.head = .dictEntryOpen := htype.imp And.left And.left
  have hnotArray : type.head.char ≠ TypeId.array.char := by
    obtain h | h := hkind <;> rw [h] <;> decide
  have hparts rest := hmembers (openContainer type.head (sigs types ++ close.char :: rest) 0)
    (close.char :: rest) hnotArray rfl
  refine ⟨⟨_, inner ++ [.closeContainer], rfl, ⟨rfl, ?_⟩, head_container (hparts []).head⟩, ?_⟩
  · intro msg rest hnext hoffset hroom
    rw [hencode] at hroom
    exact ⟨_, open_struct hkind hsig hlength hnext hoffset hroom.left, rfl⟩
  · intro msg rest hnext hoffset hafter hroom
    rw [hencode] at hroom ⊢
    have hopened : ajMarshalContainer host msg type.head.char = _ :=
      open_struct hkind hsig hlength hnext hoffset hroom.left
    rw [append_assoc] at hopened
    let container := openContainer type.head (sigs types ++ close.char :: rest) 0
    let opened : TxMessage :=
      { (msg.advance rest).append (padding msg.written.length 8) with
        outer := container :: (msg.advance rest).outer }
    have hlengthOpened : opened.written.length = align msg.written.length 8 := by
      simp [opened, TxMessage.append, align]
    have hinner := (hparts rest).run opened (msg.advance rest).outer
      (advance_varOffset msg rest) rfl (fun hend => filter_container (hafter hend))
      (by
        simpa [TxMessage.HasRoom, opened, TxMessage.append, Nat.add_assoc, align]
          using hroom)
    have hclosed : container.typeId = TypeId.structOpen.char ∧ close.char = TypeId.structClose.char ∨
        container.typeId = TypeId.dictEntryOpen.char ∧ close.char = TypeId.dictEntryClose.char := by
      change type.head.char = _ ∧ _ ∨ type.head.char = _ ∧ _
      obtain ⟨hhead, rfl⟩ | ⟨hhead, rfl⟩ := htype <;> simp [hhead]
    rw [runCalls_cons, Call.run, hopened]
    change runCalls host opened _ = _
    rw [runCalls_append, hinner, hlengthOpened, ← TxMessage.append_append]
    change runCalls host _ [Call.closeContainer] = _
    rw [runCalls_cons, Call.run, close_struct hclosed]
    rfl

/-- An open array stays as it is for all of its elements. -/
def ElementsMarshal (host : Host) (elements : List MsgArg) (type : Ty) (calls : List Call) : Prop :=
  ∀ (container : AjArg) (rest : Signature), container.typeId = TypeId.array.char →
    container.sigPtr = type.sig ++ rest → PartsMarshal host elements calls container container

variable {elements : List MsgArg}

theorem ElementsMarshal.cons {element : MsgArg} (hfirst : Marshals host element type first)
    (hrest : ElementsMarshal host elements type calls) :
    ElementsMarshal host (element :: elements) type (first ++ calls) := by
  intro container rest harray hsig
  refine .cons hfirst hsig ?_
  rw [AjArg.behind, if_pos harray]
  exact hrest container rest harray hsig

theorem Marshals.array {elemType : Ty} (hlength : elemType.sig.length < 255)
    (helements : ElementsMarshal host elements elemType inner) :
    Marshals host (.array (some elemType.sig) elements) (.array elemType)
      (.marshalContainer TypeId.array.char :: (inner ++ [.closeContainer])) := by
  have hencode : ∀ pos, encodeArg host.swap (.array (some elemType.sig) elements) pos =
      let pad := elemPadding elemType.head.alignment (align pos 4 + 4)
      let bytes := encodeArgs host.swap elements (align pos 4 + 4 + pad.length)
      padding pos 4 ++ (wordBytes host.swap 4 bytes.length ++ (pad ++ bytes)) := by
    intro pos
    rw [encodeArg, encodeBody_array, Option.getD_some, elemAlignment_sig]
    rfl
  have hreserved : ∀ msg : TxMessage,
      msg.HasRoom (encodeArg host.swap (.array (some elemType.sig) elements) msg.written.length) →
      msg.HasRoom (padding msg.written.length 4 ++ (List.replicate 4 0 ++
        elemPadding elemType.head.alignment (align msg.written.length 4 + 4))) := by
    intro msg hroom
    simp only [hencode, TxMessage.HasRoom, length_append, wordBytes_length,
      length_replicate] at hroom ⊢
    omega
  have hparts rest at' := helements (openContainer .array (elemType.sig ++ rest) at') rest rfl rfl
  refine ⟨⟨_, inner ++ [.closeContainer], rfl, ⟨rfl, ?_⟩, head_container (hparts [] 0).head⟩, ?_⟩
  · intro msg rest hnext hoffset hroom
    exact ⟨_, open_array hlength hnext hoffset (hreserved msg hroom), rfl⟩
  · intro msg rest hnext hoffset hafter hroom
    have hopened : ajMarshalContainer host msg TypeId.array.char = _ :=
      open_array hlength hnext hoffset (hreserved msg hroom)
    rw [hencode] at hroom ⊢
    dsimp only at hroom ⊢
    generalize hpad : elemPadding elemType.head.alignment (align msg.written.length 4 + 4) = pad
      at hroom hopened ⊢
    generalize hbytes : encodeArgs host.swap elements (align msg.written.length 4 + 4 + pad.length) =
      bytes at hroom ⊢
    let opened : TxMessage :=
      { (msg.advance rest).append (padding msg.written.length 4 ++ (List.replicate 4 0 ++ pad)) with
        outer := openContainer .array (elemType.sig ++ rest) (align msg.written.length 4) ::
          (msg.advance rest).outer }
    have hlengthOpened : opened.written.length = align msg.written.length 4 + 4 + pad.length := by
      simp only [opened, TxMessage.append, advance_kept, length_append, padding_length,
        length_replicate, align]
      omega
    have hroomOpened : opened.HasRoom bytes := by
      have hsame : opened.bufSize = msg.bufSize := (advance_kept msg rest).2.2
      simp only [TxMessage.HasRoom, hlengthOpened, hsame, length_append, wordBytes_length,
        padding_length, align] at hroom ⊢
      omega
    have hinner := (hparts rest _).run opened (msg.advance rest).outer
      (advance_varOffset msg rest) rfl (fun hend => filter_container (hafter hend))
      (by rw [hlengthOpened, hbytes]; exact hroomOpened)
    rw [hlengthOpened, hbytes] at hinner
    have hfront : (msg.written ++ padding msg.written.length 4).length =
        align msg.written.length 4 := by
      rw [length_append, padding_length, align]
    have hclose : ajMarshalCloseContainer host (opened.append bytes) = _ :=
      close_array elemType (msg.written ++ padding msg.written.length 4) bytes
        (by rw [hfront]; exact dvd_align _ 4 (by decide)) (by rw [hfront]; rfl)
        (by rw [hfront, hpad]; simp [opened, TxMessage.append])
        (by
          have hlimit := opened.bufSize.toNat_lt
          unfold TxMessage.HasRoom at hroomOpened
          rw [TxMessage.append, length_append]
          omega)
    rw [runCalls_cons, Call.run, hopened]
    change runCalls host opened _ = _
    rw [runCalls_append, hinner]
    change (ajMarshalCloseContainer host (opened.append bytes)).bind _ = _
    rw [hclose, hfront, hpad]
    simp only [Except.bind, opened, TxMessage.append, advance_kept,
      UInt16.ofNat_add, UInt16.add_assoc, append_assoc, length_append,
      length_replicate, wordBytes_length]

/-- An array of scalars passed element by element is the array of these
elements. -/
theorem encodeArg_scalars {type : ScalarType} (values : List (Fin type.range)) (pos : Nat) :
    encodeArg host.swap (.array (some (Ty.scalar type).sig) (values.map (.scalar type))) pos =
      encodeArg host.swap (.scalarArray type values) pos := by
  have hvalues : ∀ (values : List (Fin type.range)) (pos : Nat), type.size ∣ pos →
      encodeArgs host.swap (values.map (.scalar type)) pos = scalarsEncoding host.swap values := by
    intro values
    induction values with
    | nil => intro pos _; rfl
    | cons value values ih =>
      intro pos haligned
      have hpad : padding pos (MsgArg.scalar type value).alignment = [] := by
        rw [padding, show padBytes pos (MsgArg.scalar type value).alignment = 0 from
          padBytes_of_dvd haligned]
        rfl
      have hfirst : encodeArg host.swap (.scalar type value) pos =
          wordBytes host.swap type.size value.val := by
        rw [encodeArg, hpad, nil_append, encodeBody]
      rw [map_cons, encodeArgs_cons, hfirst, wordBytes_length,
        ih _ (Nat.dvd_add haligned (dvd_refl _))]
      rfl
  have haligned : 4 ∣ align pos 4 + 4 :=
    Nat.dvd_add (dvd_align pos 4 (by decide)) (dvd_refl 4)
  have helements : encodeArgs host.swap (values.map (.scalar type))
      (elemStart (Ty.scalar type).head.alignment (align pos 4 + 4)) =
        scalarsEncoding host.swap values := hvalues values _ (size_dvd_elemStart type haligned)
  rw [encodeArg, encodeBody_array, Option.getD_some, elemAlignment_sig,
    show (MsgArg.array (some (Ty.scalar type).sig) (values.map (.scalar type))).alignment = 4 from rfl]
  dsimp only
  rw [helements, scalarsEncoding_length]
  rfl

theorem Marshals.of_eq {arg' : MsgArg} (hmarshals : Marshals host arg type calls)
    (hencode : ∀ pos, encodeArg host.swap arg pos = encodeArg host.swap arg' pos) :
    Marshals host arg' type calls where
  starts := by
    obtain ⟨call, more, hcalls, hstarts, hmore⟩ := hmarshals.starts
    refine ⟨call, more, hcalls, ⟨hstarts.takesType, ?_⟩, hmore⟩
    intro msg rest
    rw [← hencode]
    exact hstarts.advances msg rest
  run := by
    intro msg rest
    rw [← hencode]
    exact hmarshals.run msg rest

theorem Marshals.scalar (type : ScalarType) (value : Fin type.range) :
    Marshals host (.scalar type value) (.scalar type) [scalarCall host type value] :=
  .single fun _ _ hroom => ⟨_, marshal_scalar rfl hroom⟩

theorem Marshals.scalarArray {type : ScalarType} {values : List (Fin type.range)}
    (hcalls : CallsFor host (.scalarArray type values) calls) :
    Marshals host (.scalarArray type values) (.array (.scalar type)) calls := by
  obtain rfl | rfl := hcalls
  · exact .single fun msg rest hroom => marshal_scalars rfl hroom
  · refine Marshals.of_eq (.array (show (Ty.scalar type).sig.length < 255 by simp [Ty.sig]) ?_)
      (encodeArg_scalars values)
    induction values with
    | nil => exact fun container _ _ _ => .nil container
    | cons value values ih => exact .cons (.scalar type value) ih

mutual
/-- The calls for an argument write its encoding. -/
theorem marshals_of_callsFor : ∀ {arg : MsgArg} {type : Ty} {calls : List Call}, OfType arg type →
    type.sig.length ≤ 255 → ShortVariants arg → CallsFor host arg calls →
    Marshals host arg type calls
  | .scalar type value, _, _, htype, _, _, hcalls => by
    cases htype
    cases hcalls
    exact .scalar type value
  | .string str, _, _, htype, _, _, hcalls => by
    cases htype
    obtain ⟨val, len, htext, rfl⟩ := hcalls
    exact .single fun _ _ hroom => ⟨_, marshal_string (.inl rfl) htext rfl hroom⟩
  | .objectPath str, _, _, htype, _, _, hcalls => by
    cases htype
    obtain ⟨val, len, htext, rfl⟩ := hcalls
    exact .single fun _ _ hroom => ⟨_, marshal_string (.inr rfl) htext rfl hroom⟩
  | .signature sig, _, _, htype, _, _, hcalls => by
    obtain ⟨rfl, hshort⟩ := htype
    obtain ⟨val, len, htext, rfl⟩ := hcalls
    obtain ⟨hlen, htake⟩ := text_length TypeId.signature.char htext (by omega)
    refine .single fun msg rest hroom => ⟨ajInitArg TypeId.signature.char false val len, ?_⟩
    have hpad : encodeArg host.swap (.signature sig) msg.written.length =
        signatureBytes (sig.getD []) := by
      rw [encodeArg, padding, show (MsgArg.signature sig).alignment = 1 from rfl, padBytes_one]
      rfl
    rw [hpad] at hroom ⊢
    exact marshal_signature (.inl rfl) hlen htake hshort hroom
  | .variant val, _, _, htype, _, hshort, hcalls => by
    obtain ⟨rfl, valType, hval⟩ := htype
    obtain ⟨inner, hinner, rfl⟩ := hcalls
    exact (marshals_of_callsFor hval (hval.sig_eq ▸ hshort.1.le) hshort.2 hinner).variant hval
      hshort.1
  | .struct members, _, _, htype, hlength, hshort, hcalls => by
    obtain ⟨types, rfl, hmembers⟩ := htype
    obtain ⟨inner, hinner, rfl⟩ := hcalls
    have hinside : (sigs types).length ≤ 255 := by
      simp only [Ty.sig, length_cons, length_append] at hlength
      omega
    exact .struct (.inl ⟨rfl, rfl⟩) (by rw [Ty.sig]; rfl) hlength
      (fun _ => by rw [encodeArg]; rfl)
      (membersMarshal_of_callsFor hmembers hinside hshort hinner)
  | .dictEntry key val, _, _, htype, hlength, hshort, hcalls => by
    obtain ⟨keyType, valType, rfl, hkey, hval⟩ := htype
    obtain ⟨first, second, hfirst, hsecond, rfl⟩ := hcalls
    have hinside : keyType.sig.length ≤ 255 ∧ valType.sig.length ≤ 255 := by
      simp only [Ty.sig, length_cons, length_append] at hlength
      omega
    have hmembers : MembersMarshal host [key, val] [keyType, valType] (first ++ (second ++ [])) :=
      .cons (marshals_of_callsFor hkey hinside.1 hshort.1 hfirst)
        (.cons (marshals_of_callsFor hval hinside.2 hshort.2 hsecond) .nil)
    rw [List.append_nil] at hmembers
    exact .struct (.inr ⟨rfl, rfl⟩) (by simp [Ty.sig, sigs, Ty.head]) hlength
      (fun _ => by rw [encodeArg, encodeBody_dictEntry]; rfl) hmembers
  | .array _ elements, _, _, htype, hlength, hshort, hcalls => by
    obtain ⟨elemType, rfl, rfl, helements⟩ := htype
    obtain ⟨inner, hinner, rfl⟩ := hcalls
    simp only [Ty.sig, length_cons] at hlength
    exact .array hlength (elementsMarshal_of_callsFor helements (by omega) hshort hinner)
  | .scalarArray type values, _, _, htype, _, _, hcalls => by
    cases htype
    exact .scalarArray hcalls
  | .handle _, _, _, htype, _, _, _ | .invalid, _, _, htype, _, _, _ => htype.elim

theorem membersMarshal_of_callsFor : ∀ {args : List MsgArg} {types : List Ty} {calls : List Call},
    OfTypes args types → (sigs types).length ≤ 255 → AllShort args → AllCallsFor host args calls →
    MembersMarshal host args types calls
  | [], _, _, htypes, _, _, hcalls => by
    cases htypes
    cases hcalls
    exact .nil
  | arg :: args, _, _, htypes, hlength, hshort, hcalls => by
    obtain ⟨type, types, rfl, harg, hargs⟩ := htypes
    obtain ⟨first, rest, hfirst, hrest, rfl⟩ := hcalls
    rw [sigs, length_append] at hlength
    exact .cons (marshals_of_callsFor harg (by omega) hshort.1 hfirst)
      (membersMarshal_of_callsFor hargs (by omega) hshort.2 hrest)

theorem elementsMarshal_of_callsFor : ∀ {elements : List MsgArg} {type : Ty} {calls : List Call},
    AllOfType elements type → type.sig.length ≤ 255 → AllShort elements →
    AllCallsFor host elements calls → ElementsMarshal host elements type calls
  | [], _, _, _, _, _, hcalls => by
    cases hcalls
    exact fun container _ _ _ => .nil container
  | element :: elements, _, _, htypes, hlength, hshort, hcalls => by
    obtain ⟨first, rest, hfirst, hrest, rfl⟩ := hcalls
    exact .cons (marshals_of_callsFor htypes.1 hlength hshort.1 hfirst)
      (elementsMarshal_of_callsFor htypes.2 hlength hshort.2 hrest)
end

/-! ### The arguments of a message -/

/-- A message behind its header, before the first argument. -/
def TxMessage.start (signature : Signature) (header : List UInt8) (bufSize : UInt16) : TxMessage :=
  ⟨signature, 0, 0, 0, [], header, bufSize⟩

/-- The last argument takes a single type: it is no variant, and has no
members or elements that are passed by calls of their own. -/
def LastTakesOneType (callss : List (List Call)) : Prop :=
  ∀ calls ∈ callss.getLast?, (calls.filter Call.takesType).length ≤ 1

/-- The message has the types `done` behind it, and `types` still to come. -/
structure TxMessage.At (msg : TxMessage) (done : Signature) (types : List Ty) : Prop where
  signature : msg.signature = done ++ sigs types
  sigOffset : msg.sigOffset = done.length
  varOffset : msg.varOffset = 0
  outer : msg.outer = []
  length : (done ++ sigs types).length ≤ 255

section At

variable {msg : TxMessage} {done : Signature} {type : Ty} {types : List Ty}

theorem TxMessage.At.nextSig (hat : msg.At done types) : msg.nextSig = sigs types := by
  rw [TxMessage.nextSig, if_neg (not_not.mpr hat.varOffset), hat.outer, hat.signature,
    hat.sigOffset]
  exact drop_left

section Advance

variable (hat : msg.At done (type :: types))

include hat

theorem TxMessage.At.advance :
    msg.advance (sigs types) = { msg with sigOffset := (done ++ type.sig).length } := by
  have hlength := hat.length
  rw [TxMessage.advance, if_neg (not_not.mpr hat.varOffset), hat.outer]
  rw [hat.signature]
  simp only [sigs, length_append] at hlength ⊢
  rw [show done.length + (type.sig.length + (sigs types).length) - (sigs types).length =
    done.length + type.sig.length by omega, Nat.mod_eq_of_lt (by omega)]

theorem TxMessage.At.next (bytes : List UInt8) :
    ((msg.advance (sigs types)).append bytes).At (done ++ type.sig) types := by
  have hlength := hat.length
  rw [hat.advance]
  refine ⟨?_, rfl, hat.varOffset, hat.outer, ?_⟩
  · change msg.signature = _
    rw [hat.signature, sigs, append_assoc]
  · rwa [sigs, ← append_assoc] at hlength

theorem TxMessage.At.open : msg.sigOffset ≠ 255 := by
  have hlength := hat.length
  have hpositive := type.sig_length_pos
  rw [hat.sigOffset]
  simp only [sigs, length_append] at hlength
  omega

/-- The offset reaches 255 only with the last type. -/
theorem TxMessage.At.last (hend : (msg.advance (sigs types)).sigOffset = 255) :
    types = [] ∧ (done ++ sigs (type :: types)).length = 255 := by
  have hlength := hat.length
  have hmore := length_le_sigs types
  rw [hat.advance] at hend
  simp only [sigs, length_append] at hlength hend ⊢
  exact ⟨length_eq_zero_iff.mp (by omega), by omega⟩

end Advance

end At

theorem run_at_end {call : Call} (htakes : call.takesType = true) (hend : msg.sigOffset = 255) :
    call.run host msg = .error .errUnexpected := by
  have harg : ∀ arg, ajMarshalArg host msg arg = .error .errUnexpected :=
    fun arg => if_pos hend
  cases call with
  | marshalArg arg => rw [Call.run, harg]; rfl
  | marshalContainer typeId => rw [Call.run, ajMarshalContainer, harg]; rfl
  | closeContainer => exact absurd htakes (by decide)
  | marshalVariant sig =>
    rw [Call.run, ajMarshalVariant, harg]
    split <;> rfl

/-- An argument that takes more than one type is refused where the first of them
ends the signature. -/
theorem Marshals.run_error (hmarshals : Marshals host arg type calls)
    (hnext : msg.nextSig = type.sig ++ []) (hoffset : msg.sigOffset ≠ 255)
    (hend : (msg.advance []).sigOffset = 255) (hmany : ¬(calls.filter Call.takesType).length ≤ 1)
    (hroom : msg.HasRoom (encodeArg host.swap arg msg.written.length)) :
    runCalls host msg calls = .error .errUnexpected := by
  obtain ⟨call, more, rfl, hstarts, hhead⟩ := hmarshals.starts
  obtain ⟨opened, hopened, hsame⟩ := hstarts.advances msg [] hnext hoffset hroom
  have hmore : more.filter Call.takesType ≠ [] := by
    intro hnone
    simp [hstarts.takesType, hnone] at hmany
  cases more with
  | nil => exact absurd rfl hmore
  | cons next others =>
    rw [runCalls_cons, hopened]
    change runCalls host opened (next :: others) = _
    rw [runCalls_cons, run_at_end (hhead hmore next rfl) (hsame.trans hend)]
    rfl

/-- The calls for an argument list write its encoding, unless the last argument
takes more than one type and the signature has 255 characters. -/
theorem runCalls_args : ∀ {args : List MsgArg} {types : List Ty} {callss : List (List Call)}
    {msg : TxMessage} {done : Signature}, OfTypes args types → msg.At done types → AllShort args →
    List.Forall₂ (CallsFor host) args callss →
    msg.HasRoom (encodeArgs host.swap args msg.written.length) →
    (((done ++ sigs types).length = 255 → LastTakesOneType callss) →
      ∃ sigOffset, runCalls host msg callss.flatten =
        .ok (TxMessage.append { msg with sigOffset := sigOffset }
          (encodeArgs host.swap args msg.written.length))) ∧
    ((done ++ sigs types).length = 255 → ¬LastTakesOneType callss →
      runCalls host msg callss.flatten = .error .errUnexpected)
  | [], _, _, msg, _, htypes, _, _, hcalls, _ => by
    cases hcalls
    exact ⟨fun _ => ⟨msg.sigOffset, by rw [encodeArgs, TxMessage.append_nil]; rfl⟩,
      fun _ hlast => absurd (by simp [LastTakesOneType]) hlast⟩
  | arg :: args, _, calls :: callss, msg, done, htypes, hat, hshort, hcalls, hroom => by
    obtain ⟨type, types, rfl, harg, hargs⟩ := htypes
    obtain ⟨hfirst, hothers⟩ := forall₂_cons.mp hcalls
    rw [encodeArgs_cons] at hroom ⊢
    have hlength := hat.length
    simp only [sigs, length_append] at hlength
    have hmarshals := marshals_of_callsFor harg (by omega) hshort.1 hfirst
    have hstep := hmarshals.run msg (sigs types) hat.nextSig hat.open
    have hrest := runCalls_args hargs
      (hat.next (encodeArg host.swap arg msg.written.length)) hshort.2 hothers
      (by simpa [TxMessage.HasRoom, TxMessage.append, Nat.add_assoc] using hroom)
    rw [append_assoc] at hrest
    have hgo (hend : (msg.advance (sigs types)).sigOffset = 255 →
        (calls.filter Call.takesType).length ≤ 1) :
        runCalls host msg (calls :: callss).flatten = runCalls host ((msg.advance (sigs types)).append
          (encodeArg host.swap arg msg.written.length)) callss.flatten := by
      rw [flatten_cons, runCalls_append, hstep hend hroom.left]
      rfl
    have hok (hmore : (done ++ sigs (type :: types)).length = 255 → LastTakesOneType callss)
        (hend : (msg.advance (sigs types)).sigOffset = 255 →
          (calls.filter Call.takesType).length ≤ 1) :
        ∃ sigOffset, runCalls host msg (calls :: callss).flatten =
          .ok (TxMessage.append { msg with sigOffset := sigOffset }
            (encodeArg host.swap arg msg.written.length ++ encodeArgs host.swap args
              (msg.written.length + (encodeArg host.swap arg msg.written.length).length))) := by
      obtain ⟨sigOffset, hrun⟩ := hrest.1 hmore
      refine ⟨sigOffset, ?_⟩
      rw [hgo hend, hrun, hat.advance]
      simp [TxMessage.append, UInt16.add_assoc]
    cases args with
    | nil =>
      cases hargs
      cases hothers
      refine ⟨fun hlast => hok (by simp [LastTakesOneType]) fun hoffset =>
        hlast (hat.last hoffset).2 calls rfl, fun htotal hlast => ?_⟩
      rw [flatten_cons, flatten_nil, List.append_nil]
      refine hmarshals.run_error (by simpa [sigs] using hat.nextSig) hat.open ?_
        (by simpa [LastTakesOneType] using hlast) hroom.left
      have hadvance := hat.advance
      rw [sigs] at hadvance
      rw [hadvance]
      simpa [sigs] using htotal
    | cons second args =>
      cases callss with
      | nil => cases hothers
      | cons more callss =>
        have hend : (msg.advance (sigs types)).sigOffset = 255 →
            (calls.filter Call.takesType).length ≤ 1 := by
          intro hoffset
          obtain ⟨rfl, -⟩ := hat.last hoffset
          simp [OfTypes] at hargs
        exact ⟨fun hlast => hok hlast hend, fun htotal hlast => (hgo hend).trans
          (hrest.2 htotal hlast)⟩

end Calls

/-! ### The two clients -/

/-- The body that the calls write behind a header is the one that
`MarshalArgs` writes at any address that is a multiple of eight. -/
def BodiesAgree (host : Host) (header : List UInt8) (bufSize : UInt16) (args : List MsgArg)
    (signature : Signature) (callss : List (List Call)) : Prop :=
  ∃ msg bytes, runCalls host (.start signature header bufSize) callss.flatten = .ok msg ∧
    msg.written = header ++ bytes ∧
    ∀ env : MarshalEnv, env.endianSwap = host.swap → ∀ pos, 8 ∣ pos →
      marshalArgs env args pos = .ok bytes

section Agree

variable {host : Host} {header : List UInt8} {bufSize : UInt16} {args : List MsgArg}
  {types : List Ty} {callss : List (List Call)}

theorem start_at (hlength : (sigs types).length ≤ 255) :
    (TxMessage.start (sigs types) header bufSize).At [] types :=
  ⟨rfl, rfl, rfl, rfl, hlength⟩

theorem start_hasRoom (hheader : 8 ∣ header.length)
    (hfits : header.length + (encodeArgs host.swap args 0).length ≤ bufSize.toNat) :
    (TxMessage.start (sigs types) header bufSize).HasRoom
      (encodeArgs host.swap args header.length) := by
  rw [encodeArgs_congr host.swap args (show header.length % 8 = 0 % 8 from
    Nat.mod_eq_zero_of_dvd hheader)]
  exact hfits

variable (hagree : BodiesAgree host header bufSize args (sigs types) callss)
  (htypes : OfTypes args types) (hlength : (sigs types).length ≤ 255) (hshort : AllShort args)
  (hcalls : List.Forall₂ (CallsFor host) args callss) (hheader : 8 ∣ header.length)
  (hfits : header.length + (encodeArgs host.swap args 0).length ≤ bufSize.toNat)

include hagree htypes hlength hshort hcalls hheader hfits

theorem BodiesAgree.lastTakesOneType : (sigs types).length = 255 → LastTakesOneType callss := by
  intro htotal
  by_contra hlast
  obtain ⟨msg, bytes, hrun, -⟩ := hagree
  rw [(runCalls_args htypes (start_at hlength) hshort hcalls (start_hasRoom hheader hfits)).2 htotal
    hlast] at hrun
  cases hrun

theorem BodiesAgree.taken : AllTaken args := by
  have hlast := hagree.lastTakesOneType htypes hlength hshort hcalls hheader hfits
  obtain ⟨msg, bytes, hrun, hwritten, hmarshal⟩ := hagree
  obtain ⟨sigOffset, hcallsRun⟩ :=
    (runCalls_args htypes (start_at hlength) hshort hcalls (start_hasRoom hheader hfits)).1 hlast
  rw [hcallsRun] at hrun
  cases hrun
  have hbytes : bytes = encodeArgs host.swap args 0 := by
    rw [encodeArgs_congr host.swap args
      (show 0 % 8 = header.length % 8 from (Nat.mod_eq_zero_of_dvd hheader).symm)]
    exact (append_cancel_left hwritten).symm
  have hzero := hmarshal ⟨0, host.swap, fun _ => .ok 0⟩ rfl 0 (dvd_zero 8)
  rw [hbytes] at hzero
  exact (marshalArgs_written (htypes.mem_ofType hlength) hshort hzero).taken rfl rfl

end Agree

/-- For arguments that fit the transmit buffer and have variants with short
signatures, the thin client writes the body that the standard client writes
exactly when the standard client takes the arguments, and the signature of the
message has less than 255 characters or its last argument takes one type. -/
theorem bodiesAgree_iff (host : Host) (header : List UInt8) (bufSize : UInt16) (args : List MsgArg)
    (types : List Ty) (callss : List (List Call)) (htypes : OfTypes args types)
    (hlength : (sigs types).length ≤ 255) (hshort : AllShort args)
    (hcalls : List.Forall₂ (CallsFor host) args callss) (hheader : 8 ∣ header.length)
    (hfits : header.length + (encodeArgs host.swap args 0).length ≤ bufSize.toNat) :
    BodiesAgree host header bufSize args (sigs types) callss ↔
      AllTaken args ∧ ((sigs types).length = 255 → LastTakesOneType callss) := by
  constructor
  · intro hagree
    exact ⟨hagree.taken htypes hlength hshort hcalls hheader hfits,
      hagree.lastTakesOneType htypes hlength hshort hcalls hheader hfits⟩
  · rintro ⟨htaken, hlast⟩
    have haligned : header.length % 8 = 0 := Nat.mod_eq_zero_of_dvd hheader
    obtain ⟨sigOffset, hrun⟩ :=
      (runCalls_args htypes (start_at hlength) hshort hcalls (start_hasRoom hheader hfits)).1 hlast
    refine ⟨_, encodeArgs host.swap args header.length, hrun, rfl, ?_⟩
    intro env hswap pos hpos
    have hsame : encodeArgs host.swap args header.length = encodeArgs env.endianSwap args pos := by
      rw [hswap, encodeArgs_congr host.swap args (haligned.trans (Nat.mod_eq_zero_of_dvd hpos).symm)]
    have hsmall : (encodeArgs env.endianSwap args pos).length ≤ maxArrayLen := by
      have hroom : (TxMessage.start (sigs types) header bufSize).HasRoom
          (encodeArgs host.swap args header.length) := start_hasRoom hheader hfits
      change header.length + (encodeArgs host.swap args header.length).length ≤ bufSize.toNat at hroom
      have hlimit := bufSize.toNat_lt
      rw [← hsame, maxArrayLen]
      omega
    rw [hsame]
    exact marshalArgs_encodes pos (htypes.mem_ofType hlength) hshort htaken hsmall

/-- A byte and an empty array of dict entries, which needs padding. -/
theorem bodiesAgree_emptyDict :
    BodiesAgree .littleEndian (List.replicate 16 0) 1000
      [.scalar .byte ⟨7, by decide⟩, .array (some (Ty.dictEntry .string .variant).sig) []]
      (sigs [.scalar .byte, .array (.dictEntry .string .variant)])
      [[scalarCall .littleEndian .byte ⟨7, by decide⟩],
        [.marshalContainer TypeId.array.char, .closeContainer]] := by
  refine (bodiesAgree_iff .littleEndian (List.replicate 16 0) 1000 _
    [.scalar .byte, .array (.dictEntry .string .variant)] _ ?_ (by decide) ?_ ?_ (by decide) ?_).mpr
    ⟨?_, ?_⟩
  · exact ⟨_, _, rfl, rfl, _, _, rfl, ⟨_, rfl, rfl, trivial⟩, rfl⟩
  · exact ⟨trivial, trivial, trivial⟩
  · exact .cons rfl (.cons ⟨[], rfl, rfl⟩ .nil)
  · decide
  · exact ⟨trivial, ⟨by simp, trivial⟩, trivial⟩
  · intro htotal
    exact absurd htotal (by decide)

/-- An array of structs of 251 bytes; its signature has 254 characters. -/
def longSignatureType : Ty := .array (.struct (List.replicate 251 (.scalar .byte)))

def longSignatureArray : MsgArg :=
  .array (some (Ty.struct (List.replicate 251 (.scalar .byte))).sig) []

/-- The standard client refuses an empty object path, and does not copy the
element signature of an array whose signature has 254 characters into the
signature of a variant; the thin client refuses the value of a variant that is
the last argument of a message whose signature has 255 characters. -/
theorem bodies_disagree :
    ¬BodiesAgree .littleEndian (List.replicate 16 0) 1000 [.objectPath (some [])]
        (sigs [.objectPath])
        [[.marshalArg (ajInitArg TypeId.objectPath.char false [0] 0)]] ∧
      ¬BodiesAgree .littleEndian (List.replicate 16 0) 1000 [.variant longSignatureArray]
        (sigs [.variant])
        [[.marshalVariant longSignatureArray.sig, .marshalContainer TypeId.array.char,
          .closeContainer]] ∧
      ¬BodiesAgree .littleEndian (List.replicate 16 0) 1000
        [longSignatureArray, .variant (.scalar .byte ⟨7, by decide⟩)]
        (sigs [longSignatureType, .variant])
        [[.marshalContainer TypeId.array.char, .closeContainer],
          [.marshalVariant (Ty.scalar .byte).sig,
            scalarCall .littleEndian .byte ⟨7, by decide⟩]] := by
  have htype : OfType longSignatureArray longSignatureType := ⟨_, rfl, rfl, trivial⟩
  refine ⟨fun hagree => ?_, fun hagree => ?_, fun hagree => ?_⟩
  · have htaken := hagree.taken ⟨_, _, rfl, rfl, rfl⟩ (by decide) ⟨trivial, trivial⟩
      (.cons ⟨[0], 0, ⟨rfl, .inl rfl⟩, rfl⟩ .nil) (by decide) (by decide)
    exact htaken.1 rfl
  · have htaken := hagree.taken ⟨_, _, rfl, ⟨rfl, _, htype⟩, rfl⟩ (by decide)
      ⟨⟨by decide +kernel, trivial⟩, trivial⟩
      (.cons ⟨_, ⟨[], rfl, rfl⟩, rfl⟩ .nil) (by decide) (by decide +kernel)
    have hfits : ¬SigFits longSignatureArray 0 := by
      rw [longSignatureArray, SigFits, Option.getD_some]
      decide +kernel
    exact hfits htaken.1.1
  · have hlast := hagree.lastTakesOneType
      ⟨_, _, rfl, htype, _, _, rfl, ⟨rfl, _, rfl⟩, rfl⟩ (by decide +kernel)
      ⟨trivial, ⟨by decide, trivial⟩, trivial⟩
      (.cons ⟨[], rfl, rfl⟩ (.cons ⟨_, rfl, rfl⟩ .nil)) (by decide) (by decide +kernel)
      (by decide +kernel)
    exact absurd (hlast _ rfl) (by decide)

end AllJoyn.ThinClient
