import AllJoyn.Lib.Bytes
import AllJoyn.Mdns.Size

/-!
What the reader makes of a packet that was written. The writer's map from the
rests of names to positions and the reader's map from positions to the rests of
names are built apart from each other; `Synced` says that the second inverts
the first, and every part of a packet keeps it so.
-/

namespace AllJoyn.Mdns

open Lib.Bytes List

variable {α : Type} {offsets after : Offsets} {headerOffset : Nat} {bytes : List UInt8}

/-- Every position that the writer may point to is known to the reader, and none
of the reader's lies at or behind `limit`. -/
structure Synced (offsets : Offsets) (compressed : Compressed) (limit : Nat) : Prop where
  inverse : ∀ name offset, offsets.lookup name = some offset →
    offset < limit ∧ compressed.lookup offset = some name
  below : ∀ entry ∈ compressed, entry.1 < limit

theorem Synced.start : Synced [] [] 12 := ⟨by simp, by simp⟩

/-- A reader takes from the bytes of a writer the value that was written, with
any bytes behind them, and the maps stay in step. Positions are of 14 bits. -/
def Reads {α : Type} (writer : Writer) (reader : Reader α) (value : α) : Prop :=
  ∀ offsets compressed headerOffset bytes after, Synced offsets compressed headerOffset →
    writer offsets headerOffset = some (bytes, after) → headerOffset + bytes.length ≤ 16384 →
    ∀ rest, ∃ compressed',
      reader (bytes ++ rest) compressed headerOffset = some (value, bytes.length, compressed') ∧
        Synced after compressed' (headerOffset + bytes.length)

/-! ### Names -/

/-- A name of labels of 1 to 63 bytes, each with a dot behind it. -/
inductive ValidName : Str → Prop
  | nil : ValidName []
  | label (label rest : Str) (hlow : 0 < label.length) (hhigh : label.length ≤ 63)
      (hdot : dot ∉ label) (hrest : ValidName rest) : ValidName (label ++ dot :: rest)

theorem label_byte (n : Nat) (hlow : 0 < n) (hhigh : n ≤ 63) :
    (UInt8.ofNat n &&& 0xC0) >>> 6 ≠ 3 ∧ (UInt8.ofNat n).toNat = n := by
  interval_cases n <;> decide

theorem toNat_u16OfBytes (high low : UInt8) :
    (u16OfBytes high low).toNat = high.toNat * 256 + low.toNat := by
  have hhigh := high.toNat_lt
  have hlow := low.toNat_lt
  simp only [u16OfBytes, UInt16.toNat_or, UInt16.toNat_shiftLeft, UInt8.toNat_toUInt16,
    UInt16.reduceToNat, Nat.reduceMod]
  rw [Nat.shiftLeft_eq, Nat.mod_eq_of_lt (by omega), ← Nat.shiftLeft_eq,
    ← Nat.shiftLeft_add_eq_or_of_lt hlow]

theorem pointer_bytes (offset : Nat) (hlt : offset < 16384) :
    ((0xC0 ||| UInt8.ofNat (offset / 256)) &&& 0xC0) >>> 6 = 3 ∧
      (u16OfBytes (0xC0 ||| UInt8.ofNat (offset / 256)) (UInt8.ofNat offset) &&& 0x3FFF).toNat
        = offset := by
  have hhigh : ∀ q < 64, ((0xC0 ||| UInt8.ofNat q) &&& 0xC0) >>> 6 = 3 ∧
      (0xC0 ||| UInt8.ofNat q).toNat = 192 + q := by
    decide +kernel
  obtain ⟨hpointer, hbyte⟩ := hhigh (offset / 256) (by omega)
  refine ⟨hpointer, ?_⟩
  have hmask : (0x3FFF : UInt16).toNat = 2 ^ 14 - 1 := rfl
  rw [UInt16.toNat_and, hmask, Nat.and_two_pow_sub_one_eq_mod, toNat_u16OfBytes,
    UInt8.toNat_ofNat']
  omega

theorem lookup_graph {β : Type} [DecidableEq α] (f : α → β) (keys : List α) (key : α) :
    (keys.map fun k => (k, f k)).lookup key = if key ∈ keys then some (f key) else none := by
  induction keys with
  | nil => rfl
  | cons k keys ih =>
    rw [map_cons, lookup_cons, ih]
    by_cases hkey : key = k
    · simp [hkey]
    · simp [hkey, beq_false_of_ne hkey]

/-- The reader follows the writer along a name. `before` is the part of the name
that was read, which the rest is appended to with a dot; the positions that the
reader notes are those that the writer adds to its map. -/
theorem readNameLoop_serialize (compressed : Compressed) (headerOffset : Nat) (name : Str)
    (hvalid : ValidName name) :
    ∀ (fuel fuel' : Nat) (before : Str) (offsets : Offsets) (noted : List Nat) (bytes : List UInt8)
      (after : Offsets) (rest : List UInt8),
    (∀ known offset, known.length ≤ name.length → offsets.lookup known = some offset →
      offset < 16384 ∧ compressed.lookup offset = some known) →
    serializeNameLoop fuel name offsets (headerOffset + (dotted before).length) =
      some (bytes, after) →
    (bytes ++ rest).length < fuel' →
    ∃ positions : List Nat,
      readNameLoop compressed headerOffset fuel' (bytes ++ rest) before (dotted before).length noted =
        (dotted before ++ name, some ((dotted before).length + bytes.length, noted ++ positions)) ∧
      after = (positions.map fun o => ((dotted before ++ name).drop (o - headerOffset), o)).reverse
        ++ offsets ∧
      ∀ o ∈ positions, headerOffset ≤ o ∧
        o < headerOffset + (dotted before).length + bytes.length := by
  induction hvalid with
  | nil =>
    intro fuel fuel' before offsets noted bytes after rest _ hwrite hfuel
    cases fuel with
    | zero => cases hwrite
    | succ fuel =>
      obtain ⟨rfl, rfl⟩ := hwrite
      obtain ⟨fuel', rfl⟩ := Nat.exists_eq_succ_of_ne_zero (by omega : fuel' ≠ 0)
      refine ⟨[], ?_, by simp, by simp⟩
      simp [readNameLoop]
  | label label tail hlow hhigh hdot hrest ih =>
    intro fuel fuel' before offsets noted bytes after rest hknown hwrite hfuel
    cases fuel with
    | zero => cases hwrite
    | succ fuel =>
      obtain ⟨fuel', rfl⟩ := Nat.exists_eq_succ_of_ne_zero (by omega : fuel' ≠ 0)
      rw [serializeNameLoop, if_neg (by simp)] at hwrite
      split at hwrite
      · -- the rest of the name is replaced by its position
        rename_i offset hlookup
        obtain ⟨rfl, rfl⟩ := hwrite
        obtain ⟨hlt, hcompressed⟩ := hknown _ offset le_rfl hlookup
        obtain ⟨hpointer, hoffset⟩ := pointer_bytes offset hlt
        refine ⟨[], ?_, by simp, by simp⟩
        simp [readNameLoop, hpointer, hoffset, hcompressed]
      · -- a label is written, and the rest of the name noted
        rw [(span_mark tail hdot).1, (span_mark tail hdot).2] at hwrite
        obtain ⟨⟨inner, after'⟩, hinner, hwrite⟩ := Option.bind_eq_some_iff.1 hwrite
        simp only [Option.pure_def, Option.some.injEq, Prod.mk.injEq] at hwrite
        obtain ⟨rfl, rfl⟩ := hwrite
        obtain ⟨hbyte, hlength⟩ := label_byte label.length hlow hhigh
        have hsome : dotted before ++ label ≠ [] := by
          intro hnil
          rw [(append_eq_nil_iff.1 hnil).2] at hlow
          exact lt_irrefl _ hlow
        have hdotted : dotted (dotted before ++ label) = dotted before ++ label ++ [dot] :=
          if_neg hsome
        have hposition : headerOffset + (dotted before).length + 1 + label.length =
            headerOffset + (dotted (dotted before ++ label)).length := by
          rw [hdotted]
          simp only [length_append, length_cons, length_nil]
          omega
        rw [hposition] at hinner
        have hfuel' : (inner ++ rest).length < fuel' := by
          simp only [length_append, length_cons] at hfuel ⊢
          omega
        have hknown' : ∀ known offset, known.length ≤ tail.length →
            ((label ++ dot :: tail, headerOffset + (dotted before).length) :: offsets).lookup known
              = some offset →
            offset < 16384 ∧ compressed.lookup offset = some known := by
          intro known offset hshort hfound
          have hshorter : known.length < (label ++ dot :: tail).length := by
            simp only [length_append, length_cons]
            omega
          rw [lookup_cons, beq_false_of_ne] at hfound
          · exact hknown known offset hshorter.le hfound
          · rintro rfl
            exact lt_irrefl _ hshorter
        obtain ⟨positions, hread, hafter, hbounds⟩ := ih fuel fuel' (dotted before ++ label) _
          (noted ++ [headerOffset + (dotted before).length]) inner after' rest hknown' hinner hfuel'
        have hfull : dotted (dotted before ++ label) ++ tail =
            dotted before ++ (label ++ dot :: tail) := by
          rw [hdotted]
          simp
        rw [hfull] at hread hafter
        refine ⟨(headerOffset + (dotted before).length) :: positions, ?_, ?_, ?_⟩
        · rw [cons_append, readNameLoop]
          · have hsize : (dotted before).length + 1 + label.length =
                (dotted (dotted before ++ label)).length := by
              omega
            rw [hlength, if_neg (by simp), if_pos hlow, append_assoc,
              drop_left' rfl, take_left' rfl, hsize, hread, append_assoc]
            simp only [length_cons, length_append]
            congr 3
            omega
          · intro low behind hpointer
            exact absurd (of_decide_eq_true hpointer) hbyte
        · have hhere : (dotted before ++ (label ++ dot :: tail)).drop
              (headerOffset + (dotted before).length - headerOffset) = label ++ dot :: tail := by
            rw [Nat.add_sub_cancel_left, drop_left' rfl]
          rw [hafter, map_cons, reverse_cons, hhere, append_assoc,
            singleton_append]
        · intro o ho
          simp only [length_cons, length_append]
          obtain rfl | ho := mem_cons.1 ho
          · omega
          · have hbound := hbounds o ho
            omega

theorem readName_serialize (name : Str) (hvalid : ValidName name) (offsets : Offsets)
    (compressed : Compressed) (headerOffset : Nat) (bytes : List UInt8) (after : Offsets)
    (hsynced : Synced offsets compressed headerOffset)
    (hwrite : serializeName name offsets headerOffset = some (bytes, after))
    (hlimit : headerOffset ≤ 16384) (rest : List UInt8) :
    ∃ compressed', readName (bytes ++ rest) compressed headerOffset =
        (name, bytes.length, compressed') ∧
      Synced after compressed' (headerOffset + bytes.length) := by
  obtain ⟨positions, hread, hafter, hbounds⟩ := readNameLoop_serialize compressed headerOffset name
    hvalid (name.length + 1) ((bytes ++ rest).length + 1) [] offsets [] bytes after rest
    (fun known offset _ hlookup => by
      obtain ⟨hlt, hcompressed⟩ := hsynced.inverse known offset hlookup
      exact ⟨by omega, hcompressed⟩)
    hwrite (Nat.lt_succ_self _)
  have hnil : dotted [] = [] := rfl
  simp only [hnil, nil_append, length_nil, Nat.zero_add] at hread hafter hbounds
  refine ⟨_, by rw [readName, hread], ?_⟩
  rw [foldl_flip_cons_eq_append, ← map_reverse, hafter, ← map_reverse]
  constructor
  · intro known offset hlookup
    rw [lookup_append] at hlookup
    rw [lookup_append, lookup_graph (fun o => name.drop (o - headerOffset))]
    cases hnew : ((positions.reverse.map fun o => (name.drop (o - headerOffset), o)).lookup known) with
    | some found =>
      rw [hnew, Option.some_or, Option.some.injEq] at hlookup
      subst hlookup
      obtain ⟨before, behind, hentries, -⟩ := lookup_eq_some_iff.1 hnew
      have hmem : (known, found) ∈ before ++ (known, found) :: behind := by simp
      obtain ⟨o, ho, hentry⟩ := mem_map.1 (hentries ▸ hmem)
      obtain ⟨rfl, rfl⟩ := Prod.mk.inj hentry
      have hbound := hbounds o (mem_reverse.1 ho)
      rw [if_pos ho]
      exact ⟨hbound.2, rfl⟩
    | none =>
      rw [hnew] at hlookup
      obtain ⟨hlt, hcompressed⟩ := hsynced.inverse known offset hlookup
      have hold : offset ∉ positions.reverse := by
        intro ho
        have hbound := hbounds offset (mem_reverse.1 ho)
        omega
      rw [if_neg hold]
      exact ⟨by omega, hcompressed⟩
  · intro entry hentry
    obtain hnew | hold := mem_append.1 hentry
    · obtain ⟨o, ho, rfl⟩ := mem_map.1 hnew
      exact (hbounds o (mem_reverse.1 ho)).2
    · have hlt := hsynced.below entry hold
      omega

/-! ### Parts of fixed size -/

theorem u16OfBytes_u16Bytes (v : UInt16) : u16OfBytes (v >>> 8).toUInt8 v.toUInt8 = v := by
  apply UInt16.toNat_inj.1
  have hlt := v.toNat_lt
  rw [toNat_u16OfBytes]
  simp [Nat.shiftRight_eq_div_pow]
  omega

theorem u32OfBytes_u32Bytes (v : UInt32) :
    u32OfBytes (v >>> 24).toUInt8 (v >>> 16).toUInt8 (v >>> 8).toUInt8 v.toUInt8 = v := by
  apply UInt32.toBitVec_inj.1
  ext i hi
  simp only [u32OfBytes, UInt32.toBitVec_or, UInt32.toBitVec_shiftLeft, UInt8.toBitVec_toUInt32, BitVec.shiftLeft_eq', BitVec.getElem_or, BitVec.getElem_shiftLeft]
  interval_cases i <;> simp

theorem seq_eq_some {first second : Writer}
    (hwrite : first.seq second offsets headerOffset = some (bytes, after)) :
    ∃ bytes₁ middle bytes₂, first offsets headerOffset = some (bytes₁, middle) ∧
      second middle (headerOffset + bytes₁.length) = some (bytes₂, after) ∧
      bytes = bytes₁ ++ bytes₂ := by
  obtain ⟨⟨bytes₁, middle⟩, hfirst, hwrite⟩ := Option.bind_eq_some_iff.1 hwrite
  obtain ⟨⟨bytes₂, last⟩, hsecond, hwrite⟩ := Option.bind_eq_some_iff.1 hwrite
  obtain ⟨rfl, rfl⟩ := hwrite
  exact ⟨bytes₁, middle, bytes₂, hfirst, hsecond, rfl⟩

theorem emit_eq_some {written : List UInt8}
    (hwrite : Writer.emit bytes offsets headerOffset = some (written, after)) :
    written = bytes ∧ after = offsets := by
  simp only [Writer.emit, Option.some.injEq, Prod.mk.injEq] at hwrite
  exact ⟨hwrite.1.symm, hwrite.2.symm⟩

theorem withLength_eq_some {content : Writer}
    (hwrite : content.withLength offsets headerOffset = some (bytes, after)) :
    ∃ inner, content offsets (headerOffset + 2) = some (inner, after) ∧
      bytes = u16Bytes (UInt16.ofNat inner.length) ++ inner := by
  obtain ⟨⟨inner, last⟩, hinner, hwrite⟩ := Option.bind_eq_some_iff.1 hwrite
  obtain ⟨rfl, rfl⟩ := hwrite
  exact ⟨inner, hinner, rfl⟩

theorem Synced.mono {compressed : Compressed} {limit limit' : Nat}
    (h : Synced offsets compressed limit) (hle : limit ≤ limit') :
    Synced offsets compressed limit' := by
  constructor
  · intro name offset hlookup
    obtain ⟨hlt, hcompressed⟩ := h.inverse name offset hlookup
    exact ⟨by omega, hcompressed⟩
  · intro entry hentry
    have hlt := h.below entry hentry
    omega

variable {name : Str} {writer : α → Writer} {packet : Packet}

theorem serializeName_ne_nil
    (hwrite : serializeName name offsets headerOffset = some (bytes, after)) : bytes ≠ [] := by
  rintro rfl
  rw [serializeName, serializeNameLoop] at hwrite
  split at hwrite
  · simp at hwrite
  · split at hwrite
    · simp at hwrite
    · simp only at hwrite
      split at hwrite
      · cases hwrite
      · simp only [Option.bind_eq_bind] at hwrite
        obtain ⟨_, -, hwrite⟩ := Option.bind_eq_some_iff.1 hwrite
        simp at hwrite

theorem reads_question (question : Question) (hvalid : ValidName question.qName) :
    Reads question.serialize readQuestion question := by
  intro _ compressed _ _ _ hsynced hwrite hlimit rest
  obtain ⟨name, middle, fixed, hname, hfixed, rfl⟩ := seq_eq_some hwrite
  obtain ⟨rfl, rfl⟩ := emit_eq_some hfixed
  obtain ⟨compressed', hread, hsynced'⟩ := readName_serialize _ hvalid _ _ _ _ _ hsynced hname
    (by omega) (u16Bytes question.qType ++ u16Bytes question.qClass ++ rest)
  have hsome : name.length ≠ 0 := fun hzero =>
    serializeName_ne_nil hname (eq_nil_of_length_eq_zero hzero)
  refine ⟨compressed', ?_, hsynced'.mono (by rw [length_append]; omega)⟩
  rw [append_assoc, readQuestion]
  simp only [hread, if_neg hsome]
  simp [u16Bytes, u16OfBytes_u16Bytes]

/-! ### Text fields -/

theorem less_asymm {s1 s2 : Str} (h : less s1 s2 = true) : less s2 s1 = false := by
  unfold less at h ⊢
  cases h1 : afterUnderscore s1 <;> cases h2 : afterUnderscore s2 <;>
    simp only [h1, h2, decide_eq_true_eq, decide_eq_false_iff_not] at h ⊢
  · exact List.lt_asymm h
  · exact List.lt_asymm h
  · exact List.lt_asymm h
  · exact UInt32.lt_asymm h

theorem assign_between {before behind : Fields} {key value : Str}
    (hbefore : ∀ entry ∈ before, less entry.1 key = true)
    (hbehind : ∀ entry ∈ behind, less key entry.1 = true) :
    assign key value (before ++ behind) = before ++ (key, value) :: behind := by
  induction before with
  | nil =>
    cases behind with
    | nil => rfl
    | cons next behind =>
      have hnext := hbehind next mem_cons_self
      have hnot : ¬ less next.1 key = true := by
        rw [less_asymm hnext]
        simp
      rw [nil_append, assign, if_neg hnot, if_pos hnext]
      rfl
  | cons entry before ih =>
    obtain ⟨hentry, hrest⟩ := forall_mem_cons.1 hbefore
    rw [cons_append, assign, if_pos hentry, ih hrest, cons_append]

/-- The keys are in the order of the map. -/
def Ordered (fields : Fields) : Prop := fields.Pairwise fun entry next => less entry.1 next.1 = true

def assignAll (fields entries : Fields) : Fields :=
  entries.foldl (fun fields entry => assign entry.1 entry.2 fields) fields

theorem assignAll_between (before entries behind : Fields)
    (hordered : Ordered (before ++ entries ++ behind)) :
    assignAll (before ++ behind) entries = before ++ entries ++ behind := by
  induction entries generalizing before with
  | nil => simp [assignAll]
  | cons entry entries ih =>
    have hparts := pairwise_append.1 hordered
    have hbefore : ∀ first ∈ before, less first.1 entry.1 = true := fun first hfirst =>
      (pairwise_append.1 hparts.1).2.2 first hfirst entry mem_cons_self
    have hbehind : ∀ next ∈ behind, less entry.1 next.1 = true :=
      hparts.2.2 entry (by simp)
    have hsplit : before ++ entry :: entries = before ++ [entry] ++ entries := by simp
    rw [hsplit] at hordered ⊢
    rw [← ih _ hordered]
    simp [assignAll, assign_between hbefore hbehind]

/-- Fields that are assigned from `txtvers` on, and round to it, end up in their order. -/
theorem assignAll_rotated {fields rotated : Fields} (hordered : Ordered fields)
    (hrotated : rotatedFields fields = some rotated) : assignAll newFields rotated = fields := by
  have hsplit : fields.takeWhile (·.1 ≠ txtvers) ++ fields.dropWhile (·.1 ≠ txtvers) = fields :=
    takeWhile_append_dropWhile
  have hhead := List.head?_dropWhile_not (fun entry : Str × Str => decide (entry.1 ≠ txtvers)) fields
  rw [rotatedFields] at hrotated
  cases hdrop : fields.dropWhile (·.1 ≠ txtvers) with
  | nil =>
    rw [hdrop] at hrotated
    cases hrotated
  | cons version after =>
    rw [hdrop] at hrotated hhead hsplit
    obtain rfl := Option.some.inj hrotated
    have hkey : version.1 = txtvers := by simpa using hhead
    have hfirst : assign version.1 version.2 newFields = [version] := by
      have hself : ¬ less txtvers txtvers = true := by decide +kernel
      rw [newFields, assign, hkey, if_neg hself, if_neg hself, ← hkey]
    have hordered' : Ordered ([version] ++ after) := by
      rw [← hsplit] at hordered
      exact (pairwise_append.1 hordered).2.1
    have hbehind : assignAll newFields (version :: after) = version :: after := by
      have hlast := assignAll_between [version] after [] (by rwa [List.append_nil])
      simpa [assignAll, hfirst] using hlast
    have hall := assignAll_between [] (fields.takeWhile (·.1 ≠ txtvers)) (version :: after)
      (by simpa only [nil_append, hsplit] using hordered)
    rw [nil_append, nil_append, hsplit] at hall
    rw [assignAll, foldl_append]
    rw [assignAll] at hbehind
    rw [hbehind]
    exact hall

/-- The entries of a text record can be written. -/
def ValidEntry (entry : Str × Str) : Prop :=
  equals ∉ entry.1 ∧ (entry.1 ++ equals :: entry.2).length ≤ 255

theorem readFieldsLoop_entry (fuel : Nat) (content rest : List UInt8) (rdlen : UInt16)
    (fields : Fields) (hshort : content.length ≤ 255) (hrdlen : rdlen ≠ 0) :
    readFieldsLoop (fuel + 1) (UInt8.ofNat content.length :: (content ++ rest)) rdlen fields =
      readFieldsLoop fuel rest (rdlen - UInt16.ofNat (content.length + 1))
        (assign (content.takeWhile (· ≠ equals)) ((content.dropWhile (· ≠ equals)).drop 1)
          fields) := by
  have hsz : (UInt8.ofNat content.length).toNat = content.length := by
    rw [UInt8.toNat_ofNat']
    omega
  have hone : (UInt8.ofNat content.length).toUInt16 + 1 = UInt16.ofNat (content.length + 1) := by
    apply UInt16.toNat_inj.1
    rw [UInt16.toNat_add, UInt8.toNat_toUInt16, hsz]
    rfl
  rw [readFieldsLoop, if_neg hrdlen]
  simp only [hsz, hone, take_left' rfl, drop_left' rfl]
  rw [if_neg (by simp)]

theorem readFieldsLoop_entries (entries : Fields) (hvalid : ∀ entry ∈ entries, ValidEntry entry) :
    ∀ (fuel : Nat) (rest : List UInt8) (fields : Fields),
    (entries.flatMap entryBytes).length < 2 ^ 16 →
    (entries.flatMap entryBytes ++ rest).length < fuel →
    readFieldsLoop fuel (entries.flatMap entryBytes ++ rest)
        (UInt16.ofNat (entries.flatMap entryBytes).length) fields =
      some (0, assignAll fields entries) := by
  induction entries with
  | nil =>
    intro fuel rest fields _ hfuel
    obtain ⟨fuel, rfl⟩ := Nat.exists_eq_succ_of_ne_zero (by omega : fuel ≠ 0)
    rfl
  | cons entry entries ih =>
    intro fuel rest fields hlength hfuel
    obtain ⟨fuel, rfl⟩ := Nat.exists_eq_succ_of_ne_zero (by omega : fuel ≠ 0)
    obtain ⟨⟨hkey, hshort⟩, hentries⟩ := forall_mem_cons.1 hvalid
    obtain ⟨htake, hdrop⟩ := span_mark entry.2 hkey
    have hbytes : entryBytes entry = UInt8.ofNat (entry.1 ++ equals :: entry.2).length ::
        (entry.1 ++ equals :: entry.2) := rfl
    generalize entry.1 ++ equals :: entry.2 = content at hshort htake hdrop hbytes
    generalize hbehind : entries.flatMap entryBytes = behind at ih
    rw [flatMap_cons, hbytes, hbehind] at hlength hfuel ⊢
    simp only [length_cons, length_append] at hlength hfuel
    have hnext := ih hentries fuel rest (assign entry.1 entry.2 fields) (by omega)
      (by rw [length_append]; omega)
    have hsome : UInt16.ofNat (content.length + behind.length + 1) ≠ 0 := by
      intro hzero
      have hnat := congrArg UInt16.toNat hzero
      rw [UInt16.toNat_ofNat', Nat.mod_eq_of_lt (by omega)] at hnat
      simp at hnat
    have hrdlen : UInt16.ofNat (content.length + behind.length + 1) -
        UInt16.ofNat (content.length + 1) = UInt16.ofNat behind.length := by
      have hsum : content.length + behind.length + 1 = behind.length + (content.length + 1) := by
        omega
      rw [hsum, UInt16.ofNat_add, UInt16.add_sub_cancel]
    rw [cons_append, cons_append, append_assoc, length_cons,
      length_append, readFieldsLoop_entry fuel content _ _ _ hshort hsome, htake, hdrop,
      drop_one, tail_cons, hrdlen, hnext]
    rfl

/-! ### Records -/

variable (text : AddressText)

theorem reads_text (fields : Fields) (hvalid : ∀ entry ∈ fields, ValidEntry entry)
    (hversion : txtvers ∈ fields.map (·.1)) (hordered : Ordered fields) :
    Reads ((RData.text fields).serialize text) (readRData text .text) (.text fields) := by
  intro _ compressed _ _ _ hsynced hwrite hlimit rest
  obtain ⟨rotated, hrotated, hperm⟩ := rotatedFields_eq_some hversion
  simp only [RData.serialize, hrotated, Option.bind_eq_bind] at hwrite
  obtain ⟨inner, hinner, rfl⟩ := withLength_eq_some hwrite
  obtain ⟨rfl, rfl⟩ := emit_eq_some hinner
  rw [length_append] at hlimit
  have hshort : (rotated.flatMap entryBytes).length < 2 ^ 16 := by omega
  have hentries := readFieldsLoop_entries rotated
    (fun entry hentry => hvalid entry (hperm.mem_iff.1 hentry)) _ rest newFields hshort
    (Nat.lt_succ_self _)
  rw [assignAll_rotated hordered hrotated] at hentries
  refine ⟨compressed, ?_, hsynced.mono (Nat.le_add_right _ _)⟩
  simp only [u16Bytes, cons_append, nil_append, readRData, u16OfBytes_u16Bytes,
    UInt16.toNat_ofNat_of_lt' hshort, hentries]
  simp
  omega

theorem reads_ptr (name : Str) (hvalid : ValidName name) :
    Reads ((RData.ptr name).serialize text) (readRData text .ptr) (.ptr name) := by
  intro _ compressed _ _ _ hsynced hwrite hlimit rest
  obtain ⟨inner, hinner, rfl⟩ := withLength_eq_some hwrite
  rw [length_append] at hlimit
  obtain ⟨compressed', hread, hsynced'⟩ := readName_serialize name hvalid _ _ _ _ _
    (hsynced.mono (Nat.le_add_right _ 2)) hinner (by simp [u16Bytes] at hlimit; omega) rest
  have hsome := serializeName_ne_nil hinner
  refine ⟨compressed', ?_, hsynced'.mono (by simp [u16Bytes]; omega)⟩
  simp only [u16Bytes, cons_append, nil_append, readRData, u16OfBytes_u16Bytes, hread]
  simp [hsome]
  omega

theorem reads_srv (priority weight port : UInt16) (target : Str) (hvalid : ValidName target) :
    Reads ((RData.srv priority weight port target).serialize text) (readRData text .srv)
      (.srv priority weight port target) := by
  intro _ compressed _ _ _ hsynced hwrite hlimit rest
  obtain ⟨inner, hinner, rfl⟩ := withLength_eq_some hwrite
  obtain ⟨fixed, middle, name, hfixed, hname, rfl⟩ := seq_eq_some hinner
  obtain ⟨rfl, rfl⟩ := emit_eq_some hfixed
  simp only [u16Bytes, cons_append, nil_append, length_cons, length_nil]
    at hlimit hname
  obtain ⟨compressed', hread, hsynced'⟩ := readName_serialize target hvalid _ _ _ _ _
    (hsynced.mono (by omega)) hname (by omega) rest
  have hlength : (UInt16.ofNat (name.length + 6)).toNat = name.length + 6 :=
    UInt16.toNat_ofNat_of_lt' (show _ < 65536 by omega)
  have hlong : ¬ UInt16.ofNat (name.length + 6) < 6 := by
    rw [UInt16.lt_iff_toNat_lt, hlength]
    simp
  refine ⟨compressed', ?_, hsynced'.mono (by simp [u16Bytes]; omega)⟩
  simp only [u16Bytes, cons_append, nil_append, readRData, u16OfBytes_u16Bytes,
    length_cons, hlong, hread]
  simp
  omega

/-- The addresses of a record are those of the text, in the text that the reader
makes of an address. -/
def RData.printed : RData → RData
  | .a addr => .a ((text.stringToIPv4 addr).elim addr text.ipv4ToString)
  | .aaaa addr => .aaaa ((text.stringToIPv6 addr).elim addr text.ipv6ToString)
  | rdata => rdata

theorem reads_a (addr : Str) (hvalid : (text.stringToIPv4 addr).isSome) :
    Reads ((RData.a addr).serialize text) (readRData text .a) ((RData.a addr).printed text) := by
  intro _ compressed _ _ _ hsynced hwrite hlimit rest
  obtain ⟨address, haddress⟩ := Option.isSome_iff_exists.1 hvalid
  simp only [RData.serialize, haddress] at hwrite
  obtain ⟨rfl, rfl⟩ := emit_eq_some hwrite
  refine ⟨compressed, ?_, hsynced.mono (Nat.le_add_right _ _)⟩
  obtain ⟨p0, p1, p2, p3, rfl⟩ : ∃ p0 p1 p2 p3, address = #v[p0, p1, p2, p3] := by
    refine ⟨address[0], address[1], address[2], address[3], ?_⟩
    ext i hi
    interval_cases i <;> rfl
  simp [readRData, RData.printed, haddress]

theorem reads_aaaa (addr : Str) (hvalid : (text.stringToIPv6 addr).isSome) :
    Reads ((RData.aaaa addr).serialize text) (readRData text .aaaa)
      ((RData.aaaa addr).printed text) := by
  intro _ compressed _ _ _ hsynced hwrite hlimit rest
  obtain ⟨address, haddress⟩ := Option.isSome_iff_exists.1 hvalid
  simp only [RData.serialize] at hwrite
  obtain ⟨rfl, rfl⟩ := emit_eq_some hwrite
  refine ⟨compressed, ?_, hsynced.mono (Nat.le_add_right _ _)⟩
  have hlength : address.toList.length = 16 := address.length_toList
  have hlong : 16 ≤ (address.toList ++ rest).length := by
    rw [length_append]
    omega
  simp only [readRData]
  simp [RData.printed, haddress]
  rfl

/-- The class that writes the data. -/
def RData.cls : RData → RDataClass
  | .default => .default
  | .text _ => .text
  | .a _ => .a
  | .aaaa _ => .aaaa
  | .ptr _ => .ptr
  | .srv .. => .srv

/-- The names, text entries and addresses of the data are well formed. -/
def RData.WellFormed : RData → Prop
  | .default => True
  | .text fields => ∀ entry ∈ fields, ValidEntry entry
  | .a addr => (text.stringToIPv4 addr).isSome
  | .aaaa addr => (text.stringToIPv6 addr).isSome
  | .ptr name => ValidName name
  | .srv _ _ _ target => ValidName target

/-- The data is of a class that writes all that it reads; text fields have their
version and are in the order of the map. -/
def RData.Regular : RData → Prop
  | .default => False
  | .text fields => txtvers ∈ fields.map (·.1) ∧ Ordered fields
  | _ => True

theorem reads_rdata (rdata : RData) (hwell : rdata.WellFormed text) (hregular : rdata.Regular) :
    Reads (rdata.serialize text) (readRData text rdata.cls) (rdata.printed text) := by
  cases rdata with
  | default => exact absurd hregular id
  | text fields => exact reads_text text fields hwell hregular.1 hregular.2
  | a addr => exact reads_a text addr hwell
  | aaaa addr => exact reads_aaaa text addr hwell
  | ptr name => exact reads_ptr text name hwell
  | srv priority weight port target => exact reads_srv text priority weight port target hwell

def Record.printed (record : Record) : Record :=
  { record with rdata := record.rdata.printed text }

def Record.WellFormed (record : Record) : Prop :=
  ValidName record.domainName ∧ record.rdata.WellFormed text

/-- The data is of the class that the type of the record stands for. -/
def Record.Regular (record : Record) : Prop :=
  rdataClass record.rrType = record.rdata.cls ∧ record.rdata.Regular

theorem reads_record (record : Record) (hwell : record.WellFormed text)
    (hregular : record.Regular) :
    Reads (record.serialize text) (readRecord text) (record.printed text) := by
  intro _ compressed _ _ _ hsynced hwrite hlimit rest
  obtain ⟨name, middle, behind, hname, hbehind, rfl⟩ := seq_eq_some hwrite
  obtain ⟨fixed, middle, rdata, hfixed, hrdata, rfl⟩ := seq_eq_some hbehind
  obtain ⟨rfl, rfl⟩ := emit_eq_some hfixed
  simp only [length_append] at hlimit hrdata
  obtain ⟨known, hreadName, hsyncedName⟩ := readName_serialize _ hwell.1 _ _ _ _ _ hsynced hname
    (by omega) (u16Bytes record.rrType ++ u16Bytes record.rrClass ++ u32Bytes record.rrTTL ++
      (rdata ++ rest))
  obtain ⟨compressed', hread, hsynced'⟩ := reads_rdata text record.rdata hwell.2 hregular.2 _ _ _ _ _
    (hsyncedName.mono (Nat.le_add_right _ _)) hrdata (by omega) rest
  have hsome : name.length ≠ 0 := fun hzero =>
    serializeName_ne_nil hname (eq_nil_of_length_eq_zero hzero)
  rw [← hregular.1] at hread
  refine ⟨compressed', ?_, hsynced'.mono (by simp only [length_append]; omega)⟩
  simp only [append_assoc] at hreadName ⊢
  simp only [readRecord, hreadName, if_neg hsome, drop_left' rfl]
  simp only [u16Bytes, u32Bytes, length_cons, length_nil, cons_append,
    nil_append] at hread ⊢
  simp only [u16OfBytes_u16Bytes, u32OfBytes_u32Bytes, hread]
  simp [Record.printed]
  omega

theorem reads_all {reader : Reader α} {value : α → α} (parts : List α)
    (h : ∀ part ∈ parts, Reads (writer part) reader (value part)) :
    Reads (.all (parts.map writer)) (readAll reader parts.length) (parts.map value) := by
  induction parts with
  | nil =>
    intro _ compressed _ _ _ hsynced hwrite hlimit rest
    obtain ⟨rfl, rfl⟩ := emit_eq_some hwrite
    exact ⟨compressed, rfl, hsynced⟩
  | cons part parts ih =>
    intro _ compressed _ _ _ hsynced hwrite hlimit rest
    obtain ⟨hpart, hparts⟩ := forall_mem_cons.1 h
    obtain ⟨first, middle, behind, hfirst, hbehind, rfl⟩ := seq_eq_some hwrite
    rw [length_append] at hlimit
    obtain ⟨known, hread, hknown⟩ := hpart _ _ _ _ _ hsynced hfirst (by omega) (behind ++ rest)
    obtain ⟨compressed', hreads, hsynced'⟩ := ih hparts _ _ _ _ _ hknown hbehind (by omega) rest
    refine ⟨compressed', ?_, by rwa [length_append, ← Nat.add_assoc]⟩
    have hfits : ¬ first.length > (first ++ (behind ++ rest)).length := by simp
    rw [append_assoc, length_cons, readAll]
    simp only [hread, Option.bind_eq_bind, Option.bind_some, if_neg hfits, drop_left' rfl,
      hreads, Option.pure_def, map_cons]
    rw [length_append]

/-! ### Packets -/

/-- The header is read back when the counts of questions and answers and the
response code fit what is written of them. -/
theorem readHeader_bytes (header : Header) (hqd : header.qdCount.toNat < 256)
    (han : header.anCount.toNat < 256) (hcode : header.rCode.toNat < 16) (rest : List UInt8) :
    readHeader (header.bytes ++ rest) = some header := by
  have hqdCount : header.qdCount.toUInt8.toUInt16 = header.qdCount := by
    apply UInt16.toNat_inj.1
    rw [UInt8.toNat_toUInt16, UInt16.toNat_toUInt8]
    omega
  have hanCount : u16OfBytes 0 header.anCount.toUInt8 = header.anCount := by
    apply UInt16.toNat_inj.1
    rw [toNat_u16OfBytes]
    simp
    omega
  have hrCode : header.rCode &&& 0x0F = header.rCode := by
    have hmask : (0x0F : UInt8).toNat = 2 ^ 4 - 1 := rfl
    apply UInt8.toNat_inj.1
    rw [UInt8.toNat_and, hmask, Nat.and_two_pow_sub_one_eq_mod]
    omega
  have hqrType : decide ((if header.qrType then (0x80 : UInt8) else 0) >>> 7 ≠ 0) = header.qrType := by
    cases header.qrType <;> decide
  simp [Header.bytes, u16Bytes, readHeader, u16OfBytes_u16Bytes, hqdCount, hanCount, hrCode,
    hqrType]

/-- At least one question or record, names of labels of 1 to 63 bytes that end in
a dot, text entries of at most 255 bytes with keys without an equals sign, and
addresses that parse. -/
structure Packet.WellFormed (packet : Packet) : Prop where
  some : packet.questions ≠ [] ∨ packet.records ≠ []
  questions : ∀ question ∈ packet.questions, ValidName question.qName
  records : ∀ record ∈ packet.records, record.WellFormed text

/-- What the reader relies on beyond that: the counts of the header are those of
the packet, of questions and answers a byte's number, and the response code is of
4 bits; a query has a question; and the data of the records is regular. -/
structure Packet.Regular (packet : Packet) : Prop where
  qdCount : packet.header.qdCount.toNat = packet.questions.length
  anCount : packet.header.anCount.toNat = packet.answers.length
  nsCount : packet.header.nsCount.toNat = packet.authority.length
  arCount : packet.header.arCount.toNat = packet.additional.length
  questionsFit : packet.questions.length < 256
  answersFit : packet.answers.length < 256
  rCode : packet.header.rCode.toNat < 16
  query : packet.header.qrType = false → packet.questions ≠ []
  records : ∀ record ∈ packet.records, record.Regular

/-- The packet as it is read: the addresses are printed anew. -/
def Packet.printed (packet : Packet) : Packet :=
  { packet with
    answers := packet.answers.map (·.printed text)
    authority := packet.authority.map (·.printed text)
    additional := packet.additional.map (·.printed text) }

/-- The packet is written, and if its size is below 16384 bytes, the reader takes
all the bytes and returns the packet. -/
def Packet.RoundTrips (packet : Packet) : Prop :=
  ∃ bytes, packet.serialize text = some bytes ∧
    (bytes.length < 16384 → deserialize text bytes = some (packet.printed text, bytes.length))

theorem ValidName.dotEnded (hvalid : ValidName name) : DotEnded name := by
  induction hvalid with
  | nil => rfl
  | label label rest _ _ hdot _ ih =>
    rw [dotEnded_iff _ (by simp)]
    exact ⟨dot, rest, (span_mark rest hdot).2, ih⟩

theorem RData.WellFormed.writable {rdata : RData} (hwell : rdata.WellFormed text)
    (hregular : rdata.Regular) : rdata.Writable := by
  cases rdata with
  | default => exact trivial
  | text fields => exact hregular.1
  | a addr => exact trivial
  | aaaa addr => exact trivial
  | ptr name => exact ValidName.dotEnded hwell
  | srv priority weight port target => exact ValidName.dotEnded hwell

theorem Packet.WellFormed.writable (hwell : packet.WellFormed text) (hregular : packet.Regular) :
    packet.Writable := by
  constructor
  · intro question hquestion
    exact (hwell.questions question hquestion).dotEnded
  · intro record hrecord
    obtain ⟨hname, hrdata⟩ := hwell.records record hrecord
    exact ⟨hname.dotEnded, hrdata.writable text (hregular.records record hrecord).2⟩

/-- A writer that writes something whenever it succeeds. -/
def Writes (writer : Writer) : Prop :=
  ∀ offsets headerOffset bytes after, writer offsets headerOffset = some (bytes, after) →
    bytes ≠ []

theorem writes_name (name : Str) (behind : Writer) : Writes ((serializeName name).seq behind) := by
  intro offsets headerOffset bytes after hwrite
  obtain ⟨first, middle, rest, hfirst, -, rfl⟩ := seq_eq_some hwrite
  exact append_ne_nil_of_left_ne_nil (serializeName_ne_nil hfirst) rest

theorem writes_all (h : ∀ part, Writes (writer part)) {parts : List α} (hsome : parts ≠ []) :
    Writes (.all (parts.map writer)) := by
  obtain ⟨part, parts, rfl⟩ := exists_cons_of_ne_nil hsome
  intro offsets headerOffset bytes after hwrite
  obtain ⟨first, middle, rest, hfirst, -, rfl⟩ := seq_eq_some hwrite
  exact append_ne_nil_of_left_ne_nil (h part _ _ _ _ hfirst) rest

theorem body_ne_nil (hsome : packet.questions ≠ [] ∨ packet.records ≠ [])
    (hwrite : packet.body text [] 12 = some (bytes, after)) : bytes ≠ [] := by
  rintro rfl
  obtain ⟨qs, _, behind, hqs, hbehind, hnil⟩ := seq_eq_some hwrite
  obtain ⟨rfl, rfl⟩ := append_eq_nil_iff.1 hnil.symm
  obtain ⟨an, _, rest, han, hrest, hnil⟩ := seq_eq_some hbehind
  obtain ⟨rfl, rfl⟩ := append_eq_nil_iff.1 hnil.symm
  obtain ⟨ns, _, ar, hns, har, hnil⟩ := seq_eq_some hrest
  obtain ⟨rfl, rfl⟩ := append_eq_nil_iff.1 hnil.symm
  have hquestions : packet.questions = [] := by
    by_contra hnot
    exact writes_all (fun question => writes_name _ _) hnot _ _ _ _ hqs rfl
  have hempty : ∀ (records : List Record) (offsets after : Offsets) (headerOffset : Nat),
      Writer.all (records.map (·.serialize text)) offsets headerOffset = some ([], after) →
      records = [] := by
    intro records offsets after headerOffset hall
    by_contra hnot
    exact writes_all (fun record => writes_name _ _) hnot _ _ _ _ hall rfl
  obtain hsome | hsome := hsome
  · exact hsome hquestions
  · apply hsome
    rw [Packet.records, hempty _ _ _ _ han, hempty _ _ _ _ hns, hempty _ _ _ _ har]
    rfl

theorem deserialize_body (packet : Packet) (hwell : packet.WellFormed text)
    (hregular : packet.Regular) {body : List UInt8}
    (hwrite : packet.body text [] 12 = some (body, after)) (hsize : 12 + body.length < 16384) :
    deserialize text (packet.header.bytes ++ body) =
      some (packet.printed text, 12 + body.length) := by
  have hrecords : ∀ records ⊆ packet.records, Reads (.all (records.map (·.serialize text)))
      (readAll (readRecord text) records.length) (records.map (·.printed text)) := by
    intro records hsubset
    apply reads_all
    intro record hrecord
    exact reads_record text record (hwell.records record (hsubset hrecord))
      (hregular.records record (hsubset hrecord))
  have hquestions : Reads (.all (packet.questions.map (·.serialize)))
      (readAll readQuestion packet.questions.length) (packet.questions.map id) := by
    apply reads_all
    intro question hquestion
    exact reads_question question (hwell.questions question hquestion)
  have hsome := length_pos_of_ne_nil (body_ne_nil text hwell.some hwrite)
  obtain ⟨qs, offsets₁, behind, hqs, hbehind, rfl⟩ := seq_eq_some hwrite
  obtain ⟨an, offsets₂, rest, han, hrest, rfl⟩ := seq_eq_some hbehind
  obtain ⟨ns, offsets₃, ar, hns, har, rfl⟩ := seq_eq_some hrest
  have hlength : (qs ++ (an ++ (ns ++ ar))).length =
      qs.length + an.length + ns.length + ar.length := by
    simp [Nat.add_assoc]
  obtain ⟨known₁, hread₁, hsynced₁⟩ := hquestions _ _ _ _ _ Synced.start hqs (by omega)
    (an ++ (ns ++ ar))
  obtain ⟨known₂, hread₂, hsynced₂⟩ := hrecords packet.answers (by simp [Packet.records]) _ _ _ _ _
    hsynced₁ han (by omega) (ns ++ ar)
  obtain ⟨known₃, hread₃, hsynced₃⟩ := hrecords packet.authority (by simp [Packet.records])
    _ _ _ _ _ hsynced₂ hns (by omega) ar
  obtain ⟨known₄, hread₄, -⟩ := hrecords packet.additional (by simp [Packet.records]) _ _ _ _ _
    hsynced₃ har (by omega) []
  have hheader : packet.header.bytes.length = 12 := rfl
  have hreadHeader := readHeader_bytes packet.header
    (by rw [hregular.qdCount]; exact hregular.questionsFit)
    (by rw [hregular.anCount]; exact hregular.answersFit) hregular.rCode
    (qs ++ (an ++ (ns ++ ar)))
  have hgo : ¬ (packet.header.qrType = false ∧ packet.header.qdCount = 0 ∨
      (packet.header.bytes ++ (qs ++ (an ++ (ns ++ ar)))).length ≤ 12) := by
    rintro (⟨hquery, hnone⟩ | hshort)
    · have hcount := hregular.qdCount
      rw [hnone] at hcount
      exact hregular.query hquery (eq_nil_of_length_eq_zero hcount.symm)
    · rw [length_append] at hshort
      omega
  have hdrop₂ : (qs ++ (an ++ (ns ++ ar))).drop (qs.length + an.length) = ns ++ ar := by
    rw [← append_assoc, drop_left' (by rw [length_append])]
  have hdrop₃ : (qs ++ (an ++ (ns ++ ar))).drop (qs.length + an.length + ns.length) = ar := by
    rw [← append_assoc, ← append_assoc,
      drop_left' (by simp only [length_append])]
  rw [List.append_nil] at hread₄
  simp only [deserialize, hreadHeader, Option.bind_eq_bind, Option.bind_some, if_neg hgo,
    drop_left' hheader, hregular.qdCount, hregular.anCount, hregular.nsCount,
    hregular.arCount, hread₁, drop_left' rfl, hread₂, hdrop₂, hread₃, hdrop₃, hread₄]
  simp [Packet.printed, Nat.add_assoc]

/-- A packet that is well formed and regular survives being written and read. -/
theorem packet_roundTrips (packet : Packet) (hwell : packet.WellFormed text)
    (hregular : packet.Regular) : packet.RoundTrips text := by
  obtain ⟨hwritable, -⟩ := agrees_body text packet [] [] 12 rfl (by simp [AllDotEnded])
  obtain ⟨body, after, -, -, hbody, -⟩ := hwritable (hwell.writable text hregular)
  have hserialize : packet.serialize text = some (packet.header.bytes ++ body) := by
    simp [Packet.serialize, hbody]
  have hlength : (packet.header.bytes ++ body).length = 12 + body.length := by
    rw [length_append]
    rfl
  refine ⟨_, hserialize, ?_⟩
  intro hsize
  rw [hlength] at hsize ⊢
  exact deserialize_body text packet hwell hregular hbody hsize

/-- A name from its labels. -/
def nameOf (labels : List String) : Str := labels.flatMap fun label => str label ++ [dot]

theorem validName_nameOf (labels : List String)
    (h : ∀ label ∈ labels, 0 < (str label).length ∧ (str label).length ≤ 63 ∧ dot ∉ str label) :
    ValidName (nameOf labels) := by
  induction labels with
  | nil => exact .nil
  | cons label labels ih =>
    obtain ⟨⟨hlow, hhigh, hdot⟩, hlabels⟩ := forall_mem_cons.1 h
    have hname : nameOf (label :: labels) = str label ++ dot :: nameOf labels := by
      simp [nameOf]
    rw [hname]
    exact .label _ _ hlow hhigh hdot (ih hlabels)

/-- The answer to a query for the service, with its host and its text. -/
def serviceResponse : Packet :=
  { header := ⟨7, true, 0, 1, 1, 0, 2⟩
    questions := [⟨nameOf ["_alljoyn", "_tcp", "local"], 12, 1⟩]
    answers := [⟨nameOf ["_alljoyn", "_tcp", "local"], 12, 1, 120,
      .ptr (nameOf ["guid", "_alljoyn", "_tcp", "local"])⟩]
    authority := []
    additional :=
      [⟨nameOf ["guid", "_alljoyn", "_tcp", "local"], 33, 1, 120,
        .srv 1 1 9955 (nameOf ["guid", "local"])⟩,
      ⟨nameOf ["guid", "_alljoyn", "_tcp", "local"], 16, 1, 120,
        .text (assign (str "r4port") (str "9955") newFields)⟩] }

theorem serviceResponse_roundTrips : serviceResponse.WellFormed noAddresses ∧
    serviceResponse.Regular ∧ serviceResponse.RoundTrips noAddresses := by
  have hservice : ValidName (nameOf ["_alljoyn", "_tcp", "local"]) :=
    validName_nameOf _ (by decide +kernel)
  have hguid : ValidName (nameOf ["guid", "_alljoyn", "_tcp", "local"]) :=
    validName_nameOf _ (by decide +kernel)
  have hhost : ValidName (nameOf ["guid", "local"]) := validName_nameOf _ (by decide +kernel)
  have hentries : ∀ entry ∈ assign (str "r4port") (str "9955") newFields,
      equals ∉ entry.1 ∧ (entry.1 ++ equals :: entry.2).length ≤ 255 := by
    decide +kernel
  have hwell : serviceResponse.WellFormed noAddresses := by
    refine ⟨Or.inl (cons_ne_nil _ _), ?_, ?_⟩
    · simpa [serviceResponse] using hservice
    · intro record hrecord
      simp only [serviceResponse, Packet.records, List.append_nil, singleton_append,
        mem_cons, not_mem_nil, or_false] at hrecord
      obtain rfl | rfl | rfl := hrecord
      · exact ⟨hservice, hguid⟩
      · exact ⟨hguid, hhost⟩
      · exact ⟨hguid, hentries⟩
  have hregular : serviceResponse.Regular := by
    refine ⟨rfl, rfl, rfl, rfl, by decide, by decide, by decide, fun _ => cons_ne_nil _ _, ?_⟩
    have hversion : txtvers ∈ (assign (str "r4port") (str "9955") newFields).map (·.1) := by
      decide +kernel
    have hordered : (assign (str "r4port") (str "9955") newFields).Pairwise
        fun entry next => less entry.1 next.1 = true := by
      decide +kernel
    intro record hrecord
    simp only [serviceResponse, Packet.records, List.append_nil, singleton_append,
      mem_cons, not_mem_nil, or_false] at hrecord
    obtain rfl | rfl | rfl := hrecord
    · exact ⟨rfl, trivial⟩
    · exact ⟨rfl, trivial⟩
    · exact ⟨rfl, hversion, hordered⟩
  exact ⟨hwell, hregular, packet_roundTrips noAddresses serviceResponse hwell hregular⟩

/-- A query that has a record and no question. -/
def questionlessQuery : Packet :=
  { header := ⟨7, false, 0, 0, 0, 0, 1⟩
    questions := []
    answers := []
    authority := []
    additional := [⟨nameOf ["sender-info", "local"], 16, 1, 120, .text newFields⟩] }

/-- The packet is well formed, and refused by the reader. -/
theorem questionlessQuery_refused : questionlessQuery.WellFormed noAddresses ∧
    ∃ bytes, questionlessQuery.serialize noAddresses = some bytes ∧ bytes.length < 16384 ∧
      deserialize noAddresses bytes = none := by
  have hname : ValidName (nameOf ["sender-info", "local"]) :=
    validName_nameOf _ (by decide +kernel)
  have hentries : ∀ entry ∈ newFields,
      equals ∉ entry.1 ∧ (entry.1 ++ equals :: entry.2).length ≤ 255 := by
    decide +kernel
  have hwritten : (questionlessQuery.serialize noAddresses).any (fun bytes =>
      bytes.length < 16384 ∧ deserialize noAddresses bytes = none) = true := by
    decide +kernel
  constructor
  · refine ⟨Or.inr (cons_ne_nil _ _), by simp [questionlessQuery], ?_⟩
    intro record hrecord
    obtain rfl := mem_singleton.1 hrecord
    exact ⟨hname, hentries⟩
  · rw [Option.any_eq_true] at hwritten
    obtain ⟨bytes, hbytes, hrefused⟩ := hwritten
    exact ⟨bytes, hbytes, of_decide_eq_true hrefused⟩

end AllJoyn.Mdns
