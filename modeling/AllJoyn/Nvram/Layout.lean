import AllJoyn.Nvram.Store

/-!
The memory of the NVRAM as a list of entries behind the sentinel, with the free
area behind them. Searching, deleting and compacting are what they should be on
the list.
-/

namespace AllJoyn.Nvram

open Lib.Bytes List Nat

variable {entry : Entry} {rest : List UInt8} {id : UInt16} {turns : Nat} {entries : List Entry}

/-- An entry with the data up to its capacity. -/
structure Entry where
  id : UInt16
  data : List UInt8
  valid : id ≠ invalidData
  aligned : 4 ∣ data.length

namespace Entry

def header (entry : Entry) : List UInt8 := headerBytes entry.id (UInt16.ofNat entry.data.length)

def bytes (entry : Entry) : List UInt8 := entry.header ++ entry.data

def isLive (entry : Entry) : Bool := entry.id ≠ invalidId

/-- The deleted entry, which keeps its place. -/
def dead (entry : Entry) : Entry := { entry with id := invalidId, valid := by decide }

end Entry

@[simp]
theorem headerBytes_length (id capacity : UInt16) :
    (headerBytes id capacity).length = entryHeaderSize := by
  simp [headerBytes, entryHeaderSize]

@[simp]
theorem Entry.bytes_length (entry : Entry) :
    entry.bytes.length = entryHeaderSize + entry.data.length := by
  simp [Entry.bytes, Entry.header]

/-- The entries one behind the other. -/
def packed (entries : List Entry) : List UInt8 := entries.flatMap Entry.bytes

@[simp]
theorem packed_nil : packed [] = [] := rfl

@[simp]
theorem packed_cons (entry : Entry) (entries : List Entry) :
    packed (entry :: entries) = entry.bytes ++ packed entries := rfl

@[simp]
theorem packed_append (first second : List Entry) :
    packed (first ++ second) = packed first ++ packed second := flatMap_append

/-- The free area. -/
def free (room : Nat) : List UInt8 := List.replicate room invalidDataByte

@[simp]
theorem free_length (room : Nat) : (free room).length = room := length_replicate

/-! ### Reading headers -/

theorem halfWord_append (front rest : List UInt8) (word : UInt16) :
    halfWord (front ++ (leBytes 2 word.toNat ++ rest)) front.length = word := by
  rw [halfWord, drop_left, take_left' (leBytes_length 2 word.toNat), leValue_leBytes,
    mod_eq_of_lt (show word.toNat < 256 ^ 2 from word.toNat_lt)]
  exact UInt16.ofNat_toNat

theorem halfWord_id (front rest : List UInt8) (id capacity : UInt16) :
    halfWord (front ++ (headerBytes id capacity ++ rest)) front.length = id := by
  exact halfWord_append front _ id

theorem halfWord_capacity (front rest : List UInt8) (id capacity : UInt16) :
    halfWord (front ++ (headerBytes id capacity ++ rest)) (front.length + 2) = capacity := by
  have hlength : (front ++ leBytes 2 id.toNat).length = front.length + 2 := by
    rw [length_append, leBytes_length]
  rw [headerBytes, append_assoc, ← append_assoc front, ← hlength]
  exact halfWord_append _ rest capacity

variable {room : Nat}

theorem halfWord_free (front : List UInt8) (hroom : 2 ≤ room) :
    halfWord (front ++ free room) front.length = invalidData := by
  have hfree : free room = leBytes 2 invalidData.toNat ++ free (room - 2) := by
    have hbytes : leBytes 2 invalidData.toNat = free 2 := by decide
    rw [hbytes, free, free, free, replicate_append_replicate]
    congr 1
    omega
  rw [hfree]
  exact halfWord_append front _ invalidData

/-! ### Searching -/

section Searching

variable {front : List UInt8} {room : Nat}

/-- What the loops over the entries read from one of them, and where they go on. -/
structure Readable (mem : List UInt8) (data : Nat) (entry : Entry) : Prop where
  inside : data < nvramSize
  id : halfWord mem data = entry.id
  capacity : halfWord mem (data + 2) = UInt16.ofNat entry.data.length
  capacity_toNat : (UInt16.ofNat entry.data.length).toNat = entry.data.length
  next : (entryHeaderSize + entry.data.length) / 2 * 2 = entry.bytes.length

theorem entry_readable (hlength : (front ++ (entry.bytes ++ rest)).length = nvramSize) :
    Readable (front ++ (entry.bytes ++ rest)) front.length entry := by
  have haligned := entry.aligned
  rw [length_append, length_append, Entry.bytes_length, entryHeaderSize] at hlength
  refine ⟨by omega, halfWord_id front _ _ _, halfWord_capacity front _ _ _, ?_, ?_⟩
  · rw [UInt16.toNat_ofNat']
    rw [nvramSize] at hlength
    exact mod_eq_of_lt (by omega)
  · rw [Entry.bytes_length, entryHeaderSize]
    omega

theorem findFrom_entry (id : UInt16) (turns : Nat)
    (hlength : (front ++ (entry.bytes ++ rest)).length = nvramSize) :
    findFrom (front ++ (entry.bytes ++ rest)) id (turns + 1) front.length =
      if entry.id = id then some front.length
      else findFrom (front ++ (entry.bytes ++ rest)) id turns (front ++ entry.bytes).length := by
  have hread := entry_readable hlength
  simp [findFrom, if_pos hread.inside, hread.id, hread.capacity, hread.capacity_toNat, hread.next,
    if_neg entry.valid]

/-- The offset of the first entry with an id. -/
def position (id : UInt16) : List Entry → Option Nat
  | [] => none
  | entry :: entries =>
    if entry.id = id then some 0 else (position id entries).map (entry.bytes.length + ·)

/-- The search finds the first entry with the id, or the free area for
`invalidData`. -/
theorem findFrom_packed :
    (front ++ (packed entries ++ free room)).length = nvramSize → 4 ∣ front.length →
      entries.length < turns →
      findFrom (front ++ (packed entries ++ free room)) id turns front.length =
        ((position id entries).map (front.length + ·)).or
          (if id = invalidData ∧ room ≠ 0 then some (front ++ packed entries).length else none) := by
  induction entries generalizing front turns with
  | nil =>
    intro hlength hfront hturns
    obtain ⟨turns, rfl⟩ := exists_eq_succ_of_ne_zero (Nat.ne_zero_of_lt hturns)
    rw [packed_nil, nil_append] at hlength ⊢
    rw [length_append, free_length, nvramSize] at hlength
    rw [findFrom, position, Option.map_none, Option.none_or]
    by_cases hroom : room = 0
    · rw [if_neg (by rw [nvramSize]; omega), if_neg fun h => h.2 hroom]
    · rw [if_pos (by rw [nvramSize]; omega), halfWord_free front (by omega)]
      by_cases hid : id = invalidData <;> simp [hroom, eq_comm]
  | cons entry entries ih =>
    intro hlength hfront hturns
    obtain ⟨turns, rfl⟩ := exists_eq_succ_of_ne_zero (Nat.ne_zero_of_lt hturns)
    rw [packed_cons, append_assoc] at hlength ⊢
    rw [findFrom_entry id turns hlength, position]
    split
    · rfl
    · rw [← append_assoc] at hlength ⊢
      rw [ih hlength, Option.map_map, append_assoc]
      · congr 2
        funext offset
        simp only [Function.comp, length_append]
        omega
      · rw [length_append, Entry.bytes_length]
        exact Nat.dvd_add hfront (Nat.dvd_add (Nat.dvd_refl 4) entry.aligned)
      · exact lt_of_succ_lt_succ hturns

end Searching

theorem position_first {before : List Entry} (after : List Entry)
    (hbefore : ∀ other ∈ before, other.id ≠ entry.id) :
    position entry.id (before ++ entry :: after) = some (packed before).length := by
  induction before with
  | nil =>
    rw [nil_append, position, if_pos rfl]
    rfl
  | cons first before ih =>
    rw [cons_append, position, if_neg (hbefore first mem_cons_self),
      ih fun other hother => hbefore other (mem_cons_of_mem _ hother), packed_cons,
      length_append]
    rfl

theorem position_none (hother : ∀ entry ∈ entries, entry.id ≠ id) : position id entries = none := by
  induction entries with
  | nil => rfl
  | cons first entries ih =>
    rw [position, if_neg (hother first mem_cons_self),
      ih fun entry hentry => hother entry (mem_cons_of_mem _ hentry)]
    rfl

theorem first_cases (id : UInt16) (entries : List Entry) :
    (∀ entry ∈ entries, entry.id ≠ id) ∨
      ∃ before entry after, entries = before ++ entry :: after ∧ entry.id = id ∧
        ∀ other ∈ before, other.id ≠ entry.id := by
  by_cases hany : ∃ entry ∈ entries, entry.id = id
  · obtain ⟨found, hfound, hid⟩ := hany
    obtain ⟨entry, before, after, hbefore, hentry, hsplit, -⟩ :=
      exists_of_eraseP (p := fun entry => entry.id = id) hfound (decide_eq_true hid)
    rw [decide_eq_true_eq] at hentry
    refine .inr ⟨before, entry, after, hsplit, hentry, fun other hother => ?_⟩
    rw [hentry]
    simpa using hbefore other hother
  · exact .inl fun entry hentry hid => hany ⟨entry, hentry, hid⟩

/-! ### The layout -/

/-- The entries that were not deleted. -/
def live (entries : List Entry) : List Entry := entries.filter Entry.isLive

@[simp]
theorem live_append (first second : List Entry) :
    live (first ++ second) = live first ++ live second := filter_append ..

/-- The memory holds the entries; compact storage has no deleted ones. -/
structure Layout (nv : Storage) (entries : List Entry) (room : Nat) : Prop where
  mem_eq : nv.mem = nvSentinel ++ (packed entries ++ free room)
  length : nv.mem.length = nvramSize
  compact : nv.isCompact = true → live entries = entries
  distinct : ((live entries).map Entry.id).Nodup

namespace Layout

variable {nv : Storage} {entries : List Entry} {room : Nat}

theorem room_eq (hlayout : Layout nv entries room) :
    sentinelOffset + (packed entries).length + room = nvramSize := by
  have hlength := hlayout.length
  rw [hlayout.mem_eq, length_append, length_append, free_length] at hlength
  rw [← hlength, Nat.add_assoc]
  rfl

theorem turns_lt (hlayout : Layout nv entries room) : entries.length < nvramSize := by
  have hroom := hlayout.room_eq
  have hle : entries.length ≤ (packed entries).length := by
    clear hlayout hroom
    induction entries with
    | nil => exact Nat.le_refl 0
    | cons entry entries ih =>
      rw [packed_cons, length_append, Entry.bytes_length, length_cons, entryHeaderSize]
      omega
  rw [sentinelOffset] at hroom
  omega

theorem findNVEntry_eq (hlayout : Layout nv entries room) (id : UInt16) :
    findNVEntry nv.mem id = ((position id entries).map (sentinelOffset + ·)).or
      (if id = invalidData ∧ room ≠ 0 then some (sentinelOffset + (packed entries).length)
        else none) := by
  have hlength := hlayout.length
  rw [hlayout.mem_eq] at hlength ⊢
  refine (findFrom_packed hlength (Nat.dvd_refl 4) hlayout.turns_lt).trans ?_
  rw [length_append]
  rfl

end Layout

/-! ### Compacting -/

theorem live_cons (entry : Entry) (entries : List Entry) :
    live (entry :: entries) = if entry.isLive then entry :: live entries else live entries := by
  rw [live, filter_cons]
  rfl

theorem live_live (entries : List Entry) : live (live entries) = live entries := by
  simp [live]

theorem compactLoop_entry {front : List UInt8} (turns writePtr : Nat) (garbage : UInt16)
    (hlength : (front ++ (entry.bytes ++ rest)).length = nvramSize) :
    compactLoop (turns + 1) (front ++ (entry.bytes ++ rest)) front.length writePtr garbage =
      if entry.isLive then
        compactLoop turns (overwrite (front ++ (entry.bytes ++ rest)) writePtr entry.bytes)
          (front ++ entry.bytes).length (writePtr + entry.bytes.length) garbage
      else
        compactLoop turns (front ++ (entry.bytes ++ rest)) (front ++ entry.bytes).length writePtr
          (garbage + UInt16.ofNat entry.bytes.length) := by
  have hread := entry_readable hlength
  have hsize : UInt16.ofNat entryHeaderSize + UInt16.ofNat entry.data.length =
      UInt16.ofNat entry.bytes.length := by
    rw [← UInt16.ofNat_add, Entry.bytes_length]
  have htoNat : (UInt16.ofNat entry.bytes.length).toNat = entry.bytes.length := by
    rw [length_append, length_append, nvramSize] at hlength
    exact mod_eq_of_lt (by omega)
  have hnext : entry.bytes.length / 2 * 2 = entry.bytes.length := by
    rw [← hread.next, Nat.mul_div_cancel _ (succ_pos 1)]
  have hentry : ((front ++ (entry.bytes ++ rest)).drop front.length).take entry.bytes.length =
      entry.bytes := by
    rw [drop_left, take_left]
  have hvalid := entry.valid
  simp only [compactLoop, hread.id, hread.capacity, hsize, htoNat, hnext, hentry,
    if_pos (And.intro hread.inside hvalid), Entry.isLive, decide_eq_true_eq, length_append]

theorem overwrite_gap (front gap bytes rest : List UInt8) :
    overwrite (front ++ (gap ++ (bytes ++ rest))) front.length bytes =
      front ++ (bytes ++ ((gap ++ bytes).drop bytes.length ++ rest)) := by
  rw [overwrite, take_left, drop_length_add_append, ← append_assoc gap,
    drop_append_of_le_length (by simp), append_assoc]

/-- The compacting loop keeps the live entries; a gap of the size of the others
is left behind them. -/
theorem compactLoop_packed (front gap : List UInt8) :
    (front ++ (gap ++ (packed entries ++ free room))).length = nvramSize →
      4 ∣ front.length + gap.length → entries.length < turns →
      ∃ left, (left ++ packed (live entries)).length = (gap ++ packed entries).length ∧
        compactLoop turns (front ++ (gap ++ (packed entries ++ free room)))
            (front.length + gap.length) front.length (UInt16.ofNat gap.length) =
          (front ++ (packed (live entries) ++ (left ++ free room)),
            (front ++ packed (live entries)).length, UInt16.ofNat left.length) := by
  induction entries generalizing front gap turns with
  | nil =>
    intro hlength hdata hturns
    obtain ⟨turns, rfl⟩ := exists_eq_succ_of_ne_zero (Nat.ne_zero_of_lt hturns)
    refine ⟨gap, rfl, ?_⟩
    rw [packed_nil, nil_append, ← append_assoc, ← length_append] at *
    have hend : ¬((front ++ gap).length < nvramSize ∧
        halfWord (front ++ gap ++ free room) (front ++ gap).length ≠ invalidData) := by
      rintro ⟨hinside, hdata⟩
      rw [length_append, free_length] at hlength
      rw [nvramSize] at hlength hinside
      exact hdata (halfWord_free _ (by omega))
    rw [compactLoop, if_neg hend]
    simp [live]
  | cons entry entries ih =>
    intro hlength hdata hturns
    obtain ⟨turns, rfl⟩ := exists_eq_succ_of_ne_zero (Nat.ne_zero_of_lt hturns)
    have hturn := lt_of_succ_lt_succ hturns
    have hnext : 4 ∣ front.length + gap.length + entry.bytes.length := by
      rw [Entry.bytes_length]
      exact Nat.dvd_add hdata (Nat.dvd_add (Nat.dvd_refl 4) entry.aligned)
    rw [packed_cons, append_assoc, ← append_assoc front] at hlength ⊢
    rw [← length_append, compactLoop_entry turns _ _ hlength, live_cons]
    split
    · -- the entry is moved down over the gap, which comes to lie behind it
      set moved := (gap ++ entry.bytes).drop entry.bytes.length with hmoved
      have hgap : moved.length = gap.length := by simp [hmoved]
      have hstep : overwrite (front ++ gap ++ (entry.bytes ++ (packed entries ++ free room)))
          front.length entry.bytes =
          front ++ entry.bytes ++ (moved ++ (packed entries ++ free room)) := by
        rw [append_assoc, overwrite_gap, append_assoc]
      have hplace : (front ++ gap ++ entry.bytes).length =
          (front ++ entry.bytes).length + moved.length := by
        simp only [length_append]
        omega
      obtain ⟨left, hleft, hrun⟩ := ih (front ++ entry.bytes) moved
        (by simp only [length_append] at hlength ⊢; omega)
        (by simp only [length_append]; convert hnext using 1; omega) hturn
      refine ⟨left, ?_, ?_⟩
      · simp only [length_append, packed_cons] at hleft ⊢
        omega
      · have hwrite : front.length + entry.bytes.length = (front ++ entry.bytes).length :=
          length_append.symm
        rw [hstep, hplace, hwrite, ← hgap, hrun]
        simp
    · obtain ⟨left, hleft, hrun⟩ := ih front (gap ++ entry.bytes)
        (by simpa only [append_assoc] using hlength)
        (by rwa [length_append, ← Nat.add_assoc]) hturn
      refine ⟨left, by rw [hleft, append_assoc], ?_⟩
      rw [← hrun]
      simp

/-- The storage after compacting: the live entries and the room of the others. -/
theorem Layout.compactNVStorage {nv : Storage} (hlayout : Layout nv entries room) :
    Layout ⟨compactNVStorage nv.mem, true⟩ (live entries)
      (nvramSize - (sentinelOffset + (packed (live entries)).length)) := by
  have hroom := hlayout.room_eq
  have hlength := hlayout.length
  rw [hlayout.mem_eq] at hlength
  obtain ⟨left, hleft, hrun⟩ :=
    compactLoop_packed nvSentinel [] hlength (Nat.dvd_refl 4) hlayout.turns_lt
  rw [nil_append, length_append] at hleft
  have htoNat : (UInt16.ofNat left.length).toNat = left.length := by
    rw [nvramSize] at hroom
    exact mod_eq_of_lt (by omega)
  have hmem : AllJoyn.Nvram.compactNVStorage nv.mem =
      nvSentinel ++ (packed (live entries) ++ free (left.length + room)) := by
    have hloop := (congrArg (compactLoop nvramSize · sentinelOffset sentinelOffset 0)
      hlayout.mem_eq).trans hrun
    rw [AllJoyn.Nvram.compactNVStorage, hloop]
    dsimp only
    rw [htoNat, ← append_assoc nvSentinel, overwrite_middle _ _ _ _ (by simp), free, free,
      replicate_append_replicate, append_assoc]
  have hend : nvramSize - (sentinelOffset + (packed (live entries)).length) =
      left.length + room := by
    omega
  rw [hend]
  refine ⟨hmem, ?_, fun _ => live_live entries, ?_⟩
  · rw [hmem, length_append, length_append, free_length]
    change sentinelOffset + _ = _
    omega
  · rw [live_live]
    exact hlayout.distinct

end AllJoyn.Nvram
