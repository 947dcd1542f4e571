import AllJoyn.Nvram.Layout

/-!
What the functions of the NVRAM do to the list of entries: a deleted entry stays
in its place, and a new one is appended, with the deleted ones squeezed out
before if there is no room.
-/

namespace AllJoyn.Nvram

open Lib.Bytes ThinClient List

/-! ### Deleting -/

section Deleting

variable {nv : Storage} {before after entries : List Entry} {entry : Entry} {room : Nat}

theorem Layout.mem_split (hlayout : Layout nv (before ++ entry :: after) room) :
    nv.mem = (nvSentinel ++ packed before) ++ (entry.bytes ++ (packed after ++ free room)) := by
  rw [hlayout.mem_eq]
  simp

theorem Layout.found (hlayout : Layout nv (before ++ entry :: after) room)
    (hbefore : ∀ other ∈ before, other.id ≠ entry.id) :
    findNVEntry nv.mem entry.id = some (nvSentinel ++ packed before).length := by
  rw [hlayout.findNVEntry_eq, position_first after hbefore]
  rw [length_append]
  rfl

variable {id capacity : UInt16}

theorem Layout.missing (hlayout : Layout nv entries room) (hid : id ≠ invalidData)
    (hother : ∀ entry ∈ entries, entry.id ≠ id) : findNVEntry nv.mem id = none := by
  rw [hlayout.findNVEntry_eq, position_none hother, if_neg fun h => hid h.1]
  rfl

theorem Layout.readable (hlayout : Layout nv (before ++ entry :: after) room) :
    Readable nv.mem (nvSentinel ++ packed before).length entry := by
  have hlength := hlayout.length
  rw [hlayout.mem_split] at hlength ⊢
  exact entry_readable hlength

theorem Layout.nvramDelete_found (hlayout : Layout nv (before ++ entry :: after) room)
    (hbefore : ∀ other ∈ before, other.id ≠ entry.id) :
    ∃ nv', nvramDelete nv entry.id = (nv', .ok) ∧
      Layout nv' (before ++ entry.dead :: after) room := by
  have hread := hlayout.readable
  have hmem : overwrite nv.mem (nvSentinel ++ packed before).length
      (headerBytes 0 (UInt16.ofNat entry.data.length)) =
      nvSentinel ++ (packed (before ++ entry.dead :: after) ++ free room) := by
    rw [hlayout.mem_split, Entry.bytes, append_assoc entry.header,
      overwrite_middle _ _ _ _ (by simp [Entry.header]), packed_append, packed_cons]
    simp only [append_assoc]
    rfl
  rw [nvramDelete, if_pos entry.valid, hlayout.found hbefore]
  dsimp only
  rw [hread.capacity]
  refine ⟨_, rfl, ⟨hmem, ?_, fun hcompact => Bool.noConfusion hcompact, ?_⟩⟩
  · have hlength := hlayout.length
    rw [hlayout.mem_split] at hlength
    rw [hmem, packed_append, packed_cons]
    simpa only [length_append, Entry.bytes_length, Entry.dead, Nat.add_assoc] using hlength
  · have hdistinct := hlayout.distinct
    rw [live_append, map_append] at hdistinct ⊢
    refine hdistinct.sublist (List.Sublist.append (List.Sublist.refl _) ?_)
    have hdead : live (entry.dead :: after) = live after := by
      rfl
    rw [hdead, live_cons]
    split
    · exact (sublist_cons_self entry (live after)).map Entry.id
    · exact List.Sublist.refl _

theorem Layout.nvramDelete_missing (hlayout : Layout nv entries room)
    (hother : ∀ entry ∈ entries, entry.id ≠ id) : nvramDelete nv id = (nv, .errFailure) := by
  rw [nvramDelete]
  by_cases hid : id = invalidData
  · rw [if_neg (not_not.mpr hid)]
  · rw [if_pos hid, hlayout.missing hid hother]

end Deleting

/-! ### Creating -/

/-- A new entry holds no data. -/
def emptyEntry (id capacity : UInt16) (hid : id ≠ invalidData) (haligned : 4 ∣ capacity.toNat) :
    Entry :=
  ⟨id, free capacity.toNat, hid, by rwa [free_length]⟩

theorem wordAlign_toNat (hcapacity : capacity.toNat ≤ 65532) :
    (wordAlign capacity).toNat = (capacity.toNat + 3) / 4 * 4 := by
  rw [wordAlign]
  split
  · rw [UInt16.toNat_ofNat']
    omega
  · omega

theorem four_dvd_wordAlign (hcapacity : capacity.toNat ≤ 65532) :
    4 ∣ (wordAlign capacity).toNat := by
  rw [wordAlign_toNat hcapacity]
  exact Nat.dvd_mul_left 4 _

theorem packed_live_length_le (entries : List Entry) :
    (packed (live entries)).length ≤ (packed entries).length := by
  induction entries with
  | nil => exact Nat.le_refl _
  | cons entry entries ih =>
    rw [live_cons]
    split
    · rw [packed_cons, packed_cons, length_append, length_append]
      omega
    · rw [packed_cons, length_append]
      omega

section Creating

variable {nv : Storage} {entries : List Entry} {room : Nat} {id capacity : UInt16}

section Create

variable (hlayout : Layout nv entries room)

include hlayout

theorem Layout.findRoom_eq (capacity : UInt16) :
    findRoom nv.mem capacity =
      if entryHeaderSize + capacity.toNat ≤ room then
        some (sentinelOffset + (packed entries).length)
      else none := by
  have hroom := hlayout.room_eq
  rw [findRoom, hlayout.findNVEntry_eq, position_none fun entry _ => entry.valid]
  by_cases hfull : room = 0
  · rw [if_neg fun h => h.2 hfull, if_neg (by rw [entryHeaderSize]; omega)]
    rfl
  · rw [if_pos ⟨rfl, hfull⟩]
    dsimp only [Option.map_none, Option.none_or]
    by_cases hfits : entryHeaderSize + capacity.toNat ≤ room
    · rw [if_pos hfits, if_neg (by omega)]
    · rw [if_neg hfits, if_pos (by omega)]

variable (hid : id ≠ invalidData) (hother : ∀ entry ∈ entries, entry.id ≠ id)

include hid hother

theorem Layout.append (haligned : 4 ∣ capacity.toNat) (hzero : id ≠ invalidId)
    (hfits : entryHeaderSize + capacity.toNat ≤ room) :
    Layout { nv with
        mem := overwrite nv.mem (sentinelOffset + (packed entries).length)
          (headerBytes id capacity) }
      (entries ++ [emptyEntry id capacity hid haligned])
      (room - (entryHeaderSize + capacity.toNat)) := by
  have hroom := hlayout.room_eq
  have hplace : sentinelOffset + (packed entries).length =
      (nvSentinel ++ packed entries).length := by
    rw [length_append]
    rfl
  have hdata : free (room - entryHeaderSize) =
      free capacity.toNat ++ free (room - (entryHeaderSize + capacity.toNat)) := by
    rw [free, free, free, replicate_append_replicate]
    congr 1
    omega
  have hentry : (emptyEntry id capacity hid haligned).bytes =
      headerBytes id capacity ++ free capacity.toNat := by
    rw [Entry.bytes, Entry.header]
    simp [emptyEntry]
  have hmem : overwrite nv.mem (sentinelOffset + (packed entries).length)
      (headerBytes id capacity) =
      nvSentinel ++ (packed (entries ++ [emptyEntry id capacity hid haligned]) ++
        free (room - (entryHeaderSize + capacity.toNat))) := by
    rw [hlayout.mem_eq, hplace, ← append_assoc, free, overwrite_fill]
    change _ ++ (_ ++ free (room - entryHeaderSize)) = _
    rw [hdata, packed_append, packed_cons, hentry]
    simp
  have hlive : live [emptyEntry id capacity hid haligned] =
      [emptyEntry id capacity hid haligned] := by
    have hlive : (emptyEntry id capacity hid haligned).isLive = true := decide_eq_true hzero
    rw [live_cons, if_pos hlive]
    rfl
  refine ⟨hmem, ?_, ?_, ?_⟩
  · rw [hmem, packed_append, packed_cons, packed_nil, hentry]
    simp only [length_append, headerBytes_length, free_length, length_nil]
    change sentinelOffset + _ = _
    omega
  · intro hcompact
    rw [live_append, hlive, hlayout.compact hcompact]
  · rw [live_append, hlive, map_append]
    refine nodup_append.mpr ⟨hlayout.distinct, by simp, ?_⟩
    rintro _ hmem _ hnew rfl
    obtain ⟨entry, hentry, rfl⟩ := mem_map.mp hmem
    rw [map_singleton, mem_singleton] at hnew
    exact hother entry (mem_of_mem_filter hentry) hnew

/-- The new entry stands behind the entries that were kept, among them all live
ones. -/
theorem Layout.nvramCreate_fits (hzero : id ≠ invalidId) (hpositive : capacity ≠ 0)
    (hcapacity : capacity.toNat ≤ 65532)
    (hfits : sentinelOffset + (packed (live entries)).length + (entryHeaderSize + (wordAlign capacity).toNat) ≤ nvramSize)
    :
    ∃ nv' kept room', nvramCreate nv id capacity = (nv', .ok) ∧ live kept = live entries ∧
      (∀ entry ∈ kept, entry.id ≠ id) ∧
      Layout nv' (kept ++
        [emptyEntry id (wordAlign capacity) hid (four_dvd_wordAlign hcapacity)]) room' := by
  have haligned := four_dvd_wordAlign hcapacity
  have hexist : nvramExist nv.mem id = false := by
    rw [nvramExist, hlayout.missing hid hother]
    simp
  rw [nvramCreate, if_neg (by simp [hid, hpositive, hexist])]
  dsimp only
  rw [hlayout.findRoom_eq]
  by_cases hroom : entryHeaderSize + (wordAlign capacity).toNat ≤ room
  · rw [if_pos hroom]
    exact ⟨_, entries, _, rfl, rfl, hother, hlayout.append hid hother haligned hzero hroom⟩
  · rw [if_neg hroom]
    have hend := hlayout.room_eq
    by_cases hcompact : nv.isCompact = true
    · rw [hlayout.compact hcompact] at hfits
      omega
    · have hcompacted := hlayout.compactNVStorage
      have hkept : ∀ entry ∈ live entries, entry.id ≠ id := fun entry hentry =>
        hother entry (mem_of_mem_filter hentry)
      rw [if_neg hcompact, hcompacted.findRoom_eq, if_pos (by omega)]
      exact ⟨_, live entries, _, rfl, live_live entries, hkept,
        hcompacted.append hid hkept haligned hzero (by omega)⟩

/-- A new entry is refused only if it does not fit behind the live ones. -/
theorem Layout.nvramCreate_full (hpositive : capacity ≠ 0)
    (hfull : nvramSize < sentinelOffset + (packed (live entries)).length + (entryHeaderSize + (wordAlign capacity).toNat))
    :
    ∃ nv' kept room', nvramCreate nv id capacity = (nv', .errFailure) ∧
      live kept = live entries ∧ Layout nv' kept room' := by
  have hexist : nvramExist nv.mem id = false := by
    rw [nvramExist, hlayout.missing hid hother]
    simp
  have hend := hlayout.room_eq
  have hle := packed_live_length_le entries
  rw [nvramCreate, if_neg (by simp [hid, hpositive, hexist])]
  dsimp only
  rw [hlayout.findRoom_eq, if_neg (by omega)]
  by_cases hcompact : nv.isCompact = true
  · rw [if_pos hcompact, hlayout.findRoom_eq, if_neg (by omega)]
    exact ⟨nv, entries, room, rfl, rfl, hlayout⟩
  · have hcompacted := hlayout.compactNVStorage
    rw [if_neg hcompact, hcompacted.findRoom_eq, if_neg (by omega)]
    exact ⟨_, live entries, _, rfl, live_live entries, hcompacted⟩

end Create

end Creating

/-! ### Opening -/

section Opening

variable {nv : Storage} {before after entries : List Entry} {entry : Entry} {room : Nat}
  {id capacity : UInt16}

/-- The handle of an entry that was just opened. -/
def handleOf (mode : Mode) (before : List Entry) (entry : Entry) : Dataset :=
  ⟨mode, 0, UInt16.ofNat entry.data.length, entry.id, (nvSentinel ++ packed before).length⟩

theorem Layout.openEntry_found (hlayout : Layout nv (before ++ entry :: after) room)
    (hbefore : ∀ other ∈ before, other.id ≠ entry.id) (mode : Mode) (allocated : Bool) :
    openEntry nv entry.id mode allocated =
      if allocated then some (handleOf mode before entry) else none := by
  rw [openEntry, hlayout.found hbefore]
  dsimp only
  rw [hlayout.readable.capacity]
  rfl

/-- The live entries without the one that has an id. -/
def others (id : UInt16) (entries : List Entry) : List Entry :=
  (live entries).filter (fun entry => entry.id ≠ id)

theorem others_of_missing (hother : ∀ entry ∈ entries, entry.id ≠ id) :
    others id entries = live entries := by
  rw [others, filter_eq_self]
  exact fun entry hentry => decide_eq_true (hother entry (mem_of_mem_filter hentry))

theorem Layout.only (hlayout : Layout nv (before ++ entry :: after) room)
    (hzero : entry.id ≠ invalidId) : ∀ other ∈ after, other.id ≠ entry.id := by
  intro other hother hid
  have hdistinct := hlayout.distinct
  have hlive : ∀ e : Entry, e.id = entry.id → e.isLive = true := fun e he =>
    decide_eq_true (he ▸ hzero)
  rw [live_append, live_cons, if_pos (hlive entry rfl), map_append,
    nodup_append] at hdistinct
  apply (List.nodup_cons.mp hdistinct.2.1).1
  rw [← hid]
  exact mem_map_of_mem (mem_filter.mpr ⟨hother, hlive other hid⟩)

theorem others_split (hbefore : ∀ other ∈ before, other.id ≠ entry.id)
    (hafter : ∀ other ∈ after, other.id ≠ entry.id) (hzero : entry.id ≠ invalidId) :
    others entry.id (before ++ entry :: after) = live (before ++ entry.dead :: after) := by
  have hdead : live (entry.dead :: after) = live after := by
    rfl
  have hlive : entry.isLive = true := decide_eq_true hzero
  rw [live_append, hdead, ← others_of_missing hbefore, ← others_of_missing hafter, others,
    live_append, live_cons, if_pos hlive, filter_append, filter_cons_of_neg (by simp)]
  rfl

variable (hlayout : Layout nv entries room) (hid : id ≠ invalidData) (hzero : id ≠ invalidId)

include hlayout hid hzero

theorem Layout.drop_existing :
    ∃ nv' kept, (if nvramExist nv.mem id then nvramDelete nv id else (nv, .ok)) = (nv', .ok) ∧
      live kept = others id entries ∧ (∀ entry ∈ kept, entry.id ≠ id) ∧ Layout nv' kept room := by
  have hvalid : ¬(id = 0 ∨ id = invalidData) := not_or.mpr ⟨hzero, hid⟩
  rcases first_cases id entries with hother | ⟨before, entry, after, rfl, rfl, hbefore⟩
  · refine ⟨nv, entries, ?_, (others_of_missing hother).symm, hother, hlayout⟩
    rw [nvramExist, if_neg hvalid, hlayout.missing hid hother]
    rfl
  · obtain ⟨nv', hdelete, hlayout'⟩ := hlayout.nvramDelete_found hbefore
    have hafter := hlayout.only hzero
    refine ⟨nv', _, ?_, (others_split hbefore hafter hzero).symm, ?_, hlayout'⟩
    · rw [nvramExist, if_neg hvalid, hlayout.found hbefore, hdelete]
      rfl
    · intro other hother
      rcases mem_append.mp hother with hmem | hmem
      · exact hbefore other hmem
      · rcases mem_cons.mp hmem with rfl | hmem
        · exact hzero.symm
        · exact hafter other hmem

variable (hpositive : capacity ≠ 0) (allocated : Bool)

include hpositive

theorem Layout.nvramOpen_fits (hcapacity : capacity.toNat ≤ 65532)
    (hfits : sentinelOffset + (packed (others id entries)).length +
      (entryHeaderSize + (wordAlign capacity).toNat) ≤ nvramSize) :
    ∃ nv' kept room',
      let entry := emptyEntry id (wordAlign capacity) hid (four_dvd_wordAlign hcapacity)
      nvramOpen nv id .write capacity allocated =
          (nv', if allocated then some (handleOf .write kept entry) else none) ∧
        live kept = others id entries ∧ Layout nv' (kept ++ [entry]) room' := by
  obtain ⟨dropped, rest, hdrop, hlive, hother, hrest⟩ := hlayout.drop_existing hid hzero
  obtain ⟨nv', kept, room', hcreate, hkept, hbefore, hlayout'⟩ :=
    hrest.nvramCreate_fits hid hother hzero hpositive hcapacity (by rwa [hlive])
  refine ⟨nv', kept, room', ?_, hkept.trans hlive, hlayout'⟩
  have hvalid : ¬(id = 0 ∨ id = invalidData) := not_or.mpr ⟨hzero, hid⟩
  have hopen := hlayout'.openEntry_found hbefore .write allocated
  rw [nvramOpen, if_neg hvalid]
  simp only [if_neg hpositive, hdrop, hcreate, ne_eq, not_true_eq_false, if_false]
  exact congrArg _ hopen

theorem Layout.nvramOpen_full
    (hfull : nvramSize < sentinelOffset + (packed (others id entries)).length +
      (entryHeaderSize + (wordAlign capacity).toNat)) :
    ∃ nv' kept room', nvramOpen nv id .write capacity allocated = (nv', none) ∧
      live kept = others id entries ∧ Layout nv' kept room' := by
  obtain ⟨dropped, rest, hdrop, hlive, hother, hrest⟩ := hlayout.drop_existing hid hzero
  obtain ⟨nv', kept, room', hcreate, hkept, hlayout'⟩ :=
    hrest.nvramCreate_full hid hother hpositive (by rwa [hlive])
  refine ⟨nv', kept, room', ?_, hkept.trans hlive, hlayout'⟩
  have hvalid : ¬(id = 0 ∨ id = invalidData) := not_or.mpr ⟨hzero, hid⟩
  rw [nvramOpen, if_neg hvalid]
  simp only [if_neg hpositive, hdrop, hcreate]
  rfl

end Opening

end AllJoyn.Nvram
