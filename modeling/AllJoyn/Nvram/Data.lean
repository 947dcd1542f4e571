import AllJoyn.Nvram.Operations

/-!
Writing and reading the data of one entry in pieces. A dataset that is written
holds what was written up to the position, and no data behind it; a write that
does not start at a word patches the word first.
-/

namespace AllJoyn.Nvram

open Lib.Bytes ThinClient List

variable {data bytes : List UInt8}

section Data

variable {front written tail : List UInt8} {id capacity : UInt16} {rest : Nat} {handle : Dataset}

/-- The memory around the data of an entry. -/
def around (front : List UInt8) (id capacity : UInt16) (data tail : List UInt8) : List UInt8 :=
  front ++ (headerBytes id capacity ++ (data ++ tail))

theorem around_eq :
    around front id capacity data tail = (front ++ headerBytes id capacity) ++ (data ++ tail) := by
  rw [around, append_assoc]

theorem base_length :
    (front ++ headerBytes id capacity).length = front.length + entryHeaderSize := by
  rw [length_append, headerBytes_length]

theorem around_capacity :
    halfWord (around front id capacity data tail) (front.length + 2) = capacity :=
  halfWord_capacity front _ id capacity

theorem around_drop (offset : Nat) :
    (around front id capacity data tail).drop (front.length + entryHeaderSize + offset) =
      (data ++ tail).drop offset := by
  rw [around_eq, ← @base_length front id capacity, drop_length_add_append]

theorem overwrite_around {offset : Nat} (hinside : offset + bytes.length ≤ data.length) :
    overwrite (around front id capacity data tail) (front.length + entryHeaderSize + offset) bytes =
      around front id capacity (overwrite data offset bytes) tail := by
  rw [around_eq, ← @base_length front id capacity, overwrite_append_right,
    overwrite_append_left tail hinside, ← around_eq]

theorem free_add (first second : Nat) : free (first + second) = free first ++ free second :=
  replicate_append_replicate.symm

theorem overwrite_free (front bytes : List UInt8) (room : Nat) :
    overwrite (front ++ free room) front.length bytes =
      front ++ (bytes ++ free (room - bytes.length)) :=
  overwrite_fill front bytes room invalidDataByte

section Write

variable (hinode : handle.inode = front.length)

include hinode

/-- The patched word is the last word of the data that was written, with as much
of the buffer behind it as there is room. -/
theorem patchWord_eq (hpos : handle.curPos = written.length) (patch : List UInt8) :
    patchWord (around front id capacity (written ++ free rest) tail) handle patch =
      written.drop (written.length / 4 * 4) ++
        (patch ++ free (4 - written.length % 4 - patch.length)) := by
  have hlast : (written.drop (written.length / 4 * 4)).length = written.length % 4 := by
    rw [length_drop]
    omega
  have hbefore : ((written ++ free rest ++ tail).drop (written.length / 4 * 4)).take
      (written.length % 4) = written.drop (written.length / 4 * 4) := by
    rw [append_assoc, drop_append_of_le_length (by omega), ← hlast, take_left]
  rw [patchWord, hinode, hpos, around_drop, hbefore]
  have hfirst := overwrite_free [] (written.drop (written.length / 4 * 4)) 4
  rw [nil_append, length_nil, nil_append, hlast] at hfirst
  change overwrite (overwrite (free 4) 0 _) _ _ = _
  have hsecond := overwrite_free (written.drop (written.length / 4 * 4)) patch
    (4 - written.length % 4)
  rw [hlast] at hsecond
  rw [hfirst, hsecond]

theorem overwrite_patchWord (id capacity : UInt16) (tail : List UInt8)
    (hpos : handle.curPos = written.length) {patch : List UInt8}
    (hpatch : patch.length ≤ 4 - written.length % 4) (hrest : 4 - written.length % 4 ≤ rest) :
    overwrite (around front id capacity (written ++ free rest) tail)
        (handle.inode + entryHeaderSize + handle.curPos / 4 * 4)
        (patchWord (around front id capacity (written ++ free rest) tail) handle patch) =
      around front id capacity (written ++ patch ++ free (rest - patch.length)) tail := by
  have hlast : (written.drop (written.length / 4 * 4)).length = written.length % 4 := by
    rw [length_drop]
    omega
  have hfirst : (written.take (written.length / 4 * 4)).length = written.length / 4 * 4 := by
    rw [length_take]
    omega
  rw [patchWord_eq hinode hpos, hinode, hpos, overwrite_around]
  · -- the word is split off, with the part of the free area that belongs to it
    have hsplit : written ++ free rest = written.take (written.length / 4 * 4) ++
        ((written.drop (written.length / 4 * 4) ++ free (4 - written.length % 4)) ++
          free (rest - (4 - written.length % 4))) := by
      rw [append_assoc, ← free_add, ← append_assoc, take_append_drop]
      congr 2
      omega
    have hjoin : free (rest - patch.length) = free (4 - written.length % 4 - patch.length) ++
        free (rest - (4 - written.length % 4)) := by
      rw [← free_add]
      congr 1
      omega
    have hword := overwrite_middle (written.take (written.length / 4 * 4))
      (written.drop (written.length / 4 * 4) ++ free (4 - written.length % 4))
      (free (rest - (4 - written.length % 4)))
      (written.drop (written.length / 4 * 4) ++
        (patch ++ free (4 - written.length % 4 - patch.length)))
      (by simp only [length_append, free_length]; omega)
    rw [hfirst, ← hsplit] at hword
    rw [hword, hjoin]
    congr 1
    simp only [← append_assoc, take_append_drop]
  · simp only [length_append, free_length]
    omega

theorem overwrite_next (hbytes : bytes.length ≤ rest) :
    overwrite (around front id capacity (written ++ free rest) tail)
        (handle.inode + entryHeaderSize + written.length) bytes =
      around front id capacity (written ++ bytes ++ free (rest - bytes.length)) tail := by
  rw [hinode, overwrite_around (by simpa using hbytes), overwrite_free, append_assoc]

/-- What is left of the buffer after the patched word is appended to the data. -/
theorem write_rest (buf : List UInt8) {patchBytes : Nat} (hpatch : patchBytes ≤ min rest buf.length)
    :
    (if min rest buf.length - patchBytes > 0 then
        overwrite
          (around front id capacity (written ++ buf.take patchBytes ++ free (rest - patchBytes))
            tail)
          (handle.inode + entryHeaderSize + (written.length + patchBytes))
          ((buf.drop patchBytes).take (min rest buf.length - patchBytes))
      else
        around front id capacity (written ++ buf.take patchBytes ++ free (rest - patchBytes)) tail) =
      around front id capacity (written ++ buf.take rest ++ free (rest - buf.length)) tail := by
  have htake : buf.take (min rest buf.length) = buf.take rest := by
    rw [← take_eq_take_min]
  have hlength : (written ++ buf.take patchBytes).length = written.length + patchBytes := by
    rw [length_append, length_take]
    omega
  split
  · have hmore : ((buf.drop patchBytes).take (min rest buf.length - patchBytes)).length =
        min rest buf.length - patchBytes := by
      rw [length_take, length_drop]
      omega
    have hbytes : patchBytes + (min rest buf.length - patchBytes) = min rest buf.length := by
      omega
    have hfree : rest - patchBytes - (min rest buf.length - patchBytes) = rest - buf.length := by
      omega
    rw [← hlength, overwrite_next hinode (by omega), hmore, append_assoc written,
      ← take_add, hbytes, htake, hfree]
  · have hbytes : patchBytes = min rest buf.length := by omega
    have hfree : rest - min rest buf.length = rest - buf.length := by omega
    rw [hbytes, htake, hfree]

theorem nvramWrite_eq (hmode : handle.mode = .write) (hpos : handle.curPos = written.length)
    (hcapacity : capacity.toNat = written.length + rest) (haligned : 4 ∣ written.length + rest)
    (hroom : rest ≠ 0) (buf : List UInt8) :
    nvramWrite (around front id capacity (written ++ free rest) tail) handle buf =
      (around front id capacity (written ++ buf.take rest ++ free (rest - buf.length)) tail,
        { handle with curPos := written.length + min rest buf.length },
        some (min rest buf.length)) := by
  have hleft : capacity.toNat - handle.curPos = rest := by
    omega
  rw [nvramWrite, if_neg (by rw [hmode]; decide), hinode, around_capacity, if_neg (by omega),
    ← hinode]
  dsimp only
  rw [hleft]
  by_cases hpatched : min rest buf.length > 0 ∧ handle.curPos % 4 ≠ 0
  · -- the word at the position is patched, and the rest of the buffer follows
    have hword : 4 - written.length % 4 ≤ rest := by omega
    set patchBytes := min (4 - handle.curPos % 4) (min rest buf.length)
    have hpatch : (buf.take patchBytes).length = patchBytes := by
      rw [length_take]
      omega
    have hfirst := overwrite_patchWord hinode id capacity tail hpos
      (show (buf.take patchBytes).length ≤ 4 - written.length % 4 by omega) hword
    rw [hpatch] at hfirst
    have htotal : min rest buf.length - patchBytes + patchBytes = min rest buf.length := by omega
    rw [if_pos hpatched, if_pos hpatched, hfirst, hpos, write_rest hinode buf (by omega),
      Nat.add_assoc, Nat.add_comm patchBytes, htotal]
  · have hrest := @write_rest front written tail id capacity rest handle hinode buf 0
      (Nat.zero_le _)
    rw [if_neg hpatched, if_neg hpatched, hpos]
    simp only [take_zero, List.append_nil, Nat.sub_zero, Nat.add_zero] at hrest ⊢
    rw [hrest]

end Write

/-- How much of each buffer a dataset takes, or -1 once it is full. -/
def accepted : Nat → List (List UInt8) → List (Option Nat)
  | _, [] => []
  | 0, _ :: bufs => none :: accepted 0 bufs
  | room + 1, buf :: bufs =>
    some (min (room + 1) buf.length) :: accepted (room + 1 - buf.length) bufs

/-- The bytes, cut off at the capacity, and no data up to there. -/
def stored (capacity : Nat) (bytes : List UInt8) : List UInt8 :=
  bytes.take capacity ++ free (capacity - bytes.length)

theorem stored_append (capacity : Nat) (first second : List UInt8) :
    stored capacity (first ++ second) =
      first.take capacity ++ stored (capacity - first.length) second := by
  rw [stored, stored, take_append, length_append, append_assoc, Nat.sub_sub]

@[simp]
theorem stored_length (capacity : Nat) (bytes : List UInt8) :
    (stored capacity bytes).length = capacity := by
  rw [stored, length_append, length_take, free_length]
  omega

theorem stored_nil (capacity : Nat) : stored capacity [] = free capacity := by
  rw [stored, take_nil, nil_append, length_nil, Nat.sub_zero]

theorem writePieces_eq (hcapacity : capacity.toNat = written.length + rest)
    (haligned : 4 ∣ written.length + rest) (hmode : handle.mode = .write)
    (hinode : handle.inode = front.length) (hpos : handle.curPos = written.length)
    (pieces : List Block) :
    writePieces (around front id capacity (written ++ free rest) tail) handle pieces =
      (around front id capacity (written ++ stored rest (pieces.flatMap Block.bytes)) tail,
        accepted rest (pieces.map Block.bytes)) := by
  induction pieces generalizing written rest handle with
  | nil => simp [writePieces, stored, accepted]
  | cons piece pieces ih =>
    rw [writePieces, flatMap_cons, map_cons]
    cases rest with
    | zero =>
      have hfull : nvramWrite (around front id capacity (written ++ free 0) tail) handle
          piece.bytes =
          (around front id capacity (written ++ free 0) tail, handle, none) := by
        rw [nvramWrite, if_neg (by rw [hmode]; decide), hinode, around_capacity,
          if_pos (by omega)]
      simp only [hfull, ih hcapacity haligned hmode hinode hpos, stored, take_zero,
        Nat.zero_sub, accepted]
    | succ room =>
      have hwrite := @nvramWrite_eq front written tail id capacity (room + 1) handle hinode
        hmode hpos hcapacity haligned (Nat.succ_ne_zero room) piece.bytes
      have hlength : (written ++ piece.bytes.take (room + 1)).length =
          written.length + min (room + 1) piece.bytes.length := by
        rw [length_append, length_take]
      have hleft : written.length + (room + 1) =
          (written ++ piece.bytes.take (room + 1)).length +
            (room + 1 - piece.bytes.length) := by
        omega
      rw [hleft] at hcapacity haligned
      rw [← hlength] at hwrite
      have hpieces := @ih _ _
        { handle with curPos := (written ++ piece.bytes.take (room + 1)).length }
        hcapacity haligned hmode hinode rfl
      rw [hwrite]
      dsimp only
      rw [hpieces, stored_append, accepted, append_assoc]

/-- The pieces of the bytes that are read, or -1 once there are no more. -/
def slices : List UInt8 → List UInt16 → List (Option (List UInt8))
  | _, [] => []
  | [], _ :: sizes => none :: slices [] sizes
  | byte :: bytes, size :: sizes =>
    some ((byte :: bytes).take size.toNat) :: slices ((byte :: bytes).drop size.toNat) sizes

theorem slices_cons (hbytes : bytes ≠ []) (size : UInt16) (sizes : List UInt16) :
    slices bytes (size :: sizes) =
      some (bytes.take size.toNat) :: slices (bytes.drop size.toNat) sizes := by
  cases bytes with
  | nil => exact absurd rfl hbytes
  | cons byte bytes => rfl

theorem readPieces_eq (hcapacity : capacity.toNat = data.length) (hmode : handle.mode = .read)
    (hinode : handle.inode = front.length) (sizes : List UInt16) :
    readPieces (around front id capacity data tail) handle sizes =
      slices (data.drop handle.curPos) sizes := by
  induction sizes generalizing handle with
  | nil => simp [readPieces, slices]
  | cons size sizes ih =>
    rw [readPieces, nvramRead, if_neg (by rw [hmode]; decide), hinode, around_capacity, hcapacity]
    by_cases hend : data.length ≤ handle.curPos
    · rw [if_pos hend]
      dsimp only
      rw [ih hmode hinode, drop_eq_nil_of_le hend, slices]
    · rw [if_neg hend]
      dsimp only
      set bytesRead := min (data.length - handle.curPos) size.toNat with hbytes
      have hdrop : (data.drop handle.curPos).length = data.length - handle.curPos :=
        length_drop
      have hread : ((data ++ tail).drop handle.curPos).take bytesRead =
          (data.drop handle.curPos).take size.toNat := by
        rw [drop_append_of_le_length (by omega), take_append_of_le_length (by omega),
          hbytes, ← hdrop, Nat.min_comm, ← take_eq_take_min]
      have hskip : data.drop (handle.curPos + bytesRead) =
          (data.drop handle.curPos).drop size.toNat := by
        rw [drop_drop]
        rcases Nat.le_total size.toNat (data.length - handle.curPos) with hsize | hsize
        · rw [hbytes, Nat.min_eq_right hsize]
        · rw [drop_eq_nil_of_le (by omega), drop_eq_nil_of_le (by omega)]
      have hpieces := @ih
        { handle with curPos := handle.curPos + bytesRead, inode := front.length } hmode rfl
      rw [hpieces, around_drop, hread, hskip, slices_cons]
      exact ne_nil_of_length_pos (by omega)

end Data

/-! ### The entry that is written and read -/

section Access

variable {nv : Storage} {before after : List Entry} {entry : Entry} {room : Nat}

def Entry.withData (entry : Entry) (data : List UInt8) (hlength : data.length = entry.data.length) :
    Entry :=
  { entry with data := data, aligned := hlength ▸ entry.aligned }

theorem Entry.withData_bytes (entry : Entry) (hlength : data.length = entry.data.length) :
    (entry.withData data hlength).bytes =
      headerBytes entry.id (UInt16.ofNat entry.data.length) ++ data := by
  rw [← hlength]
  rfl

variable (hlayout : Layout nv (before ++ entry :: after) room)

include hlayout

theorem Layout.mem_around :
    nv.mem = around (nvSentinel ++ packed before) entry.id (UInt16.ofNat entry.data.length)
      entry.data (packed after ++ free room) := by
  rw [hlayout.mem_split, around, Entry.bytes, Entry.header, append_assoc (headerBytes _ _)]

theorem Layout.withData (hlength : data.length = entry.data.length) :
    Layout { nv with
        mem := around (nvSentinel ++ packed before) entry.id (UInt16.ofNat entry.data.length) data
          (packed after ++ free room) }
      (before ++ entry.withData data hlength :: after) room := by
  refine ⟨?_, ?_, ?_, ?_⟩
  · rw [around, packed_append, packed_cons, Entry.withData_bytes]
    simp
  · have hsize := hlayout.length
    rw [hlayout.mem_around] at hsize
    simp only [around, length_append] at hsize ⊢
    omega
  · intro hcompact
    have hlive := hlayout.compact hcompact
    rw [live, filter_eq_self] at hlive ⊢
    intro other hother
    rcases mem_append.mp hother with hmem | hmem
    · exact hlive other (mem_append_left _ hmem)
    · rcases mem_cons.mp hmem with rfl | hmem
      · exact hlive entry (mem_append_right _ mem_cons_self)
      · exact hlive other (mem_append_right _ (mem_cons_of_mem _ hmem))
  · have hdistinct := hlayout.distinct
    rw [live_append, live_cons, map_append] at hdistinct ⊢
    have hsame : (entry.withData data hlength).isLive = entry.isLive := rfl
    rw [hsame]
    split at hdistinct
    · next hlive =>
        rw [if_pos hlive]
        exact hdistinct
    · next hlive =>
        rw [if_neg hlive]
        exact hdistinct

theorem Layout.writePieces_eq {rest : Nat} (hempty : entry.data = free rest) (pieces : List Block) :
    writePieces nv.mem (handleOf .write before entry) pieces =
      (around (nvSentinel ++ packed before) entry.id (UInt16.ofNat entry.data.length)
          (stored rest (pieces.flatMap Block.bytes)) (packed after ++ free room),
        accepted rest (pieces.map Block.bytes)) := by
  have hcapacity := hlayout.readable.capacity_toNat
  have haligned := entry.aligned
  have hlength : entry.data.length = rest := by rw [hempty, free_length]
  rw [hlayout.mem_around]
  nth_rewrite 2 [hempty]
  apply @AllJoyn.Nvram.writePieces_eq _ [] _ _ _ _ _ _ _ rfl rfl rfl
  · rw [hcapacity, hlength, length_nil, Nat.zero_add]
  · rwa [length_nil, Nat.zero_add, ← hlength]

theorem Layout.readPieces_eq (sizes : List UInt16) :
    readPieces nv.mem (handleOf .read before entry) sizes = slices entry.data sizes := by
  rw [hlayout.mem_around]
  exact AllJoyn.Nvram.readPieces_eq hlayout.readable.capacity_toNat rfl rfl sizes

end Access

end AllJoyn.Nvram
