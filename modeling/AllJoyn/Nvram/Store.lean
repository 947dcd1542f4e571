import AllJoyn.ThinClient.Types

/-!
The NVRAM of the thin client (`aj_nvram.c`), on the emulated memory of the Linux
target (`aj_target_nvram.c`). Entries of a header and the data stand one behind
the other after a sentinel; a deleted entry keeps its place with the id 0, and
the storage is compacted when there is no room for a new entry. Pointers are
offsets from the base address. The copy of the memory in a file is left out.
-/

namespace AllJoyn.Nvram

open Lib.Bytes ThinClient

def nvramSize : Nat := 4096

def sentinelOffset : Nat := 4

/-- `sizeof(NV_EntryHeader)`: the id and the capacity. -/
def entryHeaderSize : Nat := 4

def invalidId : UInt16 := 0

def invalidData : UInt16 := 0xFFFF

def invalidDataByte : UInt8 := 0xFF

/-- `AJ_NV_SENTINEL`: the letters AJNV. -/
def nvSentinel : List UInt8 := [65, 74, 78, 86]

/-- The `uint16_t` at an address. -/
def halfWord (mem : List UInt8) (data : Nat) : UInt16 :=
  UInt16.ofNat (leValue ((mem.drop data).take 2))

/-- `NV_EntryHeader` in memory. -/
def headerBytes (id capacity : UInt16) : List UInt8 :=
  leBytes 2 id.toNat ++ leBytes 2 capacity.toNat

/-- The memory and the flag `isCompact`. -/
structure Storage where
  mem : List UInt8
  isCompact : Bool

/-- `_AJ_NVRAM_Clear`, in a process that just started. -/
def nvramClear : Storage :=
  ⟨overwrite (List.replicate nvramSize invalidDataByte) 0 nvSentinel, false⟩

/-- The loop of `AJ_FindNVEntry`; every turn takes it forward. -/
def findFrom (mem : List UInt8) (id : UInt16) : Nat → Nat → Option Nat
  | 0, _ => none
  | turns + 1, data =>
    if data < nvramSize then
      if halfWord mem data ≠ id then
        let capacity := halfWord mem (data + 2)
        if halfWord mem data = invalidData then none
        else findFrom mem id turns (data + (entryHeaderSize + capacity.toNat) / 2 * 2)
      else some data
    else none

def findNVEntry (mem : List UInt8) (id : UInt16) : Option Nat :=
  findFrom mem id nvramSize sentinelOffset

def nvramExist (mem : List UInt8) (id : UInt16) : Bool :=
  if id = 0 ∨ id = invalidData then false else (findNVEntry mem id).isSome

/-- The loop of `_AJ_CompactNVStorage`: the memory, the place behind the entries
that were kept, and the size of those that were dropped. -/
def compactLoop : Nat → List UInt8 → Nat → Nat → UInt16 → List UInt8 × Nat × UInt16
  | 0, mem, _, writePtr, garbage => (mem, writePtr, garbage)
  | turns + 1, mem, data, writePtr, garbage =>
    if data < nvramSize ∧ halfWord mem data ≠ invalidData then
      let id := halfWord mem data
      let capacity := halfWord mem (data + 2)
      let entrySize := UInt16.ofNat entryHeaderSize + capacity
      let next := data + entrySize.toNat / 2 * 2
      if id ≠ invalidId then
        let moved := overwrite mem writePtr ((mem.drop data).take entrySize.toNat)
        compactLoop turns moved next (writePtr + entrySize.toNat) garbage
      else compactLoop turns mem next writePtr (garbage + entrySize)
    else (mem, writePtr, garbage)

def compactNVStorage (mem : List UInt8) : List UInt8 :=
  let (mem, writePtr, garbage) := compactLoop nvramSize mem sentinelOffset sentinelOffset 0
  overwrite mem writePtr (List.replicate garbage.toNat invalidDataByte)

/-- `WORD_ALIGN`, assigned to a `uint16_t`. -/
def wordAlign (x : UInt16) : UInt16 :=
  if x.toNat % 4 ≠ 0 then UInt16.ofNat ((x.toNat / 4 + 1) * 4) else x

/-- The free place behind the entries, if the new entry fits there. -/
def findRoom (mem : List UInt8) (capacity : UInt16) : Option Nat :=
  match findNVEntry mem invalidData with
  | none => none
  | some ptr =>
    if ptr + entryHeaderSize + capacity.toNat > nvramSize then none else some ptr

def nvramCreate (nv : Storage) (id capacity : UInt16) : Storage × AjStatus :=
  if id = invalidData ∨ capacity = 0 ∨ nvramExist nv.mem id = true then (nv, .errFailure)
  else
    let capacity := wordAlign capacity
    match findRoom nv.mem capacity with
    | some ptr => ({ nv with mem := overwrite nv.mem ptr (headerBytes id capacity) }, .ok)
    | none =>
      let nv := if nv.isCompact then nv else ⟨compactNVStorage nv.mem, true⟩
      match findRoom nv.mem capacity with
      | some ptr => ({ nv with mem := overwrite nv.mem ptr (headerBytes id capacity) }, .ok)
      | none => (nv, .errFailure)

def nvramDelete (nv : Storage) (id : UInt16) : Storage × AjStatus :=
  match if id ≠ invalidData then findNVEntry nv.mem id else none with
  | none => (nv, .errFailure)
  | some ptr =>
    let capacity := halfWord nv.mem (ptr + 2)
    (⟨overwrite nv.mem ptr (headerBytes 0 capacity), false⟩, .ok)

/-- `AJ_NV_DATASET_MODE_READ` and `AJ_NV_DATASET_MODE_WRITE`. -/
inductive Mode where
  | read
  | write
  deriving DecidableEq, Repr

/-- `AJ_NV_DATASET`. -/
structure Dataset where
  mode : Mode
  curPos : Nat
  capacity : UInt16
  id : UInt16
  inode : Nat
  deriving DecidableEq, Repr

/-- The end of `AJ_NVRAM_Open`, if there is memory for the handle. -/
def openEntry (nv : Storage) (id : UInt16) (mode : Mode) (allocated : Bool) : Option Dataset :=
  match findNVEntry nv.mem id with
  | none => none
  | some entry =>
    if allocated then some ⟨mode, 0, halfWord nv.mem (entry + 2), id, entry⟩ else none

/-- `AJ_NVRAM_Open`; `allocated` says whether `AJ_Malloc` returns memory. -/
def nvramOpen (nv : Storage) (id : UInt16) (mode : Mode) (capacity : UInt16) (allocated : Bool) :
    Storage × Option Dataset :=
  if id = 0 ∨ id = invalidData then (nv, none)
  else
    match mode with
    | .write =>
      if capacity = 0 then (nv, none)
      else
        let (nv, status) := if nvramExist nv.mem id then nvramDelete nv id else (nv, .ok)
        if status ≠ .ok then (nv, none)
        else
          let (nv, status) := nvramCreate nv id capacity
          if status ≠ .ok then (nv, none) else (nv, openEntry nv id mode allocated)
    | .read => (nv, openEntry nv id mode allocated)

/-- The word that `AJ_NVRAM_Write` patches: the data in front of the position,
the first bytes of the buffer, and bytes that mean no data. -/
def patchWord (mem : List UInt8) (handle : Dataset) (patch : List UInt8) : List UInt8 :=
  let alignedPos := handle.curPos / 4 * 4
  let before := (mem.drop (handle.inode + entryHeaderSize + alignedPos)).take (handle.curPos % 4)
  overwrite (overwrite (List.replicate 4 invalidDataByte) 0 before) (handle.curPos % 4) patch

/-- `AJ_NVRAM_Write` to an open dataset: the number of bytes written, or none
for -1. -/
def nvramWrite (mem : List UInt8) (handle : Dataset) (buf : List UInt8) :
    List UInt8 × Dataset × Option Nat :=
  if handle.mode = .read then (mem, handle, none)
  else
    let capacity := (halfWord mem (handle.inode + 2)).toNat
    if capacity ≤ handle.curPos then (mem, handle, none)
    else
      let bytesWrite := min (capacity - handle.curPos) buf.length
      let patchBytes :=
        if bytesWrite > 0 ∧ handle.curPos % 4 ≠ 0 then min (4 - handle.curPos % 4) bytesWrite else 0
      let mem :=
        if bytesWrite > 0 ∧ handle.curPos % 4 ≠ 0 then
          overwrite mem (handle.inode + entryHeaderSize + handle.curPos / 4 * 4)
            (patchWord mem handle (buf.take patchBytes))
        else mem
      let curPos := handle.curPos + patchBytes
      let rest := (buf.drop patchBytes).take (bytesWrite - patchBytes)
      let mem :=
        if bytesWrite - patchBytes > 0 then
          overwrite mem (handle.inode + entryHeaderSize + curPos) rest
        else mem
      (mem, { handle with curPos := curPos + (bytesWrite - patchBytes) },
        some (bytesWrite - patchBytes + patchBytes))

/-- `AJ_NVRAM_Read` from an open dataset: the bytes read, or none for -1. -/
def nvramRead (mem : List UInt8) (handle : Dataset) (size : UInt16) :
    Dataset × Option (List UInt8) :=
  if handle.mode = .write then (handle, none)
  else
    let capacity := (halfWord mem (handle.inode + 2)).toNat
    if capacity ≤ handle.curPos then (handle, none)
    else
      let bytesRead := min (capacity - handle.curPos) size.toNat
      let bytes := (mem.drop (handle.inode + entryHeaderSize + handle.curPos)).take bytesRead
      ({ handle with curPos := handle.curPos + bytesRead }, some bytes)

/-! ### Operations -/

/-- A buffer whose size is a `uint16_t`. -/
structure Block where
  bytes : List UInt8
  size_lt : bytes.length < 2 ^ 16

def writePieces (mem : List UInt8) (handle : Dataset) :
    List Block → List UInt8 × List (Option Nat)
  | [] => (mem, [])
  | piece :: pieces =>
    let (mem, handle, count) := nvramWrite mem handle piece.bytes
    let (mem, counts) := writePieces mem handle pieces
    (mem, count :: counts)

def readPieces (mem : List UInt8) (handle : Dataset) : List UInt16 → List (Option (List UInt8))
  | [] => []
  | size :: sizes =>
    let (handle, bytes) := nvramRead mem handle size
    bytes :: readPieces mem handle sizes

/-- An operation from the opening of a dataset to its closing. -/
inductive Operation where
  | write (id capacity : UInt16) (pieces : List Block) (allocated : Bool)
  | read (id : UInt16) (sizes : List UInt16) (allocated : Bool)
  | delete (id : UInt16)

/-- What the caller sees: that there is no dataset to use, what the calls with
the dataset returned, or the status. -/
inductive Outcome where
  | notOpened
  | written (counts : List (Option Nat))
  | read (pieces : List (Option (List UInt8)))
  | status (status : AjStatus)
  deriving DecidableEq

def step (nv : Storage) : Operation → Storage × Outcome
  | .write id capacity pieces allocated =>
    match nvramOpen nv id .write capacity allocated with
    | (nv, none) => (nv, .notOpened)
    | (nv, some handle) =>
      let (mem, counts) := writePieces nv.mem handle pieces
      ({ nv with mem := mem }, .written counts)
  | .read id sizes allocated =>
    match nvramOpen nv id .read 0 allocated with
    | (nv, none) => (nv, .notOpened)
    | (nv, some handle) => (nv, .read (readPieces nv.mem handle sizes))
  | .delete id =>
    let (nv, status) := nvramDelete nv id
    (nv, .status status)

def run (nv : Storage) : List Operation → Storage × List Outcome
  | [] => (nv, [])
  | op :: ops =>
    let (nv, outcome) := step nv op
    let (nv, outcomes) := run nv ops
    (nv, outcome :: outcomes)

end AllJoyn.Nvram
