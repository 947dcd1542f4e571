import AllJoyn.Lib.Assoc
import AllJoyn.Nvram.Data

/-!
The NVRAM is a map from ids to byte strings. Opening for writing drops what was
stored under the id, and then gives it a string of bytes that mean no data, as
long as the capacity rounded up to words, unless that does not fit.
-/

namespace AllJoyn.Nvram

open Lib Lib.Bytes ThinClient List Entry

/-- The byte strings stored under the ids. -/
abbrev Contents := Finmap (fun _ : UInt16 => List UInt8)

/-- The room that the strings take, each with a header. -/
def used (contents : Contents) : Nat :=
  (contents.entries.map fun entry => entryHeaderSize + entry.2.length).sum

/-- The capacity of a dataset: what was asked for, rounded up to words. -/
def roundUp (capacity : UInt16) : Nat := (capacity.toNat + 3) / 4 * 4

/-- A new string fits in the store. -/
def Fits (contents : Contents) (capacity : Nat) : Prop :=
  sentinelOffset + used contents + (entryHeaderSize + capacity) ≤ nvramSize

/-- What an operation does to the map, and what the caller sees. The id 0 marks
deleted entries, so that the status of its deletion says nothing. -/
inductive Behaves (contents : Contents) : Operation → Outcome → Contents → Prop
  | refused {id capacity pieces allocated} (hinvalid : id = 0 ∨ id = invalidData ∨ capacity = 0) :
      Behaves contents (.write id capacity pieces allocated) .notOpened contents
  | full {id capacity pieces allocated} (hvalid : ¬(id = 0 ∨ id = invalidData ∨ capacity = 0))
      (hfull : ¬Fits (contents.erase id) (roundUp capacity)) :
      Behaves contents (.write id capacity pieces allocated) .notOpened (contents.erase id)
  | unallocated {id capacity pieces} (hvalid : ¬(id = 0 ∨ id = invalidData ∨ capacity = 0))
      (hfits : Fits (contents.erase id) (roundUp capacity)) :
      Behaves contents (.write id capacity pieces false) .notOpened
        (contents.insert id (stored (roundUp capacity) []))
  | written {id capacity pieces} (hvalid : ¬(id = 0 ∨ id = invalidData ∨ capacity = 0))
      (hfits : Fits (contents.erase id) (roundUp capacity)) :
      Behaves contents (.write id capacity pieces true)
        (.written (accepted (roundUp capacity) (pieces.map Block.bytes)))
        (contents.insert id (stored (roundUp capacity) (pieces.flatMap Block.bytes)))
  | unreadable {id sizes allocated} (hnone : contents.lookup id = none ∨ allocated = false) :
      Behaves contents (.read id sizes allocated) .notOpened contents
  | read {id sizes bytes} (hsome : contents.lookup id = some bytes) :
      Behaves contents (.read id sizes true) (.read (slices bytes sizes)) contents
  | deleted {id} (hid : id ∈ contents) :
      Behaves contents (.delete id) (.status .ok) (contents.erase id)
  | undeleted {id} (hid : id ∉ contents) (hzero : id ≠ 0) :
      Behaves contents (.delete id) (.status .errFailure) contents
  | deletedZero {status} (hid : 0 ∉ contents) :
      Behaves contents (.delete 0) (.status status) contents

/-- What a sequence of operations does. -/
inductive BehavesAll : Contents → List Operation → List Outcome → Contents → Prop
  | nil {contents} : BehavesAll contents [] [] contents
  | cons {contents next last op ops outcome outcomes} (hfirst : Behaves contents op outcome next)
      (hrest : BehavesAll next ops outcomes last) :
      BehavesAll contents (op :: ops) (outcome :: outcomes) last

/-! ### What the memory represents -/

def Entry.binding (entry : Entry) : Sigma fun _ : UInt16 => List UInt8 := ⟨entry.id, entry.data⟩

/-- The live entries are the contents. -/
def Represents (nv : Storage) (contents : Contents) : Prop :=
  ∃ entries room, Layout nv entries room ∧ contents.entries = (live entries).map binding

section Bindings

variable {contents : Contents} {entries : List Entry}

theorem used_eq (hcontents : contents.entries = entries.map binding) :
    used contents = (packed entries).length := by
  rw [used, hcontents, Multiset.map_coe, Multiset.sum_coe, map_map, packed,
    length_flatMap]
  congr 2
  funext entry
  exact (bytes_length entry).symm

variable (hcontents : contents.entries = (live entries).map binding)

include hcontents

theorem erase_eq (id : UInt16) :
    (contents.erase id).entries = (others id entries).map binding := by
  rw [Assoc.erase_entries, hcontents, Multiset.filter_coe, filter_map]
  rfl

theorem insert_eq {kept : List Entry} (entry : Entry) (hkept : live kept = others entry.id entries)
    (hzero : entry.id ≠ invalidId) :
    (contents.insert entry.id entry.data).entries =
      (live (kept ++ [entry])).map binding := by
  have hlive : entry.isLive = true := decide_eq_true hzero
  rw [Assoc.insert_entries, erase_eq hcontents _, live_append, live_cons, if_pos hlive, hkept]
  rw [Multiset.cons_coe, Multiset.coe_eq_coe, map_append]
  exact (perm_append_singleton _ _).symm

theorem lookup_eq_none {id : UInt16} (hother : ∀ entry ∈ live entries, entry.id ≠ id) :
    contents.lookup id = none := by
  rw [Option.eq_none_iff_forall_not_mem]
  intro bytes hbytes
  rw [Finmap.mem_lookup_iff, hcontents] at hbytes
  obtain ⟨entry, hentry, hbinding⟩ := mem_map.mp hbytes
  exact hother entry hentry (congrArg Sigma.fst hbinding)

theorem lookup_eq_some {entry : Entry} (hentry : entry ∈ live entries) :
    contents.lookup entry.id = some entry.data := by
  apply Option.mem_def.mp
  rw [Finmap.mem_lookup_iff, hcontents, Multiset.mem_coe]
  exact mem_map_of_mem hentry

end Bindings

theorem lookup_zero {nv : Storage} {contents : Contents} (hrep : Represents nv contents) :
    contents.lookup 0 = none := by
  obtain ⟨entries, room, -, hcontents⟩ := hrep
  apply lookup_eq_none hcontents
  intro entry hentry
  exact of_decide_eq_true (mem_filter.mp hentry).2

theorem represents_clear : Represents nvramClear ∅ := by
  refine ⟨[], nvramSize - sentinelOffset, ⟨?_, ?_, fun hcompact => Bool.noConfusion hcompact, ?_⟩,
    rfl⟩
  · have hfill := overwrite_fill [] nvSentinel nvramSize invalidDataByte
    exact hfill
  · rw [nvramClear, overwrite]
    simp only [length_append, length_drop, length_replicate]
    rfl
  · exact List.Pairwise.nil

/-! ### Steps -/

section Steps

variable {nv : Storage} {contents : Contents}

/-- The capacity that an operation asks for. -/
def Operation.capacity : Operation → Nat
  | .write _ capacity _ _ => capacity.toNat
  | .read _ _ _ => 0
  | .delete _ => 0

section Representing

variable (hrep : Represents nv contents)

include hrep

theorem write_behaves (id : UInt16) {capacity : UInt16} (hcapacity : capacity.toNat ≤ 65532)
    (pieces : List Block) (allocated : Bool) :
    ∃ next, Behaves contents (.write id capacity pieces allocated)
        (step nv (.write id capacity pieces allocated)).2 next ∧
      Represents (step nv (.write id capacity pieces allocated)).1 next := by
  by_cases hinvalid : id = 0 ∨ id = invalidData ∨ capacity = 0
  · have hopen : nvramOpen nv id .write capacity allocated = (nv, none) := by
      rw [nvramOpen]
      by_cases hid : id = 0 ∨ id = invalidData
      · rw [if_pos hid]
      · rw [if_neg hid]
        exact if_pos (by tauto)
    have hstep : step nv (.write id capacity pieces allocated) = (nv, .notOpened) := by
      rw [step, hopen]
    rw [hstep]
    exact ⟨contents, .refused hinvalid, hrep⟩
  · obtain ⟨entries, room, hlayout, hcontents⟩ := hrep
    obtain ⟨hzero, hid, hpositive⟩ : id ≠ 0 ∧ id ≠ invalidData ∧ capacity ≠ 0 := by tauto
    have hround := wordAlign_toNat hcapacity
    have herase := used_eq (erase_eq hcontents id)
    by_cases hfits : Fits (contents.erase id) (roundUp capacity)
    · have hroom := hfits
      rw [Fits, herase, roundUp, ← hround] at hroom
      obtain ⟨nv', kept, room', hopen, hkept, hlayout'⟩ :=
        hlayout.nvramOpen_fits hid hzero hpositive allocated hcapacity hroom
      set entry := emptyEntry id (wordAlign capacity) hid (four_dvd_wordAlign hcapacity)
      have hdata : entry.data = free (roundUp capacity) := congrArg free hround
      cases allocated with
      | false =>
        have hstep : step nv (.write id capacity pieces false) = (nv', .notOpened) := by
          rw [step, hopen]
          rfl
        rw [hstep]
        refine ⟨_, .unallocated hinvalid hfits, _, _, hlayout', ?_⟩
        have hnew := insert_eq hcontents entry hkept hzero
        rw [hdata, ← stored_nil] at hnew
        exact hnew
      | true =>
        have hpieces := hlayout'.writePieces_eq hdata pieces
        have hstep : step nv (.write id capacity pieces true) =
            ({ nv' with mem := (writePieces nv'.mem (handleOf .write kept entry) pieces).1 },
              .written (writePieces nv'.mem (handleOf .write kept entry) pieces).2) := by
          rw [step, hopen, if_pos rfl]
        have hlength : (stored (roundUp capacity) (pieces.flatMap Block.bytes)).length =
            entry.data.length := by
          rw [stored_length, hdata, free_length]
        rw [hstep, hpieces]
        exact ⟨_, .written hinvalid hfits, _, _, hlayout'.withData hlength,
          insert_eq hcontents (entry.withData _ hlength) hkept hzero⟩
    · have hfull := hfits
      rw [Fits, herase, roundUp, ← hround, Nat.not_le] at hfull
      obtain ⟨nv', kept, room', hopen, hkept, hlayout'⟩ :=
        hlayout.nvramOpen_full hid hzero hpositive allocated hfull
      have hstep : step nv (.write id capacity pieces allocated) = (nv', .notOpened) := by
        rw [step, hopen]
      rw [hstep]
      refine ⟨_, .full hinvalid hfits, kept, room', hlayout', ?_⟩
      rw [erase_eq hcontents _, hkept]

theorem read_behaves (id : UInt16) (sizes : List UInt16) (allocated : Bool) :
    Behaves contents (.read id sizes allocated) (step nv (.read id sizes allocated)).2 contents ∧
      (step nv (.read id sizes allocated)).1 = nv := by
  have hzero := lookup_zero hrep
  obtain ⟨entries, room, hlayout, hcontents⟩ := hrep
  by_cases hinvalid : id = 0 ∨ id = invalidData
  · have hnone : contents.lookup id = none := by
      rcases hinvalid with rfl | rfl
      · exact hzero
      · exact lookup_eq_none hcontents fun entry _ => entry.valid
    have hstep : step nv (.read id sizes allocated) = (nv, .notOpened) := by
      rw [step, nvramOpen, if_pos hinvalid]
    rw [hstep]
    exact ⟨.unreadable (.inl hnone), rfl⟩
  · obtain ⟨hlive, hid⟩ := not_or.mp hinvalid
    have hopen : nvramOpen nv id .read 0 allocated = (nv, openEntry nv id .read allocated) := by
      rw [nvramOpen, if_neg hinvalid]
    rcases first_cases id entries with hother | ⟨before, entry, after, rfl, rfl, hbefore⟩
    · have hnone := lookup_eq_none hcontents fun entry hentry =>
        hother entry (mem_of_mem_filter hentry)
      have hstep : step nv (.read id sizes allocated) = (nv, .notOpened) := by
        rw [step, hopen, openEntry, hlayout.missing hid hother]
      rw [hstep]
      exact ⟨.unreadable (.inl hnone), rfl⟩
    · have hsome := lookup_eq_some hcontents (mem_filter.mpr
        ⟨mem_append_right before mem_cons_self, decide_eq_true hlive⟩)
      rw [hlayout.openEntry_found hbefore] at hopen
      cases allocated with
      | false =>
        have hstep : step nv (.read entry.id sizes false) = (nv, .notOpened) := by
          rw [step, hopen]
          rfl
        rw [hstep]
        exact ⟨.unreadable (.inr rfl), rfl⟩
      | true =>
        have hstep : step nv (.read entry.id sizes true) =
            (nv, .read (slices entry.data sizes)) := by
          rw [step, hopen, if_pos rfl]
          dsimp only
          rw [hlayout.readPieces_eq]
        rw [hstep]
        exact ⟨.read hsome, rfl⟩

theorem delete_behaves (id : UInt16) :
    ∃ next, Behaves contents (.delete id) (step nv (.delete id)).2 next ∧
      Represents (step nv (.delete id)).1 next := by
  obtain ⟨entries, room, hlayout, hcontents⟩ := hrep
  rcases first_cases id entries with hother | ⟨before, entry, after, rfl, rfl, hbefore⟩
  · -- nothing is found
    have hnone := lookup_eq_none hcontents fun entry hentry =>
      hother entry (mem_of_mem_filter hentry)
    have hdelete : step nv (.delete id) = (nv, .status .errFailure) := by
      rw [step, hlayout.nvramDelete_missing hother]
    rw [hdelete]
    refine ⟨contents, ?_, entries, room, hlayout, hcontents⟩
    by_cases hzero : id = 0
    · subst hzero
      exact .deletedZero (Finmap.lookup_eq_none.mp hnone)
    · exact .undeleted (Finmap.lookup_eq_none.mp hnone) hzero
  · obtain ⟨nv', hfound, hlayout'⟩ := hlayout.nvramDelete_found hbefore
    have hdelete : step nv (.delete entry.id) = (nv', .status .ok) := by
      rw [step, hfound]
    rw [hdelete]
    have hdead : live (before ++ entry.dead :: after) = live before ++ live after := by
      rw [live_append]
      rfl
    by_cases hzero : entry.id = 0
    · -- a deleted entry is found, and deleted again
      have hsame : live (before ++ entry :: after) = live (before ++ entry.dead :: after) := by
        have hnot : ¬entry.isLive = true := by simp [isLive, hzero, invalidId]
        rw [hdead, live_append, live_cons, if_neg hnot]
      refine ⟨contents, ?_, _, _, hlayout', by rw [← hsame, hcontents]⟩
      rw [hzero]
      apply Behaves.deletedZero
      rw [← Finmap.lookup_eq_none]
      exact lookup_zero ⟨_, _, hlayout, hcontents⟩
    · have hsome := lookup_eq_some hcontents (mem_filter.mpr
        ⟨mem_append_right before mem_cons_self, decide_eq_true hzero⟩)
      have hmem : entry.id ∈ contents := Finmap.lookup_isSome.mp (by rw [hsome]; rfl)
      refine ⟨_, .deleted hmem, _, _, hlayout', ?_⟩
      rw [erase_eq hcontents _, others_split hbefore (hlayout.only hzero) hzero]

theorem step_behaves {op : Operation} (hcapacity : op.capacity ≤ 65532) :
    ∃ next, Behaves contents op (step nv op).2 next ∧ Represents (step nv op).1 next := by
  cases op with
  | write id capacity pieces allocated => exact write_behaves hrep id hcapacity pieces allocated
  | read id sizes allocated =>
    obtain ⟨hread, hsame⟩ := read_behaves hrep id sizes allocated
    exact ⟨contents, hread, by rwa [hsame]⟩
  | delete id => exact delete_behaves hrep id

theorem run_behaves {ops : List Operation} (hcapacity : ∀ op ∈ ops, op.capacity ≤ 65532) :
    ∃ last, BehavesAll contents ops (run nv ops).2 last ∧ Represents (run nv ops).1 last := by
  induction ops generalizing nv contents with
  | nil => exact ⟨contents, .nil, hrep⟩
  | cons op ops ih =>
    obtain ⟨next, hstep, hnext⟩ := step_behaves hrep (hcapacity op mem_cons_self)
    obtain ⟨last, hrest, hlast⟩ := ih hnext fun other hother =>
      hcapacity other (mem_cons_of_mem op hother)
    exact ⟨last, .cons hstep hrest, hlast⟩

end Representing

end Steps

/-- From the cleared store on, every sequence of operations behaves as on a map
from ids to byte strings. -/
theorem nvram_behaves (ops : List Operation) (hcapacity : ∀ op ∈ ops, op.capacity ≤ 65532) :
    ∃ last, BehavesAll ∅ ops (run nvramClear ops).2 last :=
  let ⟨last, hbehaves, _⟩ := run_behaves represents_clear hcapacity
  ⟨last, hbehaves⟩

/-- Three bytes are written in two pieces, and read back with the rest of the
word. -/
def wordSession : List Operation :=
  [.write 1 3 [⟨[7], by decide⟩, ⟨[8, 9], by decide⟩] true, .read 1 [3, 2, 1] true]

theorem nvram_behaves_word :
    ∃ last, BehavesAll ∅ wordSession
      [.written [some 1, some 2], .read [some [7, 8, 9], some [0xFF], none]] last := by
  exact nvram_behaves wordSession (by decide)

/-! ### Datasets that stay -/

/-- The dataset that an operation can change. -/
def Operation.target : Operation → Option UInt16
  | .write target _ _ _ => some target
  | .read _ _ _ => none
  | .delete target => some target

section Kept

variable {contents last : Contents} {id : UInt16}

theorem Behaves.lookup_other {op : Operation} {outcome : Outcome} {next : Contents}
    (hbehaves : Behaves contents op outcome next) (hother : op.target ≠ some id) :
    next.lookup id = contents.lookup id := by
  have hne {other : UInt16} (htarget : some other ≠ some id) : id ≠ other :=
    fun hsame => htarget (congrArg some hsame.symm)
  cases hbehaves with
  | refused | unreadable | read | undeleted | deletedZero => rfl
  | full | deleted => exact Finmap.lookup_erase_ne (hne hother)
  | unallocated | written => exact Finmap.lookup_insert_of_ne _ (hne hother)

theorem BehavesAll.lookup_other {ops : List Operation} {outcomes : List Outcome}
    (hbehaves : BehavesAll contents ops outcomes last)
    (hother : ∀ op ∈ ops, op.target ≠ some id) : last.lookup id = contents.lookup id := by
  induction hbehaves with
  | nil => rfl
  | cons hfirst _ ih =>
    obtain ⟨hop, hops⟩ := forall_mem_cons.mp hother
    exact (ih hops).trans (hfirst.lookup_other hop)

end Kept

/-- What was written is read back in any pieces, after any operations that leave its dataset
alone, also if they compact the store. -/
theorem written_read_back (before after : List Operation) {id capacity : UInt16}
    (pieces : List Block) (sizes : List UInt16) (hbefore : ∀ op ∈ before, op.capacity ≤ 65532)
    (hcapacity : capacity.toNat ≤ 65532) {counts : List (Option Nat)}
    (hwritten : (step (run nvramClear before).1 (.write id capacity pieces true)).2 =
      .written counts)
    (hafter : ∀ op ∈ after, op.capacity ≤ 65532 ∧ op.target ≠ some id) :
    (step (run (step (run nvramClear before).1 (.write id capacity pieces true)).1 after).1
        (.read id sizes true)).2 =
      .read (slices (stored (roundUp capacity) (pieces.flatMap Block.bytes)) sizes) := by
  obtain ⟨contents, -, hrep⟩ := run_behaves represents_clear hbefore
  obtain ⟨next, hwrite, hnext⟩ := write_behaves hrep id hcapacity pieces true
  obtain ⟨last, hall, hlast⟩ := run_behaves hnext fun op hop => (hafter op hop).1
  have hkept := hall.lookup_other fun op hop => (hafter op hop).2
  have hread := (read_behaves hlast id sizes true).1
  rw [hwritten] at hwrite
  cases hwrite
  rw [Finmap.lookup_insert] at hkept
  generalize (step _ (.read id sizes true)).2 = outcome at hread ⊢
  cases hread with
  | unreadable hnone => simp [hkept] at hnone
  | read hsome => rw [Option.some.inj (hsome.symm.trans hkept)]

theorem written_read_back_word :
    (step (run (step (run nvramClear []).1 (.write 1 3 [⟨[7, 8, 9], by decide⟩] true)).1
        [.write 2 4 [] true, .delete 2]).1 (.read 1 [4] true)).2 =
      .read [some [7, 8, 9, 0xFF]] :=
  written_read_back [] _ _ [4] (by simp) (by decide)
    (show _ = Outcome.written [some 3] by decide +kernel) (by decide)

end AllJoyn.Nvram
