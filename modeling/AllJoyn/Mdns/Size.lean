import Mathlib.Data.List.TakeWhile
import Mathlib.Tactic
import AllJoyn.Mdns.Packet

/-!
The expected size of a packet against the bytes that are written. The two
traversals find the same rests of names, so they differ only where the data of
a record is counted otherwise than written: a text field without a value is
written with its equals sign and counted without it, and an IPv4 address that
does not parse is counted and not written.
-/

namespace AllJoyn.Mdns

open List Option

/-- A name that is empty or ends in a dot. -/
def DotEnded (name : Str) : Prop := name.getLast?.getD dot = dot

instance (name : Str) : Decidable (DotEnded name) :=
  inferInstanceAs (Decidable (name.getLast?.getD dot = dot))

def SameKeys (offsets offsets' : Offsets) : Prop := offsets.map (·.1) = offsets'.map (·.1)

theorem SameKeys.lookup {offsets offsets' : Offsets} (h : SameKeys offsets offsets') (name : Str) :
    (offsets.lookup name).isSome = (offsets'.lookup name).isSome := by
  induction offsets generalizing offsets' with
  | nil =>
    cases offsets' with
    | nil => rfl
    | cons => cases h
  | cons first rest ih =>
    cases offsets' with
    | nil => cases h
    | cons first' rest' =>
      obtain ⟨hfirst, hrest⟩ := List.cons.inj h
      have hkey : first.1 = first'.1 := hfirst
      rw [lookup_cons, lookup_cons, ← hkey]
      split
      · rfl
      · exact ih hrest

/-- Every name that was written completely ends in a dot. -/
def AllDotEnded (offsets : Offsets) : Prop := ∀ entry ∈ offsets, DotEnded entry.1

theorem dotEnded_cons (c : UInt8) (name : Str) (hsome : name ≠ []) :
    DotEnded (c :: name) ↔ DotEnded name := by
  obtain ⟨d, rest, rfl⟩ := exists_cons_of_ne_nil hsome
  simp [DotEnded]

/-- A name ends in a dot when it has one and the rest behind the first one does. -/
theorem dotEnded_iff (name : Str) (hsome : name ≠ []) :
    DotEnded name ↔ ∃ c rest, name.dropWhile (· ≠ dot) = c :: rest ∧ DotEnded rest := by
  induction name with
  | nil => exact absurd rfl hsome
  | cons c name ih =>
    by_cases hdot : c = dot
    · subst hdot
      constructor
      · intro hended
        refine ⟨dot, name, rfl, ?_⟩
        cases name with
        | nil => rfl
        | cons d rest => exact (dotEnded_cons dot _ (by simp)).1 hended
      · rintro ⟨d, rest, heq, hended⟩
        obtain ⟨rfl, rfl⟩ := List.cons.inj heq
        cases name with
        | nil => rfl
        | cons d rest => exact (dotEnded_cons _ _ (by simp)).2 hended
    · have hdrop : (c :: name).dropWhile (· ≠ dot) = name.dropWhile (· ≠ dot) := by
        simp [hdot]
      rw [hdrop]
      cases name with
      | nil => simp [DotEnded, hdot]
      | cons d rest => rw [dotEnded_cons c _ (by simp), ih (by simp)]

theorem length_dropWhile_rest {name rest : Str} {c : UInt8}
    (hdrop : name.dropWhile (· ≠ dot) = c :: rest) : rest.length < name.length := by
  have hle : (name.dropWhile (· ≠ dot)).length ≤ name.length :=
    (dropWhile_suffix _).length_le
  rw [hdrop] at hle
  exact hle

section Agreement

/-- A writer and a sizer that start from the same rests of names find the same
ones: the bytes written and those that are `missing` add up to the size and
the `excess`. When the part is not `valid` nothing is written. -/
def Agrees (valid : Prop) (missing excess : Nat) (writer : Writer) (sizer : Sizer) : Prop :=
  ∀ offsets offsets' headerOffset, SameKeys offsets offsets' → AllDotEnded offsets →
    (valid → ∃ bytes after size after', writer offsets headerOffset = some (bytes, after) ∧
      sizer offsets' = some (size, after') ∧ SameKeys after after' ∧ AllDotEnded after ∧
      bytes.length + missing = size + excess) ∧
    (¬ valid → writer offsets headerOffset = none)

variable {valid valid' : Prop} {missing missing' excess excess' : Nat}
  {writer writer' : Writer} {sizer sizer' : Sizer}

theorem Agrees.seq (h : Agrees valid missing excess writer sizer)
    (h' : Agrees valid' missing' excess' writer' sizer') :
    Agrees (valid ∧ valid') (missing + missing') (excess + excess') (writer.seq writer')
      (sizer.seq sizer') := by
  intro offsets offsets' headerOffset hkeys hdots
  obtain ⟨hvalid, hinvalid⟩ := h offsets offsets' headerOffset hkeys hdots
  by_cases hfirst : valid
  · obtain ⟨bytes, after, size, after', hwrite, hsize, hkeys, hdots, hlength⟩ := hvalid hfirst
    obtain ⟨hvalid', hinvalid'⟩ :=
      h' after after' (headerOffset + bytes.length) hkeys hdots
    constructor
    · rintro ⟨-, hsecond⟩
      obtain ⟨bytes', last, size', last', hwrite', hsize', hkeys', hdots', hlength'⟩ :=
        hvalid' hsecond
      refine ⟨bytes ++ bytes', last, size + size', last', ?_, ?_, hkeys', hdots', ?_⟩
      · simp [Writer.seq, hwrite, hwrite']
      · simp [Sizer.seq, hsize, hsize']
      · rw [length_append]
        omega
    · intro hnot
      have hsecond : ¬ valid' := fun hsecond => hnot ⟨hfirst, hsecond⟩
      simp [Writer.seq, hwrite, hinvalid' hsecond]
  · constructor
    · rintro ⟨hfirst', -⟩
      exact absurd hfirst' hfirst
    · intro _
      simp [Writer.seq, hinvalid hfirst]

theorem agrees_emit (bytes : List UInt8) (size missing excess : Nat)
    (hlength : bytes.length + missing = size + excess) :
    Agrees True missing excess (.emit bytes) (.const size) := by
  intro offsets offsets' headerOffset hkeys hdots
  exact ⟨fun _ => ⟨bytes, offsets, size, offsets', rfl, rfl, hkeys, hdots, hlength⟩,
    fun hnot => absurd trivial hnot⟩

theorem Agrees.withLength (h : Agrees valid missing excess writer sizer) :
    Agrees valid missing excess writer.withLength (.seq (.const 2) sizer) := by
  intro offsets offsets' headerOffset hkeys hdots
  obtain ⟨hvalid, hinvalid⟩ := h offsets offsets' (headerOffset + 2) hkeys hdots
  constructor
  · intro hpart
    obtain ⟨bytes, after, size, after', hwrite, hsize, hkeys, hdots, hlength⟩ := hvalid hpart
    refine ⟨u16Bytes (UInt16.ofNat bytes.length) ++ bytes, after, 2 + size, after', ?_, ?_, hkeys,
      hdots, ?_⟩
    · simp [Writer.withLength, hwrite]
    · simp [Sizer.seq, Sizer.const, hsize]
    · simp only [length_append, u16Bytes, length_cons, length_nil]
      omega
  · intro hnot
    simp [Writer.withLength, hinvalid hnot]

theorem agrees_all {α : Type} {valid : α → Prop} {missing excess : α → Nat}
    {writer : α → Writer} {sizer : α → Sizer}
    (h : ∀ part, Agrees (valid part) (missing part) (excess part) (writer part) (sizer part))
    (parts : List α) :
    Agrees (∀ part ∈ parts, valid part) (parts.map missing).sum (parts.map excess).sum
      (.all (parts.map writer)) (.all (parts.map sizer)) := by
  induction parts with
  | nil =>
    simpa [Writer.all, Sizer.all] using agrees_emit [] 0 0 0 rfl
  | cons part parts ih =>
    have hseq := (h part).seq ih
    simpa only [map_cons, sum_cons, forall_mem_cons, Writer.all, Sizer.all] using hseq

end Agreement

/-! ### Names -/

/-- While a name that does not end in a dot is written, the names known end in
one or are longer. -/
theorem serializeNameLoop_of_not_dotEnded (fuel : Nat) (name : Str) (offsets : Offsets)
    (headerOffset : Nat) (hname : ¬ DotEnded name)
    (hknown : ∀ entry ∈ offsets, DotEnded entry.1 ∨ name.length < entry.1.length) :
    serializeNameLoop fuel name offsets headerOffset = none := by
  induction fuel generalizing name offsets headerOffset with
  | zero => rfl
  | succ fuel ih =>
    have hsome : name ≠ [] := by
      rintro rfl
      exact hname rfl
    have hlookup : offsets.lookup name = none := by
      rw [lookup_eq_none_iff]
      intro entry hentry
      rw [bne_iff_ne]
      rintro rfl
      obtain hended | hlonger := hknown entry hentry
      · exact hname hended
      · exact lt_irrefl _ hlonger
    rw [serializeNameLoop, if_neg hsome, hlookup]
    simp only
    split
    · rfl
    · rename_i c rest hdrop
      have hrest : ¬ DotEnded rest := fun hended =>
        hname ((dotEnded_iff name hsome).2 ⟨c, rest, hdrop, hended⟩)
      have hshorter := length_dropWhile_rest hdrop
      rw [ih rest _ _ hrest]
      · rfl
      · intro entry hentry
        obtain rfl | hold := mem_cons.1 hentry
        · exact .inr hshorter
        · obtain hended | hlonger := hknown entry hold
          · exact .inl hended
          · exact .inr (hshorter.trans hlonger)

theorem nameLoop_agrees (fuel : Nat) (name : Str) (hname : DotEnded name)
    (hfuel : name.length < fuel) (offsets offsets' : Offsets) (headerOffset : Nat)
    (hkeys : SameKeys offsets offsets') (hdots : AllDotEnded offsets) :
    ∃ bytes after size after', serializeNameLoop fuel name offsets headerOffset = some (bytes, after) ∧
      nameSizeLoop fuel name offsets' = some (size, after') ∧ SameKeys after after' ∧
      AllDotEnded after ∧ bytes.length = size := by
  induction fuel generalizing name offsets offsets' headerOffset with
  | zero => omega
  | succ fuel ih =>
    by_cases hsome : name = []
    · refine ⟨[0], offsets, 1, offsets', ?_, ?_, hkeys, hdots, rfl⟩
      · rw [serializeNameLoop, if_pos hsome]
      · rw [nameSizeLoop, if_pos hsome]
    · have hsame := hkeys.lookup name
      cases hlookup : offsets.lookup name with
      | some offset =>
        obtain ⟨offset', hlookup'⟩ : ∃ offset', offsets'.lookup name = some offset' := by
          rw [hlookup] at hsame
          exact isSome_iff_exists.1 hsame.symm
        refine ⟨[0xC0 ||| UInt8.ofNat (offset / 256), UInt8.ofNat offset], offsets, 2, offsets', ?_,
          ?_, hkeys, hdots, rfl⟩
        · rw [serializeNameLoop, if_neg hsome, hlookup]
        · rw [nameSizeLoop, if_neg hsome, hlookup']
      | none =>
        have hlookup' : offsets'.lookup name = none := by
          rw [hlookup] at hsame
          exact not_isSome_iff_eq_none.1 (by simp [← hsame])
        obtain ⟨c, rest, hdrop, hrest⟩ := (dotEnded_iff name hsome).1 hname
        have hshorter := length_dropWhile_rest hdrop
        have hdots' : AllDotEnded ((name, headerOffset) :: offsets) :=
          forall_mem_cons.2 ⟨hname, hdots⟩
        have hkeys' : SameKeys ((name, headerOffset) :: offsets) ((name, 0) :: offsets') :=
          congrArg (name :: ·) hkeys
        obtain ⟨bytes, after, size, after', hwrite, hsize, hafter, hended, hlength⟩ :=
          ih rest hrest (by omega) _ _ (headerOffset + 1 + (name.takeWhile (· ≠ dot)).length)
            hkeys' hdots'
        refine ⟨UInt8.ofNat (name.takeWhile (· ≠ dot)).length :: (name.takeWhile (· ≠ dot) ++ bytes),
          after, 1 + (name.takeWhile (· ≠ dot)).length + size, after', ?_, ?_, hafter, hended, ?_⟩
        · rw [serializeNameLoop, if_neg hsome, hlookup]
          simp only [hdrop, hwrite]
          rfl
        · rw [nameSizeLoop, if_neg hsome, hlookup']
          simp only [hdrop, hsize]
          rfl
        · simp only [length_cons, length_append]
          omega

theorem agrees_name (name : Str) :
    Agrees (DotEnded name) 0 0 (serializeName name) (nameSize name) := by
  intro offsets offsets' headerOffset hkeys hdots
  constructor
  · intro hname
    exact nameLoop_agrees (name.length + 1) name hname (Nat.lt_succ_self _) offsets offsets'
      headerOffset hkeys hdots
  · intro hname
    exact serializeNameLoop_of_not_dotEnded _ name offsets headerOffset hname
      fun entry hentry => .inl (hdots entry hentry)

/-! ### Records -/

variable (text : AddressText)

/-- Names end in dots, and a text record has its version. -/
def RData.Writable : RData → Prop
  | .text fields => txtvers ∈ fields.map (·.1)
  | .ptr name => DotEnded name
  | .srv _ _ _ target => DotEnded target
  | _ => True

/-- The IPv4 addresses that do not parse. -/
def RData.badAddress : RData → Bool
  | .a addr => (text.stringToIPv4 addr).isNone
  | _ => false

/-- The bytes counted for an address that is not written. -/
def RData.missing (rdata : RData) : Nat := if rdata.badAddress text then 6 else 0

/-- The equals signs that are written and not counted. -/
def RData.excess : RData → Nat
  | .text fields => fields.countP (·.2 = [])
  | _ => 0

theorem length_entries (fields : Fields) :
    (fields.flatMap entryBytes).length = (fields.map entrySize).sum + fields.countP (·.2 = []) := by
  induction fields with
  | nil => rfl
  | cons entry fields ih =>
    rw [flatMap_cons, length_append, map_cons, sum_cons, countP_cons]
    by_cases hempty : entry.2 = []
    · simp only [entryBytes, entrySize, hempty, if_true, decide_true, length_cons,
        length_append, length_nil]
      omega
    · simp only [entryBytes, entrySize, hempty, if_false, decide_false, Bool.false_eq_true,
        length_cons]
      omega

theorem rotatedFields_eq_none {fields : Fields} (hversion : txtvers ∉ fields.map (·.1)) :
    rotatedFields fields = none := by
  have hdrop : fields.dropWhile (·.1 ≠ txtvers) = [] := by
    rw [dropWhile_eq_nil_iff]
    intro entry hentry
    rw [decide_eq_true_eq]
    intro hkey
    exact hversion (mem_map.2 ⟨entry, hentry, hkey⟩)
  rw [rotatedFields, hdrop]

/-- Going round from `txtvers` on takes every field once. -/
theorem rotatedFields_eq_some {fields : Fields} (hversion : txtvers ∈ fields.map (·.1)) :
    ∃ rotated, rotatedFields fields = some rotated ∧ rotated.Perm fields := by
  obtain ⟨entry, hentry, hkey⟩ := mem_map.1 hversion
  have hdrop : fields.dropWhile (·.1 ≠ txtvers) ≠ [] := by
    rw [ne_eq, dropWhile_eq_nil_iff]
    intro hall
    have hnot := hall entry hentry
    rw [decide_eq_true_eq] at hnot
    exact hnot hkey
  refine ⟨fields.dropWhile (·.1 ≠ txtvers) ++ fields.takeWhile (·.1 ≠ txtvers), ?_, ?_⟩
  · rw [rotatedFields]
    split
    · contradiction
    · rfl
  · have hperm : (fields.dropWhile (·.1 ≠ txtvers) ++ fields.takeWhile (·.1 ≠ txtvers)).Perm
        (fields.takeWhile (·.1 ≠ txtvers) ++ fields.dropWhile (·.1 ≠ txtvers)) :=
      perm_append_comm
    rwa [takeWhile_append_dropWhile] at hperm

theorem agrees_text (fields : Fields) :
    Agrees (txtvers ∈ fields.map (·.1)) 0 (fields.countP (·.2 = []))
      ((RData.text fields).serialize text) (RData.text fields).size := by
  intro offsets offsets' headerOffset hkeys hdots
  constructor
  · intro hversion
    obtain ⟨rotated, hrotated, hperm⟩ := rotatedFields_eq_some hversion
    let entries := rotated.flatMap entryBytes
    refine ⟨u16Bytes (UInt16.ofNat entries.length) ++ entries, offsets,
      (fields.map entrySize).sum + 2, offsets', ?_, rfl, hkeys, hdots, ?_⟩
    · simp only [RData.serialize, hrotated]
      rfl
    · simp only [entries, length_append, u16Bytes, length_cons, length_nil, length_entries,
        (hperm.map entrySize).sum_eq, hperm.countP_eq]
      omega
  · intro hversion
    simp [RData.serialize, rotatedFields_eq_none hversion]

theorem const_seq_const (size size' : Nat) (rest : Sizer) :
    Sizer.seq (.const (size + size')) rest = .seq (.const size) (.seq (.const size') rest) := by
  funext offsets
  simp only [Sizer.seq, Sizer.const, bind_eq_bind, bind_some]
  cases rest offsets with
  | none => rfl
  | some result => simp [Nat.add_assoc]

theorem agrees_rdata (rdata : RData) :
    Agrees rdata.Writable (rdata.missing text) rdata.excess (rdata.serialize text) rdata.size := by
  cases rdata with
  | default => exact agrees_emit [] 0 0 0 rfl
  | text fields => exact agrees_text text fields
  | a addr =>
    cases haddr : text.stringToIPv4 addr with
    | some bytes =>
      simp only [RData.missing, RData.badAddress, RData.serialize, haddr]
      exact agrees_emit _ _ 0 0 (by simp)
    | none =>
      simp only [RData.missing, RData.badAddress, RData.serialize, haddr]
      exact agrees_emit _ _ 6 0 (by simp)
  | aaaa addr =>
    exact agrees_emit _ _ 0 0 (by simp)
  | ptr name => exact (agrees_name name).withLength
  | srv priority weight port target =>
    have hfixed := agrees_emit (u16Bytes priority ++ u16Bytes weight ++ u16Bytes port) 6 0 0 rfl
    have hboth := (hfixed.seq (agrees_name target)).withLength
    rw [true_and, ← const_seq_const] at hboth
    exact hboth

def Record.Writable (record : Record) : Prop := DotEnded record.domainName ∧ record.rdata.Writable

theorem agrees_record (record : Record) :
    Agrees record.Writable (record.rdata.missing text) record.rdata.excess (record.serialize text)
      record.size := by
  have hfixed := agrees_emit
    (u16Bytes record.rrType ++ u16Bytes record.rrClass ++ u32Bytes record.rrTTL) 8 0 0 rfl
  have hall := (agrees_name record.domainName).seq (hfixed.seq (agrees_rdata text record.rdata))
  simp only [true_and, Nat.zero_add] at hall
  exact hall

def Question.Writable (question : Question) : Prop := DotEnded question.qName

theorem agrees_question (question : Question) :
    Agrees question.Writable 0 0 question.serialize question.size := by
  have hfixed := agrees_emit (u16Bytes question.qType ++ u16Bytes question.qClass) 4 0 0 rfl
  have hall := (agrees_name question.qName).seq hfixed
  rw [and_true] at hall
  exact hall

/-! ### Packets -/

/-- All the records of a packet. -/
def Packet.records (packet : Packet) : List Record :=
  packet.answers ++ packet.authority ++ packet.additional

/-- Every name ends in a dot, and every text record has its version. -/
def Packet.Writable (packet : Packet) : Prop :=
  (∀ question ∈ packet.questions, question.Writable) ∧
    ∀ record ∈ packet.records, record.Writable

/-- The number of text fields that have no value. -/
def Packet.emptyFields (packet : Packet) : Nat :=
  (packet.records.map (·.rdata.excess)).sum

/-- The number of records with an IPv4 address that does not parse. -/
def Packet.badAddresses (packet : Packet) : Nat :=
  packet.records.countP (·.rdata.badAddress text)

theorem sum_missing (records : List Record) :
    (records.map (·.rdata.missing text)).sum = 6 * records.countP (·.rdata.badAddress text) := by
  induction records with
  | nil => rfl
  | cons record records ih =>
    rw [map_cons, sum_cons, countP_cons, RData.missing]
    split <;> omega

theorem agrees_body (packet : Packet) :
    Agrees packet.Writable (6 * packet.badAddresses text) packet.emptyFields (packet.body text)
      packet.bodySize := by
  have hrecords := agrees_all (agrees_record text)
  have hall := (agrees_all agrees_question packet.questions).seq
    ((hrecords packet.answers).seq
      ((hrecords packet.authority).seq (hrecords packet.additional)))
  have hvalid : packet.Writable ↔ (∀ question ∈ packet.questions, question.Writable) ∧
      (∀ record ∈ packet.answers, record.Writable) ∧
      (∀ record ∈ packet.authority, record.Writable) ∧
      ∀ record ∈ packet.additional, record.Writable := by
    simp only [Packet.Writable, Packet.records, forall_mem_append, and_assoc]
  have hmissing : 6 * packet.badAddresses text =
      (packet.questions.map fun _ => 0).sum + ((packet.answers.map (·.rdata.missing text)).sum +
        ((packet.authority.map (·.rdata.missing text)).sum +
          (packet.additional.map (·.rdata.missing text)).sum)) := by
    simp only [sum_missing, Packet.badAddresses, Packet.records, countP_append, map_const',
      sum_replicate, smul_zero]
    omega
  have hexcess : packet.emptyFields =
      (packet.questions.map fun _ => 0).sum + ((packet.answers.map (·.rdata.excess)).sum +
        ((packet.authority.map (·.rdata.excess)).sum +
          (packet.additional.map (·.rdata.excess)).sum)) := by
    simp only [Packet.emptyFields, Packet.records, map_append, sum_append,
      map_const', sum_replicate, smul_zero]
    omega
  rw [hvalid, hmissing, hexcess]
  exact hall

end AllJoyn.Mdns
