import Mathlib.Data.List.Basic
import Mathlib.Tactic.Ring

/-!
Words stored in a byte-addressed memory: the bytes of a fixed-width word in
either byte order, padding to an alignment, and memories that hold a given
block of bytes at an address.
-/

namespace AllJoyn.Lib.Bytes

open List

variable {pos alignment : Nat} {mem : Nat → UInt8}

/-- The text in front of the first mark, and the rest from there on. -/
theorem span_mark {mark : UInt8} {text : List UInt8} (rest : List UInt8) (hmark : mark ∉ text) :
    (text ++ mark :: rest).takeWhile (· ≠ mark) = text ∧
      (text ++ mark :: rest).dropWhile (· ≠ mark) = mark :: rest := by
  have hall : ∀ c ∈ text, decide (c ≠ mark) = true := by
    intro c hc
    rw [decide_eq_true_eq]
    rintro rfl
    exact hmark hc
  rw [takeWhile_append_of_pos hall, dropWhile_append_of_pos hall]
  simp

/-- The low `width` bytes of a number, least significant first. -/
def leBytes : Nat → Nat → List UInt8
  | 0, _ => []
  | width + 1, value => UInt8.ofNat (value % 256) :: leBytes width (value / 256)

/-- The number that bytes spell, least significant first. -/
def leValue : List UInt8 → Nat
  | [] => 0
  | byte :: rest => byte.toNat + 256 * leValue rest

@[simp]
theorem leBytes_length (width value : Nat) : (leBytes width value).length = width := by
  induction width generalizing value with
  | zero => rfl
  | succ width ih => simp [leBytes, ih]

theorem leValue_leBytes (width value : Nat) :
    leValue (leBytes width value) = value % 256 ^ width := by
  induction width generalizing value with
  | zero => simp [leBytes, leValue, Nat.mod_one]
  | succ width ih =>
    have hbyte : (UInt8.ofNat (value % 256)).toNat = value % 256 := by simp
    rw [leBytes, leValue, ih, hbyte, Nat.pow_succ, Nat.mul_comm (256 ^ width) 256, Nat.mod_mul]

theorem leValue_lt (bytes : List UInt8) : leValue bytes < 256 ^ bytes.length := by
  induction bytes with
  | nil => simp [leValue]
  | cons byte rest ih =>
    have hbyte : byte.toNat < 256 := byte.toNat_lt
    rw [leValue, length_cons]
    omega

theorem leBytes_leValue (bytes : List UInt8) : leBytes bytes.length (leValue bytes) = bytes := by
  induction bytes with
  | nil => rfl
  | cons byte rest ih =>
    have hbyte : byte.toNat < 256 := byte.toNat_lt
    have hlow : (byte.toNat + 256 * leValue rest) % 256 = byte.toNat := by omega
    have hhigh : (byte.toNat + 256 * leValue rest) / 256 = leValue rest := by omega
    rw [leValue, length_cons, leBytes, hlow, hhigh, ih, UInt8.ofNat_toNat]

/-- The bytes of a word as a little-endian host stores it, reversed when the
two byte orders differ. -/
def wordBytes (swap : Bool) (width value : Nat) : List UInt8 :=
  if swap then (leBytes width value).reverse else leBytes width value

def wordValue (swap : Bool) (bytes : List UInt8) : Nat :=
  leValue (if swap then bytes.reverse else bytes)

@[simp]
theorem wordBytes_length (swap : Bool) (width value : Nat) :
    (wordBytes swap width value).length = width := by
  cases swap <;> simp [wordBytes]

theorem wordValue_wordBytes {width value : Nat} (swap : Bool) (hvalue : value < 256 ^ width) :
    wordValue swap (wordBytes swap width value) = value := by
  cases swap <;> simp [wordBytes, wordValue, leValue_leBytes, Nat.mod_eq_of_lt hvalue]

theorem wordValue_lt (swap : Bool) (bytes : List UInt8) :
    wordValue swap bytes < 256 ^ bytes.length := by
  cases swap
  · exact leValue_lt bytes
  · exact (leValue_lt bytes.reverse).trans_eq (by rw [length_reverse])

theorem wordBytes_wordValue (swap : Bool) (bytes : List UInt8) :
    wordBytes swap bytes.length (wordValue swap bytes) = bytes := by
  cases swap
  · exact leBytes_leValue bytes
  · have hbytes := leBytes_leValue bytes.reverse
    rw [length_reverse] at hbytes
    simp [wordBytes, wordValue, hbytes]

/-! ### Alignment -/

/-- Bytes from `pos` to the next multiple of `alignment`. -/
def padBytes (pos alignment : Nat) : Nat := (alignment - pos % alignment) % alignment

def align (pos alignment : Nat) : Nat := pos + padBytes pos alignment

/-- The zero bytes written to reach the alignment. -/
def padding (pos alignment : Nat) : List UInt8 := List.replicate (padBytes pos alignment) 0

@[simp]
theorem padding_length (pos alignment : Nat) :
    (padding pos alignment).length = padBytes pos alignment := by
  simp [padding]

theorem padBytes_one (pos : Nat) : padBytes pos 1 = 0 := by
  simp [padBytes, Nat.mod_one]

theorem align_one (pos : Nat) : align pos 1 = pos := by
  simp [align, padBytes_one]

theorem dvd_align (pos alignment : Nat) (hpositive : 0 < alignment) :
    alignment ∣ align pos alignment := by
  have hsplit := Nat.div_add_mod pos alignment
  cases Nat.eq_zero_or_pos (pos % alignment) with
  | inl hzero =>
    have hdvd : alignment ∣ pos := Nat.dvd_of_mod_eq_zero hzero
    simpa [align, padBytes, hzero] using hdvd
  | inr hrest =>
    have hlt := Nat.mod_lt pos hpositive
    have hpad : padBytes pos alignment = alignment - pos % alignment :=
      Nat.mod_eq_of_lt (by omega)
    refine ⟨pos / alignment + 1, ?_⟩
    rw [align, Nat.mul_add]
    omega

theorem padBytes_of_dvd (hdvd : alignment ∣ pos) : padBytes pos alignment = 0 := by
  simp [padBytes, Nat.mod_eq_zero_of_dvd hdvd]

theorem align_of_dvd (hdvd : alignment ∣ pos) : align pos alignment = pos := by
  simp [align, padBytes_of_dvd hdvd]

theorem padBytes_congr {pos' : Nat} (hpos : pos % 8 = pos' % 8) (halignment : alignment ∣ 8) :
    padBytes pos alignment = padBytes pos' alignment := by
  unfold padBytes
  rw [← Nat.mod_mod_of_dvd pos halignment, hpos, Nat.mod_mod_of_dvd pos' halignment]

/-! ### Writing into a buffer -/

/-- The buffer with bytes written at an offset. -/
def overwrite (buffer : List UInt8) (offset : Nat) (bytes : List UInt8) : List UInt8 :=
  buffer.take offset ++ bytes ++ buffer.drop (offset + bytes.length)

theorem overwrite_tail (front room tag : List UInt8) (hroom : tag.length = room.length) :
    overwrite (front ++ room) front.length tag = front ++ tag := by
  rw [overwrite, take_left, drop_eq_nil_of_le (by simp [hroom]), List.append_nil]

theorem overwrite_middle (front old rest bytes : List UInt8) (hlength : bytes.length = old.length) :
    overwrite (front ++ (old ++ rest)) front.length bytes = front ++ (bytes ++ rest) := by
  rw [overwrite, take_left, hlength, ← append_assoc front, ← length_append,
    drop_left, append_assoc]

theorem overwrite_append_right (front buffer bytes : List UInt8) (offset : Nat) :
    overwrite (front ++ buffer) (front.length + offset) bytes =
      front ++ overwrite buffer offset bytes := by
  rw [overwrite, overwrite, take_length_add_append, Nat.add_assoc]
  simp

theorem overwrite_append_left {buffer bytes : List UInt8} {offset : Nat} (rest : List UInt8)
    (hinside : offset + bytes.length ≤ buffer.length) :
    overwrite (buffer ++ rest) offset bytes = overwrite buffer offset bytes ++ rest := by
  rw [overwrite, overwrite, take_append_of_le_length (by omega),
    drop_append_of_le_length hinside]
  simp

theorem overwrite_fill (front bytes : List UInt8) (room : Nat) (fill : UInt8) :
    overwrite (front ++ List.replicate room fill) front.length bytes =
      front ++ (bytes ++ List.replicate (room - bytes.length) fill) := by
  rw [overwrite, take_left, drop_length_add_append, drop_replicate,
    append_assoc]

/-! ### Memory -/

/-- The `count` bytes from address `pos`. -/
def read (mem : Nat → UInt8) : Nat → Nat → List UInt8
  | _, 0 => []
  | pos, count + 1 => mem pos :: read mem (pos + 1) count

@[simp]
theorem read_length (mem : Nat → UInt8) (pos count : Nat) : (read mem pos count).length = count := by
  induction count generalizing pos with
  | zero => rfl
  | succ count ih => simp [read, ih]

theorem read_congr {mem' : Nat → UInt8} {pos' count : Nat}
    (hsame : ∀ i < count, mem (pos + i) = mem' (pos' + i)) :
    read mem pos count = read mem' pos' count := by
  induction count generalizing pos pos' with
  | zero => rfl
  | succ count ih =>
    have hfirst : mem pos = mem' pos' := hsame 0 (Nat.succ_pos count)
    have hrest : ∀ i < count, mem (pos + 1 + i) = mem' (pos' + 1 + i) := by
      intro i hi
      have hnext := hsame (i + 1) (Nat.succ_lt_succ hi)
      rwa [Nat.add_assoc, Nat.add_assoc, Nat.add_comm 1]
    rw [read, read, hfirst, ih hrest]

theorem read_add (mem : Nat → UInt8) (pos first second : Nat) :
    read mem pos (first + second) = read mem pos first ++ read mem (pos + first) second := by
  induction first generalizing pos with
  | zero => simp [read]
  | succ first ih =>
    rw [Nat.add_right_comm, read, read, ih, cons_append, Nat.add_assoc, Nat.add_comm 1]

/-- The memory holds exactly these bytes from address `pos` on. -/
def Holds (mem : Nat → UInt8) (pos : Nat) (bytes : List UInt8) : Prop :=
  read mem pos bytes.length = bytes

theorem Holds.read_eq {count : Nat} {bytes : List UInt8} (hholds : Holds mem pos bytes)
    (hcount : count = bytes.length) : read mem pos count = bytes := by
  rw [hcount]
  exact hholds

theorem holds_append {first second : List UInt8} :
    Holds mem pos (first ++ second) ↔
      Holds mem pos first ∧ Holds mem (pos + first.length) second := by
  rw [Holds, length_append, read_add]
  constructor
  · intro heq
    exact append_inj heq (read_length mem pos first.length)
  · rintro ⟨hfirst, hsecond⟩
    rw [hfirst, hsecond]

theorem holds_cons {byte : UInt8} {rest : List UInt8} :
    Holds mem pos (byte :: rest) ↔ mem pos = byte ∧ Holds mem (pos + 1) rest := by
  rw [Holds, length_cons, read, List.cons.injEq, Holds]

theorem Holds.word {width value : Nat} {swap : Bool}
    (hholds : Holds mem pos (wordBytes swap width value)) (hvalue : value < 256 ^ width) :
    wordValue swap (read mem pos width) = value := by
  rw [hholds.read_eq (wordBytes_length swap width value).symm]
  exact wordValue_wordBytes swap hvalue

theorem exists_holds (pos : Nat) (bytes : List UInt8) : ∃ mem, Holds mem pos bytes := by
  have hread : ∀ rest done : List UInt8, bytes = done ++ rest →
      read (fun address => bytes.getD (address - pos) 0) (pos + done.length) rest.length = rest := by
    intro rest
    induction rest with
    | nil => intro done _; rfl
    | cons byte rest ih =>
      intro done hbytes
      have htail := ih (done ++ [byte]) (by simpa using hbytes)
      rw [length_append, length_singleton, ← Nat.add_assoc] at htail
      rw [length_cons, read, htail, hbytes]
      simp
  exact ⟨_, hread bytes [] rfl⟩

end AllJoyn.Lib.Bytes
