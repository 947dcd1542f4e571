import Mathlib.Data.BitVec

/-!
The string helpers of the common library: searching and cutting a `qcc::String`
(`String.h`, which leaves both to `std::string`), and numbers in hexadecimal
(`StringUtil.cc`).
-/

namespace AllJoyn.Text

open List

/-! ### Searching and cutting -/

/-- The last occurrence of a character. -/
def findLast (c : Char) : List Char → Option Nat
  | [] => none
  | first :: rest =>
    match findLast c rest with
    | some index => some (index + 1)
    | none => if first = c then some 0 else none

/-- `String::find_last_of(c, pos)`. The position `pos` itself is searched. -/
def findLastOf (str : List Char) (c : Char) (pos : Nat) : Option Nat :=
  findLast c (str.take (pos + 1))

def npos : BitVec 64 := BitVec.allOnes 64

/-- `String::substr`; `none` is the exception for a position behind the end. -/
def substr (str : List Char) (pos : Nat) (n : BitVec 64) : Option (List Char) :=
  if pos ≤ str.length then some ((str.drop pos).take n.toNat) else none

variable {c : Char} {behind : List Char}

theorem findLast_append (before : List Char) {index : Nat} (hfound : findLast c behind = some index) :
    findLast c (before ++ behind) = some (before.length + index) := by
  induction before with
  | nil => simpa using hfound
  | cons first before ih =>
    rw [cons_append, findLast, ih, length_cons]
    simp only [Option.some.injEq]
    omega

theorem findLast_eq_none {str : List Char} (hmissing : c ∉ str) : findLast c str = none := by
  induction str with
  | nil => rfl
  | cons first rest ih =>
    rw [mem_cons, not_or] at hmissing
    rw [findLast, ih hmissing.2, if_neg (Ne.symm hmissing.1)]

theorem findLast_middle (before : List Char) (hmissing : c ∉ behind) :
    findLast c (before ++ c :: behind) = some before.length := by
  have hfirst : findLast c (c :: behind) = some 0 := by
    rw [findLast, findLast_eq_none hmissing, if_pos rfl]
  exact findLast_append before hfirst

theorem findLastOf_at (before behind : List Char) :
    findLastOf (before ++ c :: behind) c before.length = some before.length := by
  have htake : (before ++ c :: behind).take (before.length + 1) = before ++ [c] := by
    rw [take_length_add_append, take_succ_cons, take_zero]
  rw [findLastOf, htake]
  exact findLast_middle before (not_mem_nil)

/-! ### Hexadecimal numbers -/

/-- `hexCharsUC[digit]`. -/
def hexChar (digit : Nat) : Char := "0123456789ABCDEF".toList.getD digit '0'

def u32ToStringLoop : Nat → Nat → List Char → List Char
  | 0, _, out => out
  | turns + 1, num, out =>
    let out := hexChar (num % 16) :: out
    if num / 16 = 0 then out else u32ToStringLoop turns (num / 16) out

/-- `U32ToString(num, 16)`. A number of 32 bits has at most eight digits. -/
def u32ToString (num : BitVec 32) : List Char := u32ToStringLoop 8 num.toNat []

def charToU8 (c : Char) : Nat :=
  if '0' ≤ c ∧ c ≤ '9' then c.toNat - '0'.toNat
  else if 'A' ≤ c ∧ c ≤ 'F' then 10 + c.toNat - 'A'.toNat
  else if 'a' ≤ c ∧ c ≤ 'f' then 10 + c.toNat - 'a'.toNat
  else 255

def isWhite (c : Char) : Bool := c ∈ [' ', '\t', '\n', '\r', '\x0b']

/-- The loop of `StringToU32`; a string without a number is 0. -/
def stringToU32Loop : List Char → Bool → BitVec 32 → BitVec 32
  | [], isBad, val => if isBad then 0 else val
  | c :: rest, isBad, val =>
    if !isWhite c then
      if charToU8 c ≥ 16 then 0
      else stringToU32Loop rest false (val * 16 + BitVec.ofNat 32 (charToU8 c))
    else if !isBad then val
    else stringToU32Loop rest isBad val

def skipHexPrefix : List Char → List Char
  | '0' :: 'x' :: rest => rest
  | '0' :: 'X' :: rest => rest
  | str => str

/-- `StringToU32(str, 16)`. -/
def stringToU32 (str : List Char) : BitVec 32 := stringToU32Loop (skipHexPrefix str) true 0

theorem hexChar_digit : ∀ digit < 16, charToU8 (hexChar digit) = digit ∧
    isWhite (hexChar digit) = false ∧ hexChar digit ≠ 'x' ∧ hexChar digit ≠ 'X' ∧
    hexChar digit ≠ '.' := by
  decide

theorem stringToU32Loop_hexChar {digit : Nat} (hdigit : digit < 16) (rest : List Char)
    (isBad : Bool) (val : BitVec 32) :
    stringToU32Loop (hexChar digit :: rest) isBad val =
      stringToU32Loop rest false (val * 16 + BitVec.ofNat 32 digit) := by
  obtain ⟨hvalue, hwhite, -⟩ := hexChar_digit digit hdigit
  rw [stringToU32Loop, hwhite, hvalue, Bool.not_false, if_pos rfl, if_neg (by omega)]

theorem stringToU32Loop_append (turns : Nat) : ∀ (num : Nat) (out : List Char) (isBad : Bool)
    (val : BitVec 32), num < 16 ^ (turns + 1) → ∃ digits : Nat,
      stringToU32Loop (u32ToStringLoop (turns + 1) num out) isBad val =
        stringToU32Loop out false (val * BitVec.ofNat 32 (16 ^ digits) + BitVec.ofNat 32 num) := by
  induction turns with
  | zero =>
    intro num out isBad val hnum
    refine ⟨1, ?_⟩
    rw [u32ToStringLoop, if_pos (by omega), stringToU32Loop_hexChar (by omega),
      Nat.mod_eq_of_lt (by omega)]
    rfl
  | succ turns ih =>
    intro num out isBad val hnum
    have hsplit : BitVec.ofNat 32 (num / 16) * 16 + BitVec.ofNat 32 (num % 16) =
        BitVec.ofNat 32 num := by
      rw [show (16 : BitVec 32) = BitVec.ofNat 32 16 from rfl, ← BitVec.ofNat_mul,
        ← BitVec.ofNat_add, Nat.div_add_mod' num 16]
    rw [u32ToStringLoop]
    split
    · rename_i hlast
      refine ⟨1, ?_⟩
      rw [stringToU32Loop_hexChar (by omega), Nat.mod_eq_of_lt (by omega)]
      rfl
    · obtain ⟨digits, hrest⟩ := ih (num / 16) (hexChar (num % 16) :: out) isBad val
        (by rw [pow_succ] at hnum; omega)
      refine ⟨digits + 1, ?_⟩
      rw [hrest, stringToU32Loop_hexChar (by omega), BitVec.add_mul, BitVec.mul_assoc,
        BitVec.add_assoc, hsplit, pow_succ, BitVec.ofNat_mul]
      rfl

theorem mem_u32ToStringLoop (turns : Nat) : ∀ (num : Nat) (out : List Char) (c : Char),
    c ∈ u32ToStringLoop turns num out → c ∈ out ∨ ∃ digit < 16, c = hexChar digit := by
  induction turns with
  | zero =>
    intro num out c hmem
    exact Or.inl hmem
  | succ turns ih =>
    intro num out c hmem
    have hstep : c ∈ hexChar (num % 16) :: out → c ∈ out ∨ ∃ digit < 16, c = hexChar digit := by
      intro hmem
      rcases mem_cons.mp hmem with rfl | hout
      · exact Or.inr ⟨num % 16, Nat.mod_lt _ (by omega), rfl⟩
      · exact Or.inl hout
    rw [u32ToStringLoop] at hmem
    split at hmem
    · exact hstep hmem
    · rcases ih _ _ _ hmem with hout | hdigit
      · exact hstep hout
      · exact Or.inr hdigit

theorem mem_u32ToString {num : BitVec 32} (hmem : c ∈ u32ToString num) :
    ∃ digit < 16, c = hexChar digit := by
  rcases mem_u32ToStringLoop 8 num.toNat [] c hmem with hnone | hdigit
  · cases hnone
  · exact hdigit

theorem length_u32ToStringLoop (turns : Nat) : ∀ (num : Nat) (out : List Char),
    (u32ToStringLoop turns num out).length ≤ turns + out.length := by
  induction turns with
  | zero =>
    intro num out
    rw [u32ToStringLoop]
    omega
  | succ turns ih =>
    intro num out
    rw [u32ToStringLoop]
    split
    · rw [length_cons]
      omega
    · have hrest := ih (num / 16) (hexChar (num % 16) :: out)
      rw [length_cons] at hrest
      omega

theorem skipHexPrefix_u32ToString (num : BitVec 32) :
    skipHexPrefix (u32ToString num) = u32ToString num := by
  have hplain : ∀ c ∈ u32ToString num, c ≠ 'x' ∧ c ≠ 'X' := by
    intro c hmem
    obtain ⟨digit, hdigit, rfl⟩ := mem_u32ToString hmem
    obtain ⟨-, -, hx, hX, -⟩ := hexChar_digit digit hdigit
    exact ⟨hx, hX⟩
  generalize u32ToString num = str at hplain
  rw [skipHexPrefix.eq_def]
  split
  · exact absurd rfl (hplain 'x' (by simp)).1
  · exact absurd rfl (hplain 'X' (by simp)).2
  · rfl

theorem stringToU32_u32ToString (num : BitVec 32) : stringToU32 (u32ToString num) = num := by
  obtain ⟨digits, hloop⟩ := stringToU32Loop_append 7 num.toNat [] true 0
    (by have hlt := num.isLt; omega)
  rw [stringToU32, skipHexPrefix_u32ToString, u32ToString, hloop]
  simp [stringToU32Loop]

end AllJoyn.Text
