import AllJoyn.Lib.Limbs

/-!
Multiple-precision integers (`BigNum.cc`): their digits, the constructors and
the operators `+`, `-`, `*`, `<<` and the comparisons.
-/

namespace AllJoyn.Crypto

open Lib.Limbs

/-- `BigNum` as the digits behind its pointer, `length` of them, and its sign.
Storage is shared between copies and written only where no other number can
see it, so that a number is its digits. -/
structure BigNum where
  digits : List UInt32
  neg : Bool
  nonempty : digits ≠ []
  deriving DecidableEq, Repr

namespace BigNum

def length (n : BigNum) : Nat := n.digits.length

/-- The number without its sign. -/
def magnitude (n : BigNum) : Nat := value n.digits

/-- The integer that a number denotes. -/
def toInt (n : BigNum) : Int := if n.neg then -(n.magnitude : Int) else n.magnitude

/-- The constructor from a small integer; `0` gives `BigNum::zero`. -/
def ofUInt32 (v : UInt32) : BigNum := ⟨[v], false, by simp⟩

def zero : BigNum := ofUInt32 0

def stripLz (n : BigNum) : BigNum :=
  if hsome : strip n.digits ≠ [] then ⟨strip n.digits, n.neg, hsome⟩ else zero

/-- A local variable that a function returns. The copy constructor strips the
leading zeroes, unless the compiler leaves the copy out. -/
def returned (elided : Bool) (n : BigNum) : BigNum := if elided then n else n.stripLz

/-! ### Conversion -/

/-- The digits of a byte array, from its last byte on. -/
def bytesDigits : List UInt8 → List UInt32
  | [] => []
  | [a] => [a.toUInt32]
  | [a, b] => [a.toUInt32 ||| b.toUInt32 <<< 8]
  | [a, b, c] => [a.toUInt32 ||| b.toUInt32 <<< 8 ||| c.toUInt32 <<< 16]
  | a :: b :: c :: d :: rest =>
    (a.toUInt32 ||| b.toUInt32 <<< 8 ||| c.toUInt32 <<< 16 ||| d.toUInt32 <<< 24) ::
      bytesDigits rest

theorem bytesDigits_ne_nil {data : List UInt8} (hdata : data ≠ []) : bytesDigits data ≠ [] := by
  unfold bytesDigits
  split <;> simp_all

/-- `BigNum::set_bytes`. No bytes leave a number without digits, whose digits
no operation can read. -/
def setBytes (data : List UInt8) : Option BigNum :=
  if hdata : data ≠ [] then
    some ⟨bytesDigits data.reverse, false, bytesDigits_ne_nil (by simpa using hdata)⟩
  else none

def hexDigit (c : Char) : Option UInt32 :=
  if '0' ≤ c ∧ c ≤ '9' then some (UInt32.ofNat (c.toNat - '0'.toNat))
  else if 'a' ≤ c ∧ c ≤ 'f' then some (UInt32.ofNat (c.toNat + 10 - 'a'.toNat))
  else if 'A' ≤ c ∧ c ≤ 'F' then some (UInt32.ofNat (c.toNat + 10 - 'A'.toNat))
  else none

/-- Up to eight characters, from the last one on, as the digit at bit `i`. -/
def hexWord : Nat → Nat → List Char → Option (UInt32 × List Char)
  | 0, _, text => some (0, text)
  | _ + 1, _, [] => some (0, [])
  | room + 1, i, c :: text => do
    let digit ← hexDigit c
    let (high, text) ← hexWord room (i + 4) text
    return (digit <<< UInt32.ofNat i ||| high, text)

def hexDigits : Nat → List Char → Option (List UInt32)
  | 0, _ => some []
  | length + 1, text => do
    let (digit, text) ← hexWord 8 0 text
    let digits ← hexDigits length text
    return digit :: digits

/-- `BigNum::set_hex`, where `none` is a string that it refuses. -/
def setHex (number : List Char) : Option BigNum :=
  let (neg, p) := match number with
    | '-' :: p => (true, p)
    | p => (false, p)
  let p := match p with
    | '0' :: 'x' :: p => p
    | p => p
  let p := p.dropWhile (· = '0')
  let length := (p.length + 7) / 8
  if length = 0 then some zero
  else
    match hexDigits length p.reverse with
    | some (digit :: digits) => some ⟨digit :: digits, neg, by simp⟩
    | _ => none

/-! ### Comparison -/

/-- The digits of two numbers of one length, from the most significant one on. -/
def compareTop : List UInt32 → List UInt32 → Ordering
  | x :: xs, y :: ys => if x = y then compareTop xs ys else if x > y then .gt else .lt
  | _, _ => .eq

def compare (a b : BigNum) : Ordering :=
  let aDigits := strip a.digits
  let bDigits := strip b.digits
  -- zero is always positive
  if (a.neg && aDigits ≠ []) ≠ (b.neg && bDigits ≠ []) then if a.neg then .lt else .gt
  else if aDigits.length = bDigits.length then compareTop aDigits.reverse bDigits.reverse
  else if aDigits.length > bDigits.length then .gt
  else .lt

/-- `operator<`. -/
def lt (a b : BigNum) : Bool := compare a b = .lt

/-- `operator>`. -/
def gt (a b : BigNum) : Bool := compare a b = .gt

/-- `operator<=`. -/
def le (a b : BigNum) : Bool := compare a b ≠ .gt

/-- `operator>=`. -/
def ge (a b : BigNum) : Bool := compare a b ≠ .lt

/-- `operator==`. -/
def eq (a b : BigNum) : Bool := compare a b = .eq

/-- `operator!=`. -/
def ne (a b : BigNum) : Bool := compare a b ≠ .eq

/-! ### Negation, addition and subtraction -/

section Sum

variable (elided : Bool)

/-- The unary `operator-`. -/
def negate (n : BigNum) : BigNum :=
  let result := n.stripLz
  returned elided { result with neg := !result.neg }

/-- The loops of `operator+` over the digits of the longer and the shorter
number. -/
def addDigits : List UInt32 → List UInt32 → UInt64 → List UInt32
  | x :: xs, y :: ys, carry =>
    let n := x.toUInt64 + y.toUInt64 + carry
    n.toUInt32 :: addDigits xs ys (n >>> 32)
  | x :: xs, [], carry =>
    let n := x.toUInt64 + carry
    n.toUInt32 :: addDigits xs [] (n >>> 32)
  | [], _, carry => if carry ≠ 0 then [carry.toUInt32] else []

theorem addDigits_ne_nil {xs : List UInt32} (hsome : xs ≠ []) (ys : List UInt32)
    (carry : UInt64) : addDigits xs ys carry ≠ [] := by
  cases xs with
  | nil => exact absurd rfl hsome
  | cons x xs => cases ys <;> simp [addDigits]

/-- `operator+` of two numbers that are not negative. -/
def addMagnitudes (a b : BigNum) : BigNum :=
  if b.length ≤ a.length then
    ⟨addDigits a.digits b.digits 0, false, addDigits_ne_nil a.nonempty _ _⟩
  else ⟨addDigits b.digits a.digits 0, false, addDigits_ne_nil b.nonempty _ _⟩

/-- The loops of `operator-` and of `BigNum::sub` over the digits of the larger
and the smaller number: the difference and the last borrow. -/
def subDigits : List UInt32 → List UInt32 → UInt64 → List UInt32 × UInt64
  | x :: xs, y :: ys, borrow =>
    let n := x.toUInt64 - y.toUInt64 - borrow
    let (digits, borrow) := subDigits xs ys (n >>> 63)
    (n.toUInt32 :: digits, borrow)
  | x :: xs, [], borrow =>
    let n := x.toUInt64 - borrow
    let (digits, borrow) := subDigits xs [] (n >>> 63)
    (n.toUInt32 :: digits, borrow)
  | [], _, borrow => ([], borrow)

theorem subDigits_length (xs ys : List UInt32) (borrow : UInt64) :
    (subDigits xs ys borrow).1.length = xs.length := by
  induction xs generalizing ys borrow with
  | nil => cases ys <;> rfl
  | cons x xs ih => cases ys <;> simp [subDigits, ih]

/-- The number of digits up to the first one, from the most significant on, in
which two numbers of one length differ. -/
def differing : List UInt32 → List UInt32 → Nat
  | x :: xs, y :: ys => if x = y then differing xs ys else xs.length + 1
  | _, _ => 0

def difference (xs ys : List UInt32) (neg : Bool) : BigNum :=
  if hsome : xs ≠ [] then
    stripLz ⟨(subDigits xs ys 0).1, neg, by
      rw [← List.length_pos_iff, subDigits_length]
      exact List.length_pos_iff.mpr hsome⟩
  else zero

/-- `operator-` of two numbers that are not negative. -/
def subMagnitudes (a b : BigNum) : BigNum :=
  if a.length > b.length then difference a.digits b.digits false
  else if a.length < b.length then difference b.digits a.digits true
  else
    let xLen := differing a.digits.reverse b.digits.reverse
    if xLen = 0 then zero
    else if a.digits.getD (xLen - 1) 0 > b.digits.getD (xLen - 1) 0 then
      difference (a.digits.take xLen) (b.digits.take xLen) false
    else difference (b.digits.take xLen) (a.digits.take xLen) true

mutual

/-- `operator+`. It calls `operator-` where a sign is set, and that one calls
it: `fuel` bounds the depth of the calls. -/
def add : Nat → BigNum → BigNum → Option BigNum
  | 0, _, _ => none
  | fuel + 1, a, b =>
    if b.neg then sub fuel a (b.negate elided)
    else if a.neg then sub fuel b (a.negate elided)
    else some (returned elided (addMagnitudes a b))

/-- The binary `operator-`. -/
def sub : Nat → BigNum → BigNum → Option BigNum
  | 0, _, _ => none
  | fuel + 1, a, b =>
    if b.neg then add fuel a (b.negate elided)
    else if a.neg then (sub fuel b a).map (negate elided)
    else some (subMagnitudes a b)

end

end Sum

/-! ### Shift and multiplication -/

/-- The loop of `operator<<` for a shift of 1 to 31 bits. -/
def shiftDigits (shift : UInt32) : List UInt32 → UInt32 → List UInt32
  | [], ext => [ext]
  | y :: ys, ext =>
    let v := y.toUInt64 <<< shift.toUInt64
    (v.toUInt32 ||| ext) :: shiftDigits shift ys (v >>> 32).toUInt32

theorem shiftDigits_ne_nil (shift : UInt32) (ys : List UInt32) (ext : UInt32) :
    shiftDigits shift ys ext ≠ [] := by
  cases ys <;> simp [shiftDigits]

/-- `operator<<`. -/
def shiftLeft (n : BigNum) (shift : UInt32) : BigNum :=
  if shift = 0 then n.stripLz
  else
    let low := List.replicate (shift >>> 5).toNat 0
    let shift := shift &&& 0x1F
    if shift = 0 then stripLz ⟨low ++ n.digits, n.neg, by simp [n.nonempty]⟩
    else stripLz ⟨low ++ shiftDigits shift n.digits 0, n.neg, by simp [shiftDigits_ne_nil]⟩

/-- The loop of the multiplication by a digit. -/
def mulDigits (b : UInt32) : List UInt32 → UInt64 → List UInt32
  | [], carry => [carry.toUInt32]
  | v :: vs, carry =>
    let x := v.toUInt64 * b.toUInt64 + carry
    x.toUInt32 :: mulDigits b vs (x >>> 32)

theorem mulDigits_ne_nil (b : UInt32) (vs : List UInt32) (carry : UInt64) :
    mulDigits b vs carry ≠ [] := by
  cases vs <;> simp [mulDigits]

/-- `BigNum::mul` by a digit. -/
def mulDigit (a : BigNum) (b : UInt32) (bneg : Bool) : BigNum :=
  if b > 2 then stripLz ⟨mulDigits b a.digits 0, a.neg ^^ bneg, mulDigits_ne_nil _ _ _⟩
  else if b = 1 then stripLz { a with neg := a.neg ^^ bneg }
  else if b = 2 then stripLz { a.shiftLeft 1 with neg := a.neg ^^ bneg }
  else zero

/-- The inner loop of `BigNum::mul`, which adds a multiple of the digits of `b`
to the digits of the result. -/
def mulRow (x : UInt32) : List UInt32 → List UInt32 → UInt64 → List UInt32
  | y :: ys, s :: ss, carry =>
    let p := x.toUInt64 * y.toUInt64 + s.toUInt64 + carry
    p.toUInt32 :: mulRow x ys ss (p >>> 32)
  | [], _ :: ss, carry => carry.toUInt32 :: ss
  | _, [], _ => []

/-- The outer loop, over the digits of `a` and the result from their place on. -/
def mulRows : List UInt32 → List UInt32 → List UInt32 → List UInt32
  | [], _, r => r
  | x :: xs, b, r =>
    match mulRow x b r 0 with
    | [] => []
    | digit :: r => digit :: mulRows xs b r

theorem mulRow_length (x : UInt32) (ys ss : List UInt32) (carry : UInt64) :
    (mulRow x ys ss carry).length = ss.length := by
  induction ss generalizing ys carry with
  | nil => cases ys <;> rfl
  | cons s ss ih => cases ys <;> simp [mulRow, ih]

theorem mulRows_length (xs b r : List UInt32) : (mulRows xs b r).length = r.length := by
  induction xs generalizing r with
  | nil => rfl
  | cons x xs ih =>
    have hlength := mulRow_length x b r 0
    rw [mulRows]
    split
    · rename_i hrow
      rw [hrow] at hlength
      exact hlength
    · rename_i hrow
      rw [hrow] at hlength
      rw [List.length_cons, ih]
      exact hlength

/-- `BigNum::mul` of two numbers, the shorter one first. -/
def mulOrdered (a b : BigNum) : BigNum :=
  if a.length = 1 then b.mulDigit (a.digits.getD 0 0) a.neg
  else
    let r := List.replicate (a.length + b.length) 0
    stripLz ⟨mulRows a.digits b.digits r, a.neg ^^ b.neg, by
      rw [← List.length_pos_iff, mulRows_length, List.length_replicate]
      exact Nat.add_pos_left (List.length_pos_iff.mpr a.nonempty) _⟩

/-- `operator*`. -/
def mul (a b : BigNum) : BigNum :=
  if a.length > b.length then mulOrdered b a else mulOrdered a b

end BigNum

end AllJoyn.Crypto
