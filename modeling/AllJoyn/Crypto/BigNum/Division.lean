import AllJoyn.Crypto.BigNum.Arith
import AllJoyn.Lib.LongDivision

/-!
`BigNum::div`: long division with a quotient digit that is estimated from the
leading digits, and a dividend that is reduced in place.
-/

namespace AllJoyn.Crypto.BigNum

open Lib.Limbs Lib.LongDivision

/-! ### The position of the highest bit -/

def deBruijnPos : List UInt32 :=
  [0, 9, 1, 10, 13, 21, 2, 29, 11, 14, 16, 18, 22, 25, 3, 30,
   8, 12, 20, 28, 15, 17, 24, 7, 19, 27, 23, 6, 26, 5, 4, 31]

def deBruijnMagic : UInt32 := 0x07C4ACDD

/-- One less than the next power of two. -/
def fillBits (n : UInt32) : UInt32 :=
  let n := n ||| n >>> 1
  let n := n ||| n >>> 2
  let n := n ||| n >>> 4
  let n := n ||| n >>> 8
  n ||| n >>> 16

def log2 (n : UInt32) : UInt32 :=
  deBruijnPos.getD ((fillBits n * deBruijnMagic) >>> 27).toNat 0

/-! ### Right shift -/

/-- The loop of `right_shift` for a shift of 1 to 31 bits, from the most
significant digit on. -/
def shiftRightDigits (shift : UInt32) : List UInt32 → UInt32 → List UInt32
  | [], _ => []
  | v :: vs, ext => (ext ||| v >>> shift) :: shiftRightDigits shift vs (v <<< (32 - shift))

/-- A number over digits that belong to another one, as `Set` makes it. -/
def view (digits : List UInt32) : BigNum :=
  if hsome : digits ≠ [] then ⟨digits, false, hsome⟩ else zero

/-- `BigNum::right_shift`. The length of the result is that of the stripped
number less the digits shifted out, and `none` where that is not positive. -/
def shiftRight (n : BigNum) (shift : UInt32) : Option BigNum :=
  let shift32 := (shift >>> 5).toNat
  if n.length > shift32 then
    let t := n.stripLz
    let shift := shift &&& 0x1F
    let digits :=
      if shift = 0 then t.digits.drop shift32
      else (shiftRightDigits shift (t.digits.drop shift32).reverse 0).reverse
    if hsome : digits ≠ [] then some (stripLz ⟨digits, t.neg, hsome⟩) else none
  else some zero

/-! ### The dividend -/

/-- A number that is worked on in place. `length` is the length that
`strip_lz` leaves; the digits behind it are still there. -/
structure Working where
  digits : List UInt32
  length : Nat

/-- The number from the digit `d` on, as `digits += d` and `length -= d` make
it. -/
def Working.from (x : Working) (d : Nat) : BigNum :=
  view ((x.digits.drop d).take (x.length - d))

def strippedLength (digits : List UInt32) : Nat := max 1 (strip digits).length

/-- `BigNum::sub` on the digits from `d` on. `none` is the assertion that the
subtrahend is not larger. -/
def Working.sub (x : Working) (d : Nat) (n : BigNum) : Option Working :=
  if (x.from d).ge n then
    let digits := (subDigits (x.digits.drop d) n.digits 0).1
    some ⟨x.digits.take d ++ digits, strippedLength (digits.take (x.length - d)) + d⟩
  else none

/-- The loop that reduces the leading digits of `x` below `y`, and how often. -/
def reduceTop (y : BigNum) (d : Nat) : Nat → Working → UInt32 → Option (Working × UInt32)
  | 0, _, _ => none
  | fuel + 1, x, count =>
    if (x.from d).ge y then do
      let x ← x.sub d y
      reduceTop y d fuel x (count + 1)
    else some (x, count)

/-- The loop that adjusts the estimate. A product with 0 is never too large. -/
def adjustDigit (y2 xm3 : BigNum) : Nat → Nat
  | 0 => 0
  | qdigit + 1 =>
    if (y2.mulDigit (UInt32.ofNat (qdigit + 1)) false).gt xm3 then adjustDigit y2 xm3 qdigit
    else qdigit + 1

/-- The first estimate, from one digit of `y` and two of `x`. -/
def firstEstimate (ymsd high low : UInt32) : UInt32 :=
  if high = ymsd then 0xFFFFFFFF
  else ((high.toUInt64 <<< 32 + low.toUInt64) / ymsd.toUInt64).toUInt32

/-- The estimate of the quotient digit `d`. -/
def quotientDigit (y : BigNum) (t : Nat) (x : List UInt32) (d : Nat) : UInt32 :=
  let i := d + t + 1
  let y2 := view (y.digits.drop (t - 1))
  let xm3 := view [x.getD (i - 2) 0, x.getD (i - 1) 0, x.getD i 0]
  let qdigit := firstEstimate (y.digits.getD t 0) (x.getD i 0) (x.getD (i - 1) 0)
  UInt32.ofNat (adjustDigit y2 xm3 qdigit.toNat)

/-- The main loop, for the quotient digits below `d`. -/
def divideDigits (y : BigNum) (t : Nat) : Nat → Working → List UInt32 →
    Option (Working × List UInt32)
  | 0, x, q => some (x, q)
  | d + 1, x, q => do
    let qdigit := quotientDigit y t x.digits d
    let x ← x.sub d (y.mulDigit qdigit false)
    -- the sign of x is not touched by the subtraction, so this is never so
    if (x.from d).lt zero then none
    else divideDigits y t d x (q.set d qdigit)

/-! ### Division -/

def abs (elided : Bool) (n : BigNum) : BigNum := if n.neg then n.negate elided else n.stripLz

/-- Division by a single digit, from the most significant digit on. -/
def divideByDigit (y : UInt32) : List UInt32 → UInt64 → List UInt32 × UInt64
  | [], carry => ([], carry)
  | x :: xs, carry =>
    let X := x.toUInt64 + carry <<< 32
    let d := X / y.toUInt64
    let (q, carry) := divideByDigit y xs (X - d * y.toUInt64)
    (d.toUInt32 :: q, carry)

/-- The digits of a word, without a leading zero. -/
def wordDigits (w : UInt64) : List UInt32 :=
  if w >>> 32 ≠ 0 then [w.toUInt32, (w >>> 32).toUInt32] else [w.toUInt32]

/-- The word of up to two digits. -/
def digitsWord (digits : List UInt32) : UInt64 :=
  (digits.getD 0 0).toUInt64 + (digits.getD 1 0).toUInt64 <<< 32

/-- The remainder is negative if the dividend is. -/
def signedRemainder (neg : Bool) (rem : BigNum) : BigNum :=
  { rem with neg := neg && rem.ne zero }

/-- The shift after which the most significant digit of `y` is at least
`2 ^ 31`. -/
def norm (y : BigNum) : UInt32 := 31 - log2 (y.digits.getLast y.nonempty)

def normalise (n : BigNum) (shift : UInt32) : BigNum :=
  if shift ≠ 0 then n.shiftLeft shift else n

def denormalise (n : BigNum) (shift : UInt32) : Option BigNum :=
  if shift ≠ 0 then n.shiftRight shift else some n

/-- Division by a divisor of `t + 1` digits whose most significant digit is at
least `2 ^ 31`: the digits of the quotient, in an array of `room` digits, and
what is left of the dividend. -/
def divideNormalised (x y : BigNum) (t room : Nat) : Option (List UInt32 × Working) := do
  let d := x.length - 1 - t
  let x : Working := ⟨x.digits, x.length⟩
  let (x, count) ← reduceTop y d (value x.digits + 1) x 0
  let qLength := if count ≠ 0 then d + 1 else max 1 d
  let (x, q) ← divideDigits y t d x ((List.replicate room 0).set d count)
  return (q.take qLength, x)

/-- Division where the dividend has at least three digits and the divisor two:
the digits of the quotient and the remainder without its sign. -/
def longDivision (x y : BigNum) : Option (List UInt32 × BigNum) := do
  let (q, w) ← divideNormalised (x.normalise (norm y)) (y.normalise (norm y)) (y.length - 1)
    (x.length - y.length + 2)
  let rem ← (view (w.digits.take w.length)).denormalise (norm y)
  return (q, rem.stripLz)

/-- `BigNum::div`: the quotient and the remainder. -/
def div (elided : Bool) (self divisor : BigNum) : Option (BigNum × BigNum) :=
  let x := self.abs elided
  let y := divisor.abs elided
  let neg := self.neg ^^ divisor.neg
  match compare x y with
  | .lt => some (zero, self)
  | .eq => some (ofUInt32 1, zero)
  | .gt =>
    if y.length = 1 then
      let (q, carry) := divideByDigit (y.digits.getD 0 0) x.digits.reverse 0
      some (stripLz { view q.reverse with neg := neg },
        signedRemainder self.neg (ofUInt32 carry.toUInt32))
    else if x.length ≤ 2 then
      let X := digitsWord x.digits
      let Y := digitsWord y.digits
      let Q := X / Y
      let R := X - Y * Q
      some (stripLz { view (wordDigits Q) with neg := neg },
        signedRemainder self.neg (view (wordDigits R)))
    else do
      let (q, rem) ← longDivision x y
      return (stripLz { view q with neg := neg }, signedRemainder self.neg rem)

end AllJoyn.Crypto.BigNum
