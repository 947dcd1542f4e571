import AllJoyn.Crypto.BigNum.Division

/-!
`BigNum::mod_exp`: square and multiply, for odd moduli in the domain of
Montgomery products. `rem` is the operator `%`.
-/

namespace AllJoyn.Crypto.BigNum

open Lib.Limbs

def isOdd (n : BigNum) : Bool := n.digits.getD 0 0 &&& 1 ≠ 0

def bitLen (n : BigNum) : Nat :=
  if hsome : strip n.digits ≠ [] then
    ((strip n.digits).length - 1) * 32 + 1 + (log2 ((strip n.digits).getLast hsome)).toNat
  else 0

def testBit (n : BigNum) (index : Nat) : Bool :=
  n.digits.getD (index >>> 5) 0 &&& 1 <<< UInt32.ofNat (index &&& 0x1F) ≠ 0

/-! ### Montgomery products -/

def montyRho (b : UInt64) : UInt32 :=
  if b &&& 1 = 0 then 0
  else
    let x := ((b + 2) &&& 4) <<< 1 + b
    let x := x * (2 - b * x)
    let x := x * (2 - b * x)
    let x := x * (2 - b * x)
    (-x).toUInt32

/-- The storage that `reset` leaves to a number which does not share its own:
it is reused where it is large enough, and cleared only in front. -/
def reset (storage : List UInt32) (len : Nat) : List UInt32 :=
  if storage.length < len then List.replicate (len + 4) 0
  else List.replicate len 0 ++ storage.drop len

/-- The inner loop, over the digits of `y`, of `m` and of the accumulator: the
digits that are written, from one place below. -/
def montyRow (X : UInt64) (u : UInt32) :
    List UInt32 → List UInt32 → List UInt32 → UInt64 → Option (List UInt32)
  | y :: ys, m :: ms, rd :: rds, carry => do
    let Y := X * y.toUInt64
    let M := u.toUInt64 * m.toUInt64
    let R := rd.toUInt64 + carry + Y.toUInt32.toUInt64 + M.toUInt32.toUInt64
    let rest ← montyRow X u ys ms rds (R >>> 32 + Y >>> 32 + M >>> 32)
    return R.toUInt32 :: rest
  | [], [], rd :: rds, carry =>
    let R := rd.toUInt64 + carry
    some (R.toUInt32 :: (R >>> 32).toUInt32 :: rds)
  -- behind the end of the storage
  | _, _, _, _ => none

/-- The outer loop. The accumulator is the storage from its second digit on. -/
def montyRows (y m : List UInt32) (rho : UInt32) : List UInt32 → List UInt32 → Option (List UInt32)
  | [], buffer => some buffer
  | x :: xs, buffer => do
    let r := buffer.drop 1
    let X := x.toUInt64
    let u := (((r.getD 0 0).toUInt64 + X * (y.getD 0 0).toUInt64) * rho.toUInt64).toUInt32
    let buffer ← montyRow X u y m r 0
    montyRows y m rho xs buffer

/-- Digits that are extended with zeroes. -/
def padded (n : BigNum) (len : Nat) : List UInt32 :=
  n.digits ++ List.replicate (len - n.length) 0

/-- The subtraction of the modulus at the end of a product. -/
def Working.reduce (r : Working) (m : BigNum) : Option Working :=
  if (r.from 1).ge m then r.sub 1 m else some r

/-- `BigNum::monty_mul` into a number with the storage given: the product and
the storage. `none` is an assertion, or an access outside of the storage. -/
def montyMul (storage : List UInt32) (self n m : BigNum) (rho : UInt32) :
    Option (BigNum × List UInt32) := do
  let len := m.length
  if self.length ≤ len ∧ n.length ≤ len then
    let buffer ← montyRows (n.padded len) m.digits rho (self.padded len) (reset storage (len + 1))
    let r : Working := ⟨buffer, len + 2⟩
    let r ← r.reduce m
    return ((r.from 1).stripLz, r.digits)
  else none

/-! ### Powers -/

/-- The storage that a number gets by assignment from a temporary. An empty
list is no storage, and then a digit is copied. -/
def assigned (storage : List UInt32) : List UInt32 :=
  if storage = [] then List.replicate 5 0 else storage

/-- The loop of `monty_mod_exp` over the bits of `e` below `i`. The storage of
`a` is that of `tmp2`, so that `tmp1` does not share its own, nor `tmp2` once
`a` is in `tmp1`. -/
def montyLoop (x e m : BigNum) (rho : UInt32) :
    Nat → BigNum → List UInt32 → List UInt32 → Option BigNum
  | 0, a, _, _ => some a
  | i + 1, a, tmp1, tmp2 => do
    let (a, tmp1) ← montyMul tmp1 a a m rho
    if e.testBit i then
      let (a, tmp2) ← montyMul tmp2 a x m rho
      montyLoop x e m rho i a tmp1 tmp2
    else montyLoop x e m rho i a (assigned tmp2) tmp1

/-- The number with `len` zero digits below a one. -/
def radixPower (len : Nat) : BigNum := ⟨List.replicate len 0 ++ [1], false, by simp⟩

section Rem

variable (rem : BigNum → BigNum → BigNum)

def montyModExp (self e m : BigNum) : Option BigNum := do
  let rho := montyRho (m.digits.getD 0 0).toUInt64
  let a := rem (radixPower m.length) m
  let (x, _) ← montyMul [] self (rem (radixPower (m.length * 2)) m) m rho
  let a ← montyLoop x e m rho e.bitLen a [] []
  let (r, _) ← montyMul [] a (ofUInt32 1) m rho
  return r

/-- The loop of `mod_exp` for an even modulus. -/
def powerLoop (x e m : BigNum) : Nat → BigNum → BigNum
  | 0, a => a
  | i + 1, a =>
    let a := rem (mul a a) m
    powerLoop x e m i (if e.testBit i then rem (mul a x) m else a)

def modExp (self e m : BigNum) : Option BigNum :=
  let x := self.stripLz
  let x := if x.length > m.length then rem x m else x
  if m.isOdd then montyModExp rem x e m
  else some (powerLoop rem x e m e.bitLen (ofUInt32 1)).stripLz

end Rem

end AllJoyn.Crypto.BigNum
