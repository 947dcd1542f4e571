import Mathlib.Algebra.Group.Nat.Defs
import Mathlib.Data.List.Range

/-!
Counter mode with CBC-MAC (RFC 3610) over any function on blocks of sixteen
bytes. The length field has `L` bytes and the authentication field `M`; the
header is shorter than 2 ^ 16 - 2 ^ 8 bytes, so that its length takes two.
-/

namespace AllJoyn.Lib.Ccm

abbrev Block := Vector UInt8 16

/-- The first sixteen bytes, filled up with zeros. -/
def block (bytes : List UInt8) : Block := Vector.ofFn fun i => bytes.getD i 0

def xorBlocks (x y : Block) : Block := Vector.zipWith (· ^^^ ·) x y

/-- The exclusive or as far as both strings reach. -/
def xorBytes (x y : List UInt8) : List UInt8 := List.zipWith (· ^^^ ·) x y

/-- The blocks of a string, the last one filled up with zeros. -/
def blocks (data : List UInt8) : List Block :=
  (List.range ((data.length + 15) / 16)).map fun i => block (data.drop (16 * i))

section

variable (cipher : Block → Block)

def mac (first : Block) (rest : List Block) : Block :=
  rest.foldl (fun x b => cipher (xorBlocks x b)) (cipher first)

/-- Flags, nonce and a number of `L` bytes, the most significant one first. -/
def layout (flags : UInt8) (L : Nat) (nonce : List UInt8) (n : Nat) : Block :=
  Vector.ofFn fun i =>
    if i.val = 0 then flags
    else if i.val < 16 - L then nonce.getD (i - 1) 0
    else UInt8.ofNat (n / 256 ^ (15 - i.val))

def authFlags (L M : Nat) (header : List UInt8) : UInt8 :=
  UInt8.ofNat ((if header = [] then 0 else 64) + 8 * ((M - 2) / 2) + (L - 1))

/-- The blocks behind the first one: the header with its length, if there is
a header, and the body. -/
def authBlocks (header body : List UInt8) : List Block :=
  (if header = [] then []
    else blocks (UInt8.ofNat (header.length / 256) :: UInt8.ofNat header.length :: header)) ++
    blocks body

variable (L M : Nat) (nonce : List UInt8)

/-- The authentication field before it is encrypted. -/
def authValue (header body : List UInt8) : List UInt8 :=
  (mac cipher (layout (authFlags L M header) L nonce body.length)
    (authBlocks header body)).toList.take M

def counterBlock (i : Nat) : Block := layout (UInt8.ofNat (L - 1)) L nonce i

def keystream (first count : Nat) : List UInt8 :=
  (List.range' first count).flatMap fun i => (cipher (counterBlock L nonce i)).toList

/-- The body is encrypted with the blocks from the first counter on. -/
def cryptBody (body : List UInt8) : List UInt8 :=
  xorBytes body (keystream cipher L nonce 1 ((body.length + 15) / 16))

/-- The authentication field is encrypted with the block of counter zero. -/
def cryptTag (tag : List UInt8) : List UInt8 := xorBytes tag (keystream cipher L nonce 0 1)

def encrypt (header body : List UInt8) : List UInt8 × List UInt8 :=
  (cryptBody cipher L nonce body, cryptTag cipher L nonce (authValue cipher L M nonce header body))

def decrypt (header body tag : List UInt8) : Option (List UInt8) :=
  let plain := cryptBody cipher L nonce body
  if cryptTag cipher L nonce tag = authValue cipher L M nonce header plain then some plain
  else none

end

/-! ### Blocks -/

@[simp]
theorem blocks_nil : blocks [] = [] := rfl

theorem blocks_of_ne_nil {data : List UInt8} (hdata : data ≠ []) :
    blocks data = block data :: blocks (data.drop 16) := by
  have hpositive : 0 < data.length := List.length_pos_iff.mpr hdata
  have hcount : (data.length + 15) / 16 = ((data.drop 16).length + 15) / 16 + 1 := by
    rw [List.length_drop]
    omega
  unfold blocks
  rw [hcount, List.range_succ_eq_map, List.map_cons, List.map_map, Nat.mul_zero, List.drop_zero]
  congr 1
  refine List.map_congr_left fun i _ => ?_
  simp only [Function.comp_apply, List.drop_drop]
  congr 2
  omega

theorem block_take (data : List UInt8) : block (data.take 16) = block data := by
  ext i hi
  simp [block]

/-! ### The cipher stream -/

theorem xorBytes_length (x y : List UInt8) :
    (xorBytes x y).length = min x.length y.length := by
  simp [xorBytes]

theorem xorBytes_cancel {x y : List UInt8} (hlength : x.length ≤ y.length) :
    xorBytes (xorBytes x y) y = x := by
  induction x generalizing y with
  | nil => simp [xorBytes]
  | cons a x ih =>
    cases y with
    | nil => simp at hlength
    | cons b y =>
      have htail := ih (y := y) (by simpa using hlength)
      simp only [xorBytes, List.zipWith_cons_cons] at htail ⊢
      rw [htail, UInt8.xor_assoc, UInt8.xor_self, UInt8.xor_zero]

theorem xorBytes_append (x y rest : List UInt8) :
    xorBytes x (y ++ rest) =
      xorBytes (x.take y.length) y ++ xorBytes (x.drop y.length) rest := by
  induction y generalizing x with
  | nil => simp [xorBytes]
  | cons b y ih =>
    cases x with
    | nil => simp [xorBytes]
    | cons a x =>
      have htail := ih x
      simp only [xorBytes, List.cons_append, List.zipWith_cons_cons, List.length_cons,
        List.take_succ_cons, List.drop_succ_cons] at htail ⊢
      rw [htail]

theorem keystream_succ (cipher : Block → Block) (L : Nat) (nonce : List UInt8)
    (first count : Nat) :
    keystream cipher L nonce first (count + 1) =
      (cipher (counterBlock L nonce first)).toList ++
        keystream cipher L nonce (first + 1) count := by
  rfl

theorem keystream_length (cipher : Block → Block) (L : Nat) (nonce : List UInt8)
    (first count : Nat) : (keystream cipher L nonce first count).length = 16 * count := by
  induction count generalizing first with
  | zero => rfl
  | succ count ih =>
    rw [keystream_succ, List.length_append, ih (first + 1), Vector.length_toList]
    omega

variable {cipher : Block → Block} {L M : Nat} {nonce : List UInt8}

@[simp]
theorem cryptBody_length (body : List UInt8) :
    (cryptBody cipher L nonce body).length = body.length := by
  rw [cryptBody, xorBytes_length, keystream_length]
  omega

theorem cryptBody_cryptBody (body : List UInt8) :
    cryptBody cipher L nonce (cryptBody cipher L nonce body) = body := by
  rw [cryptBody, cryptBody_length]
  refine xorBytes_cancel ?_
  rw [keystream_length]
  omega

variable {tag : List UInt8}

theorem cryptTag_length (htag : tag.length ≤ 16) :
    (cryptTag cipher L nonce tag).length = tag.length := by
  rw [cryptTag, xorBytes_length, keystream_length]
  omega

theorem cryptTag_cryptTag (htag : tag.length ≤ 16) :
    cryptTag cipher L nonce (cryptTag cipher L nonce tag) = tag := by
  refine xorBytes_cancel ?_
  rw [keystream_length]
  omega

theorem authValue_length (hM : M ≤ 16) (header body : List UInt8) :
    (authValue cipher L M nonce header body).length = M := by
  simp [authValue, hM]

/-! ### Decryption undoes encryption -/

theorem decrypt_encrypt (hM : M ≤ 16) (header body : List UInt8) :
    decrypt cipher L M nonce header (encrypt cipher L M nonce header body).1
      (encrypt cipher L M nonce header body).2 = some body := by
  have hvalue : (authValue cipher L M nonce header body).length ≤ 16 := by
    rw [authValue_length hM]
    exact hM
  simp [decrypt, encrypt, cryptBody_cryptBody, cryptTag_cryptTag hvalue]

/-- No other authentication field is accepted with the encrypted body. -/
theorem decrypt_of_ne (htag : tag.length ≤ 16) (header body : List UInt8)
    (hne : tag ≠ (encrypt cipher L M nonce header body).2) :
    decrypt cipher L M nonce header (encrypt cipher L M nonce header body).1 tag = none := by
  simp only [decrypt, encrypt, cryptBody_cryptBody]
  refine if_neg fun hvalue => hne ?_
  rw [encrypt, ← hvalue, cryptTag_cryptTag htag]

end AllJoyn.Lib.Ccm
