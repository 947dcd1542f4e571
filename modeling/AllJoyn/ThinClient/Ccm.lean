import AllJoyn.Lib.Ccm
import AllJoyn.ThinClient.Types

/-!
AES-CCM of the thin client (`aj_crypto_aes.c`, and the modes of operation of
`aj_sw_crypto.c`). The rounds of AES with an expanded key are a parameter. The
build picks between two ways to go through words, one for each byte order of
the host.
-/

namespace AllJoyn.ThinClient

open Lib.Ccm Lib.Bytes

inductive CryptoStatus where
  | ok
  | errResources
  | errSecurity
  deriving DecidableEq, Repr

/-! ### Modes of operation -/

/-- The bytes of a block that `Pack32` has put into words, in the order in
which a pointer to bytes meets them. -/
def Host.memory : Host → Block → List UInt8
  | .littleEndian, b => b.toList
  | .bigEndian, b =>
    [b[3], b[2], b[1], b[0], b[7], b[6], b[5], b[4], b[11], b[10], b[9], b[8], b[15], b[14],
      b[13], b[12]]

/-- The last word of a block with its byte `i` taken from `value / 256 ^ shift i`. -/
def setLastWord (b : Block) (value : Nat) (shift : Nat → Nat) : Block :=
  Vector.ofFn fun i =>
    if i.val < 12 then b[i] else UInt8.ofNat (value / 256 ^ shift (i.val - 12))

/-- Adds one to the last word of the counter. On a big-endian host the word is
the one `Pack32` has made, whose first byte is the lowest. -/
def Host.bump : Host → Block → Block
  | .littleEndian, b =>
    let value := b[12].toNat * 2 ^ 24 + b[13].toNat * 2 ^ 16 + b[14].toNat * 2 ^ 8 + b[15].toNat
    setLastWord b ((value + 1) % 2 ^ 32) fun i => 3 - i
  | .bigEndian, b =>
    let value := b[15].toNat * 2 ^ 24 + b[14].toNat * 2 ^ 16 + b[13].toNat * 2 ^ 8 + b[12].toNat
    setLastWord b ((value + 1) % 2 ^ 32) fun i => i

/-- `AJ_AES_CTR_128`: the output and the counter that is left. -/
def ctr128 (host : Host) (aes : Block → Block) (input : List UInt8) (counter : Block) :
    List UInt8 × Block :=
  if input = [] then ([], counter)
  else
    let rest := ctr128 host aes (input.drop 16) (host.bump counter)
    (xorBytes (input.take 16) (host.memory (aes counter)) ++ rest.1, rest.2)
termination_by input.length
decreasing_by
  have hpositive : 0 < input.length := List.length_pos_iff.mpr (by assumption)
  rw [List.length_drop]
  omega

/-- `CCM_Context`. The working block shares its memory with the initial block. -/
structure CcmContext where
  T : Block
  ivec0 : Block
  ivec : Block
  A : Block

/-- `AJ_AES_CBC_128_ENCRYPT` of one block into the tag: the output is also the
next initialisation vector. -/
def cbcEncrypt (aes : Block → Block) (input : Block) (context : CcmContext) : CcmContext :=
  let output := aes (xorBlocks input context.ivec0)
  { context with T := output, ivec0 := output }

def cbcMac (aes : Block → Block) (input : List UInt8) (context : CcmContext) : CcmContext :=
  if 16 ≤ input.length then
    cbcMac aes (input.drop 16) (cbcEncrypt aes (block (input.take 16)) context)
  else if input ≠ [] then
    let context := { context with A := block input }
    cbcEncrypt aes context.A context
  else context
termination_by input.length

/-- `Compute_CCM_AuthTag` on a buffer that begins with the header and goes on
with the body. -/
def computeCcmAuthTag (aes : Block → Block) (context : CcmContext) (msg : List UInt8)
    (mLen hdrLen : Nat) : CcmContext :=
  let context := cbcEncrypt aes context.A context
  let context :=
    if hdrLen ≠ 0 then
      let firstFew := min hdrLen 14
      let context := { context with
        A := block (UInt8.ofNat (hdrLen / 256) :: UInt8.ofNat hdrLen :: msg.take firstFew) }
      let context := cbcEncrypt aes context.A context
      cbcMac aes ((msg.drop firstFew).take (hdrLen - firstFew)) context
    else context
  if mLen ≠ 0 then cbcMac aes ((msg.drop hdrLen).take mLen) context else context

/-! ### Messages -/

/-- The loop that writes the length into the bytes below `n` of the initial
block, from the back. Its counter is a signed 32-bit number, which keeps its
sign when it is shifted; there is no result when the loop leaves the block. -/
def writeLength : Nat → Int → Block → Option Block
  | n, l, b =>
    if l = 0 then some b
    else
      match n with
      | 0 => none
      | n + 1 => writeLength n (l / 256) (b.setIfInBounds n (UInt8.ofNat (l % 256).toNat))

/-- The value of a 32-bit word as a signed number. -/
def int32 (n : Nat) : Int := (BitVec.ofNat 32 n).toInt

/-- `InitCCMContext`, once it has its memory. -/
def initCcmContext (nonce : List UInt8) (hdrLen msgLen M : Nat) : Option CcmContext := do
  let L := 15 - max nonce.length 11
  let flags := UInt8.ofNat ((if hdrLen ≠ 0 then 0x40 else 0) ||| (((M - 2) / 2) <<< 3) ||| (L - 1))
  let ivec := block (UInt8.ofNat (L - 1) :: nonce)
  let B_0 ← writeLength 16 (int32 (msgLen - hdrLen)) (block (flags :: nonce))
  return { T := block [], ivec0 := block [], ivec := ivec, A := B_0 }

/-- Crypts the body of a message in place. -/
def cryptInPlace (host : Host) (aes : Block → Block) (msg : List UInt8) (msgLen hdrLen : Nat)
    (ivec : Block) : List UInt8 :=
  if msgLen ≠ hdrLen then
    overwrite msg hdrLen
      (ctr128 host aes ((msg.drop hdrLen).take (msgLen - hdrLen)) ivec).1
  else msg

def cryptoCompare (buf1 buf2 : List UInt8) : UInt8 :=
  (List.zipWith (· ^^^ ·) buf1 buf2).foldl (· ||| ·) 0

section

variable {Key : Type} (host : Host) (aes : Key → Block → Block) (key : Key) (allocated : Bool)

/-- `AJ_Encrypt_CCM` on a buffer with room for the tag behind the message. -/
def encryptCcm (msg : List UInt8) (msgLen hdrLen tagLen : Nat) (nonce : List UInt8) :
    Option (CryptoStatus × List UInt8) :=
  if !allocated then some (.errResources, msg)
  else do
    let context ← initCcmContext nonce hdrLen msgLen tagLen
    let context := computeCcmAuthTag (aes key) context msg (msgLen - hdrLen) hdrLen
    let (tag, ivec) := ctr128 host (aes key) (context.T.toList.take tagLen) context.ivec
    let msg := overwrite msg msgLen tag
    return (.ok, cryptInPlace host (aes key) msg msgLen hdrLen ivec)

def decryptCcm (msg : List UInt8) (msgLen hdrLen tagLen : Nat) (nonce : List UInt8) :
    Option (CryptoStatus × List UInt8) :=
  if !allocated then some (.errResources, msg)
  else do
    let context ← initCcmContext nonce hdrLen msgLen tagLen
    let (tag, ivec) := ctr128 host (aes key) ((msg.drop msgLen).take tagLen) context.ivec
    let msg := overwrite msg msgLen tag
    let msg := cryptInPlace host (aes key) msg msgLen hdrLen ivec
    let context := computeCcmAuthTag (aes key) context msg (msgLen - hdrLen) hdrLen
    if cryptoCompare (context.T.toList.take tagLen) ((msg.drop msgLen).take tagLen) ≠ 0 then
      return (.errSecurity,
        overwrite msg 0 (List.replicate ((msgLen + tagLen) % 2 ^ 32) 0))
    else return (.ok, msg)

end

end AllJoyn.ThinClient
