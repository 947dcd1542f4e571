import AllJoyn.ThinClient.Ccm
import Mathlib.Tactic.IntervalCases

/-!
The thin client's AES-CCM against the mode of RFC 3610, for any block cipher.
A little-endian build computes the mode as long as the length of the body fits
a signed word; a big-endian one takes the bytes of the cipher stream out of
order.
-/

namespace AllJoyn.ThinClient

open Lib.Ccm Lib.Bytes Nat Option

variable {x ivec : Block} {bodyLen : Nat} {room tag : List UInt8} {context : CcmContext}
  {nonce : List UInt8}

/-! ### Authentication -/

theorem xorBlocks_comm (x y : Block) : xorBlocks x y = xorBlocks y x := by
  ext i hi
  simp [xorBlocks, UInt8.xor_comm]

theorem xorBlocks_zero (x : Block) : xorBlocks x (block []) = x := by
  ext i hi
  simp [xorBlocks, block]

variable {aes : Block → Block}

/-- The chain stands at `x`; the working block is left open. -/
structure Chained (x ivec : Block) (context : CcmContext) : Prop where
  tag : context.T = x
  ivec0 : context.ivec0 = x
  ivec : context.ivec = ivec

theorem Chained.cbcEncrypt (hcontext : Chained x ivec context) (input : Block) :
    Chained (aes (xorBlocks x input)) ivec (cbcEncrypt aes input context) := by
  have hnext : aes (xorBlocks input context.ivec0) = aes (xorBlocks x input) := by
    rw [hcontext.ivec0, xorBlocks_comm]
  exact ⟨hnext, hnext, hcontext.ivec⟩

theorem Chained.cbcMac (hcontext : Chained x ivec context) (input : List UInt8) :
    Chained ((blocks input).foldl (fun x b => aes (xorBlocks x b)) x) ivec
      (cbcMac aes input context) := by
  induction hlength : input.length using Nat.strong_induction_on generalizing input context x with
  | _ n ih =>
    unfold ThinClient.cbcMac
    split_ifs with hlong hempty
    · have hne : input ≠ [] := by
        rintro rfl
        simp at hlong
      have hshorter : (input.drop 16).length < n := by
        rw [List.length_drop]
        omega
      rw [blocks_of_ne_nil hne, ← block_take]
      exact ih _ hshorter (hcontext.cbcEncrypt _) (input.drop 16) rfl
    · have hlast : input.drop 16 = [] := List.drop_eq_nil_of_le (by omega)
      have hworking : Chained x ivec { context with A := block input } :=
        ⟨hcontext.tag, hcontext.ivec0, hcontext.ivec⟩
      rw [blocks_of_ne_nil hempty, hlast]
      exact hworking.cbcEncrypt (block input)
    · rw [not_not.mp hempty]
      exact hcontext

/-- The header with its length: the block that is put together by hand, and
the rest. -/
theorem Chained.header (hcontext : Chained x ivec context) (header rest : List UInt8) :
    let firstFew := min header.length 14
    let first := block (UInt8.ofNat (header.length / 256) :: UInt8.ofNat header.length ::
      (header ++ rest).take firstFew)
    Chained ((blocks (UInt8.ofNat (header.length / 256) :: UInt8.ofNat header.length ::
        header)).foldl (fun x b => aes (xorBlocks x b)) x) ivec
      (ThinClient.cbcMac aes (((header ++ rest).drop firstFew).take (header.length - firstFew))
        (ThinClient.cbcEncrypt aes first { context with A := first })) := by
  intro firstFew first
  have hfew : firstFew ≤ header.length := Nat.min_le_left _ _
  have htake : (header ++ rest).take firstFew = header.take 14 := by
    rw [List.take_append_of_le_length hfew]
    simp [firstFew, Nat.min_comm]
  have hdrop : ((header ++ rest).drop firstFew).take (header.length - firstFew) =
      header.drop 14 := by
    rw [List.drop_append_of_le_length hfew,
      List.take_append_of_le_length (by rw [List.length_drop]), List.take_of_length_le
      (by rw [List.length_drop])]
    rcases Nat.le_total header.length 14 with hshort | hlong
    · rw [List.drop_eq_nil_of_le hshort]
      simp [firstFew, hshort]
    · rw [show firstFew = 14 from Nat.min_eq_right hlong]
  have hfirst : first = block (UInt8.ofNat (header.length / 256) :: UInt8.ofNat header.length ::
      header) := by
    rw [← block_take (_ :: _ :: header)]
    simp [first, htake]
  have hworking : Chained x ivec { context with A := first } :=
    ⟨hcontext.tag, hcontext.ivec0, hcontext.ivec⟩
  rw [hdrop, blocks_of_ne_nil (by simp), ← hfirst]
  exact (hworking.cbcEncrypt first).cbcMac (header.drop 14)

/-- The tag is the CBC-MAC of the initial block, the header and the body. -/
theorem computeCcmAuthTag_chained (aes : Block → Block) (hzero : context.ivec0 = block [])
    (header body rest : List UInt8) :
    Chained (mac aes context.A (authBlocks header body)) context.ivec
      (computeCcmAuthTag aes context (header ++ body ++ rest) body.length header.length) := by
  have hstart : Chained (aes context.A) context.ivec (cbcEncrypt aes context.A context) := by
    have hfirst : aes (xorBlocks context.A context.ivec0) = aes context.A := by
      rw [hzero, xorBlocks_zero]
    exact ⟨hfirst, hfirst, rfl⟩
  have hbody {x : Block} {before : CcmContext} (hbefore : Chained x context.ivec before) :
      Chained ((blocks body).foldl (fun x b => aes (xorBlocks x b)) x) context.ivec
        (if body.length ≠ 0 then
          cbcMac aes (((header ++ body ++ rest).drop header.length).take body.length) before
        else before) := by
    by_cases hempty : body = []
    · subst hempty
      exact hbefore
    · have hinput : ((header ++ body ++ rest).drop header.length).take body.length = body := by
        simp
      rw [if_pos (by simpa using hempty), hinput]
      exact hbefore.cbcMac body
  unfold mac authBlocks computeCcmAuthTag
  rw [List.foldl_append]
  refine hbody ?_
  by_cases hempty : header = []
  · subst hempty
    exact hstart
  · rw [if_neg hempty, if_pos (by simpa using hempty), List.append_assoc]
    exact hstart.header header (body ++ rest)

/-! ### The initial blocks -/

/-- The nonce filled up with zeros in front of a length field of `L` bytes. -/
def extendNonce (L : Nat) (nonce : List UInt8) : List UInt8 :=
  nonce ++ List.replicate (15 - L - nonce.length) 0

/-- The size of the length field for a nonce. -/
def lengthField (nonce : List UInt8) : Nat := 15 - max nonce.length 11

/-- The nonce of the mode. -/
def fullNonce (nonce : List UInt8) : List UInt8 := extendNonce (lengthField nonce) nonce

theorem extendNonce_getD (L : Nat) (nonce : List UInt8) (i : Nat) :
    (extendNonce L nonce).getD i 0 = nonce.getD i 0 := by
  unfold extendNonce
  simp only [List.getD_eq_getElem?_getD]
  rcases Nat.lt_or_ge i nonce.length with hin | hout
  · rw [List.getElem?_append_left hin]
  · rw [List.getElem?_append_right hout, List.getElem?_replicate,
      List.getElem?_eq_none (by omega)]
    split_ifs <;> rfl

theorem writeLength_spec {n l : Nat} (hl : l < 256 ^ n) (hn : n ≤ 16) (b : Block) :
    ∃ result, writeLength n l b = some result ∧ ∀ i (hi : i < 16),
      result[i] = if i < n ∧ l / 256 ^ (n - 1 - i) ≠ 0 then UInt8.ofNat (l / 256 ^ (n - 1 - i))
        else b[i] := by
  induction n generalizing l b with
  | zero =>
    obtain rfl : l = 0 := by simpa using hl
    exact ⟨b, by simp [writeLength], by simp⟩
  | succ n ih =>
    by_cases hzero : l = 0
    · subst hzero
      exact ⟨b, by simp [writeLength], by simp⟩
    · have hnext : l / 256 < 256 ^ n := by
        rw [Nat.div_lt_iff_lt_mul (by decide)]
        exact hl
      obtain ⟨result, hresult, hbytes⟩ := ih hnext (by omega)
        (b.setIfInBounds n (UInt8.ofNat l))
      refine ⟨result, ?_, ?_⟩
      · have hbyte : UInt8.ofNat ((l : Int) % 256).toNat = UInt8.ofNat l := by
          exact UInt8.ofNat_mod_size
        rw [writeLength, if_neg (by simpa using hzero), hbyte]
        simpa using hresult
      · intro i hi
        rw [hbytes i hi]
        rcases Nat.lt_trichotomy i n with hlower | rfl | hupper
        · have hquotient : l / 256 / 256 ^ (n - 1 - i) = l / 256 ^ (n + 1 - 1 - i) := by
            rw [Nat.div_div_eq_div_mul, ← Nat.pow_succ']
            congr 2
            omega
          rw [hquotient, Vector.getElem_setIfInBounds_ne hi hlower.ne']
          simp [hlower, lt_succ_of_lt hlower]
        · simp [hzero]
        · rw [Vector.getElem_setIfInBounds_ne hi hupper.ne]
          simp [show ¬i < n by omega, show ¬i < n + 1 by omega]

theorem lengthField_cases (hnonce : nonce.length ≤ 13) :
    lengthField nonce = 2 ∨ lengthField nonce = 3 ∨ lengthField nonce = 4 := by
  rw [lengthField]
  omega

theorem block_nonce (L : Nat) (hL : L ≤ 15) (hnonce : nonce.length ≤ 15 - L) (flags : UInt8) :
    block (flags :: nonce) = layout flags L (extendNonce L nonce) 0 := by
  ext i hi
  simp only [block, layout, Vector.getElem_ofFn, extendNonce_getD]
  rcases Nat.eq_zero_or_pos i with rfl | hpositive
  · simp
  · obtain ⟨j, rfl⟩ := exists_eq_succ_of_ne_zero hpositive.ne'
    simp only [List.getD_cons_succ, succ_ne_zero, if_false]
    split_ifs with hfield
    · rfl
    · rw [List.getD_eq_getElem?_getD, List.getElem?_eq_none (by omega)]
      simp

theorem flags_eq {m l : Nat} (hm : m < 8) (hl : l < 8) (adata : Bool) :
    UInt8.ofNat ((if adata then 0x40 else 0) ||| (m <<< 3) ||| l) =
      UInt8.ofNat ((if adata then 64 else 0) + 8 * m + l) := by
  revert adata
  interval_cases m <;> interval_cases l <;> decide

/-- The initial blocks are those of the mode while the length of the body is a
positive signed word. -/
theorem initCcmContext_some {M : Nat} (header : List UInt8) (hnonce : nonce.length ≤ 13)
    (hM : M ≤ 16) (hbody : bodyLen < 2 ^ (8 * lengthField nonce)) (hsigned : bodyLen < 2 ^ 31) :
    initCcmContext nonce header.length (header.length + bodyLen) M =
      some ⟨block [], block [], counterBlock (lengthField nonce) (fullNonce nonce) 0,
        layout (authFlags (lengthField nonce) M header) (lengthField nonce) (fullNonce nonce)
          bodyLen⟩ := by
  have hnonceLen : nonce.length ≤ 15 - lengthField nonce := by
    rw [lengthField]
    omega
  have hL := lengthField_cases hnonce
  rw [fullNonce]
  unfold initCcmContext
  dsimp only
  rw [show 15 - max nonce.length 11 = lengthField nonce from rfl]
  generalize lengthField nonce = L at hbody hL hnonceLen ⊢
  rw [Nat.pow_mul] at hbody
  have hlength : int32 (header.length + bodyLen - header.length) = bodyLen := by
    rw [Nat.add_sub_cancel_left, int32, BitVec.toInt_eq_toNat_of_lt]
    · rw [BitVec.toNat_ofNat, mod_eq_of_lt (by omega)]
    · rw [BitVec.toNat_ofNat]
      omega
  have hflags : UInt8.ofNat ((if header.length ≠ 0 then 0x40 else 0) ||| (((M - 2) / 2) <<< 3) |||
      (L - 1)) = authFlags L M header := by
    have hadata : (if header.length ≠ 0 then 64 else 0) = if header = [] then 0 else 64 := by
      by_cases hempty : header = []
      · simp [hempty]
      · simp [hempty]
    have hboth := flags_eq (m := (M - 2) / 2) (l := L - 1) (by omega) (by omega)
      (decide (header.length ≠ 0))
    simp only [decide_eq_true_eq] at hboth
    rw [hboth, hadata, authFlags]
  have hpow : bodyLen < 256 ^ 16 := by
    omega
  obtain ⟨result, hresult, hbytes⟩ := writeLength_spec hpow le_rfl
    (layout (authFlags L M header) L (extendNonce L nonce) 0)
  have hinitial : result = layout (authFlags L M header) L (extendNonce L nonce) bodyLen := by
    ext i hi
    rw [hbytes i hi]
    simp only [layout, Vector.getElem_ofFn, hi, true_and, Nat.zero_div]
    rcases Nat.lt_or_ge i (16 - L) with hnonce | hnumber
    · have hle : 256 ^ L ≤ 256 ^ (16 - 1 - i) := Nat.pow_le_pow_right (by decide) (by omega)
      rw [if_neg (not_not.mpr (div_eq_of_lt (Nat.lt_of_lt_of_le hbody hle)))]
      simp [hnonce]
    · have hpositive : i ≠ 0 := by omega
      simp only [if_false, Nat.not_lt.mpr hnumber]
      split_ifs with hquotient
      · rfl
      · rw [not_not.mp hquotient]
  rw [hflags, block_nonce L (by omega) hnonceLen, block_nonce L (by omega) hnonceLen, hlength,
    hresult, hinitial]
  rfl

/-- There is no initial block for a body whose length is a negative signed
word. -/
theorem writeLength_negative {l : Int} (hl : l < 0) (n : Nat) (b : Block) :
    writeLength n l b = none := by
  induction n generalizing l b with
  | zero => rw [writeLength, if_neg hl.ne]
  | succ n ih =>
    rw [writeLength, if_neg hl.ne]
    exact ih (by omega) _

theorem initCcmContext_none {M hdrLen : Nat} (hlong : 2 ^ 31 ≤ bodyLen) (hword : bodyLen < 2 ^ 32) :
    initCcmContext nonce hdrLen (hdrLen + bodyLen) M = none := by
  have hnegative : int32 (hdrLen + bodyLen - hdrLen) < 0 := by
    rw [int32, BitVec.toInt_eq_toNat_cond, BitVec.toNat_ofNat]
    split_ifs <;> omega
  unfold initCcmContext
  dsimp only
  rw [writeLength_negative hnegative]
  rfl

/-! ### The counter -/

variable {L i : Nat} {body : List UInt8}

theorem bump_counterBlock (hL : L = 2 ∨ L = 3 ∨ L = 4) (nonce : List UInt8) (hi : i + 1 < 256 ^ L) :
    Host.littleEndian.bump (counterBlock L nonce i) = counterBlock L nonce (i + 1) := by
  ext j hj
  rw [Host.bump, setLastWord, Vector.getElem_ofFn]
  rcases Nat.lt_or_ge j 12 with hfront | hword
  · have hnonce : j < 16 - L := by omega
    rw [if_pos hfront]
    simp [counterBlock, layout, hnonce]
  · rw [if_neg (Nat.not_lt.mpr hword)]
    have h11 : (nonce.getD 11 0).toNat < 256 := UInt8.toNat_lt _
    have h12 : (nonce.getD 12 0).toNat < 256 := UInt8.toNat_lt _
    -- The bytes of the word, one by one, for each size of the length field.
    rcases hL with rfl | rfl | rfl
    all_goals
      interval_cases j <;>
        simp [counterBlock, layout] at hi h11 h12 ⊢ <;> omega

/-- On a little-endian host the counter mode goes through the cipher stream. -/
theorem ctr128_littleEndian (hL : L = 2 ∨ L = 3 ∨ L = 4) (nonce input : List UInt8)
    (hi : i + (input.length + 15) / 16 < 256 ^ L) :
    ctr128 .littleEndian aes input (counterBlock L nonce i) =
      (xorBytes input (keystream aes L nonce i ((input.length + 15) / 16)),
        counterBlock L nonce (i + (input.length + 15) / 16)) := by
  induction hlength : input.length using Nat.strong_induction_on generalizing input i with
  | _ n ih =>
    subst hlength
    unfold ctr128
    split_ifs with hempty
    · subst hempty
      rfl
    · have hpositive : 0 < input.length := List.length_pos_iff.mpr hempty
      have hcount : (input.length + 15) / 16 = ((input.drop 16).length + 15) / 16 + 1 := by
        rw [List.length_drop]
        omega
      have hshorter : (input.drop 16).length < input.length := by
        omega
      have hrest := ih _ hshorter (input.drop 16) (i := i + 1) (by omega) rfl
      rw [bump_counterBlock hL nonce (by omega), hrest, hcount, keystream_succ, xorBytes_append,
        Vector.length_toList, Nat.add_right_comm]
      rfl

theorem Host.memory_length (host : Host) (b : Block) : (host.memory b).length = 16 := by
  cases host with
  | littleEndian => exact Vector.length_toList
  | bigEndian => rfl

theorem ctr128_length (host : Host) (aes : Block → Block) (input : List UInt8) (counter : Block) :
    (ctr128 host aes input counter).1.length = input.length := by
  induction hlength : input.length using Nat.strong_induction_on generalizing input counter with
  | _ n ih =>
    subst hlength
    unfold ctr128
    split_ifs with hempty
    · rw [hempty]
    · have hpositive : 0 < input.length := List.length_pos_iff.mpr hempty
      have hshorter : (input.drop 16).length < input.length := by
        rw [List.length_drop]
        omega
      rw [List.length_append, ih _ hshorter (input.drop 16) _ rfl, xorBytes_length,
        Host.memory_length, List.length_take, List.length_drop]
      omega

/-! ### The buffer -/

theorem cryptInPlace_eq (host : Host) (header body tag : List UInt8) (ivec : Block) :
    cryptInPlace host aes (header ++ body ++ tag) (header.length + body.length) header.length
        ivec = header ++ (ctr128 host aes body ivec).1 ++ tag := by
  unfold cryptInPlace
  split_ifs with hbody
  · have hinput : ((header ++ body ++ tag).drop header.length).take
        (header.length + body.length - header.length) = body := by
      simp
    rw [overwrite, ctr128_length]
    simp [List.drop_append]
  · have hempty : body = [] := List.length_eq_zero_iff.mp (by omega)
    rw [hempty, ctr128, if_pos rfl]

theorem foldl_or_eq_zero (bytes : List UInt8) (acc : UInt8) :
    bytes.foldl (· ||| ·) acc = 0 ↔ acc = 0 ∧ ∀ b ∈ bytes, b = 0 := by
  induction bytes generalizing acc with
  | nil => simp
  | cons b rest ih =>
    rw [List.foldl_cons, ih]
    simp [and_assoc]

theorem cryptoCompare_eq_zero {x y : List UInt8} (hlength : x.length = y.length) :
    cryptoCompare x y = 0 ↔ x = y := by
  unfold cryptoCompare
  rw [foldl_or_eq_zero]
  induction x generalizing y with
  | nil => simp [List.length_eq_zero_iff.mp hlength.symm]
  | cons a x ih =>
    cases y with
    | nil => simp at hlength
    | cons b y =>
      have htail := ih (y := y) (by simpa using hlength)
      simp only [true_and] at htail ⊢
      rw [List.zipWith_cons_cons, List.forall_mem_cons, htail, UInt8.xor_eq_zero_iff,
        List.cons.injEq]

/-! ### Messages -/

section

variable {Key : Type} {aes : Key → Block → Block} {key : Key} {nonce header : List UInt8}
  {context : CcmContext}

theorem decryptCcm_eq (host : Host) (htag : tag.length ≤ 16)
    (hinit : initCcmContext nonce header.length (header.length + body.length) tag.length =
      some context) (hzero : context.ivec0 = block [])
    (hword : header.length + body.length + tag.length < 2 ^ 32) :
    let field := ctr128 host (aes key) tag context.ivec
    let plain := (ctr128 host (aes key) body field.2).1
    decryptCcm host aes key true (header ++ body ++ tag) (header.length + body.length)
        header.length tag.length nonce =
      some (if field.1 = (mac (aes key) context.A (authBlocks header plain)).toList.take tag.length
        then (.ok, header ++ plain ++ field.1)
        else (.errSecurity,
          List.replicate (header.length + body.length + tag.length) 0)) := by
  have hfield := ctr128_length host (aes key) tag context.ivec
  unfold decryptCcm
  have hinput : ((header ++ body ++ tag).drop (header.length + body.length)).take tag.length =
      tag := by
    simp
  simp only [hinit, bind_eq_bind,
    bind_some, Nat.add_sub_cancel_left, hinput]
  generalize ctr128 host (aes key) tag context.ivec = field at hfield ⊢
  have hplain := ctr128_length host (aes key) body field.2
  have hbuffer : cryptInPlace host (aes key)
      (overwrite (header ++ body ++ tag) (header.length + body.length) field.1)
      (header.length + body.length) header.length field.2 =
        header ++ (ctr128 host (aes key) body field.2).1 ++ field.1 := by
    rw [← List.length_append, overwrite_tail _ _ _ hfield, List.length_append, cryptInPlace_eq]
  rw [hbuffer]
  generalize (ctr128 host (aes key) body field.2).1 = plain at hplain ⊢
  obtain ⟨hmac, -, -⟩ := computeCcmAuthTag_chained (aes key) hzero header plain field.1
  have hstored : ((header ++ plain ++ field.1).drop (header.length + body.length)).take
      tag.length = field.1 := by
    rw [← hplain, ← List.length_append, List.drop_left, ← hfield, List.take_length]
  have hvalue : ((mac (aes key) context.A (authBlocks header plain)).toList.take tag.length).length
      = field.1.length := by
    rw [List.length_take, Vector.length_toList, hfield, Nat.min_eq_left htag]
  rw [hplain] at hmac
  rw [hmac, hstored]
  by_cases heq : field.1 = (mac (aes key) context.A (authBlocks header plain)).toList.take tag.length
  · have hsame := (cryptoCompare_eq_zero hvalue).mpr heq.symm
    rw [if_neg (not_not.mpr hsame), if_pos heq]
    rfl
  · have hdiffers : cryptoCompare _ _ ≠ 0 :=
      fun hzero => heq ((cryptoCompare_eq_zero hvalue).mp hzero).symm
    rw [if_pos hdiffers, if_neg heq, mod_eq_of_lt hword]
    simp [overwrite, hplain, hfield, Nat.add_assoc]

end

/-- The encrypted body and tag of the mode. -/
def standardCcm (cipher : Block → Block) (M : Nat) (nonce header body : List UInt8) :
    List UInt8 × List UInt8 :=
  encrypt cipher (lengthField nonce) M (fullNonce nonce) header body

/-- The thin client agrees with the mode on a message: encryption into a buffer
with `room` for the tag, decryption of what comes out of it, and the refusal
of every other tag. -/
structure CcmAgrees {Key : Type} (host : Host) (aes : Key → Block → Block) (key : Key)
    (nonce header body room : List UInt8) : Prop where
  encrypts :
    encryptCcm host aes key true (header ++ body ++ room) (header.length + body.length)
        header.length room.length nonce =
      some (.ok, header ++ (standardCcm (aes key) room.length nonce header body).1 ++
        (standardCcm (aes key) room.length nonce header body).2)
  decrypts : ∃ tail,
    decryptCcm host aes key true
        (header ++ (standardCcm (aes key) room.length nonce header body).1 ++
          (standardCcm (aes key) room.length nonce header body).2)
        (header.length + body.length) header.length room.length nonce =
      some (.ok, header ++ body ++ tail)
  refuses : ∀ tag, tag.length = room.length →
    tag ≠ (standardCcm (aes key) room.length nonce header body).2 →
    decryptCcm host aes key true
        (header ++ (standardCcm (aes key) room.length nonce header body).1 ++ tag)
        (header.length + body.length) header.length room.length nonce =
      some (.errSecurity, List.replicate (header.length + body.length + room.length) 0)

section Mode

variable {Key : Type} {aes : Key → Block → Block} {key : Key} {nonce header body : List UInt8}
  (hnonce : nonce.length ≤ 13) (hroom : 0 < room.length ∧ room.length ≤ 16)
  (hbody : body.length < 2 ^ (8 * lengthField nonce)) (hsigned : body.length < 2 ^ 31)

include hnonce hbody

theorem ctr128_tag_body (cipher : Block → Block) (htag : 0 < tag.length ∧ tag.length ≤ 16) :
    let field := ctr128 .littleEndian cipher tag
      (counterBlock (lengthField nonce) (fullNonce nonce) 0)
    field.1 = cryptTag cipher (lengthField nonce) (fullNonce nonce) tag ∧
      (ctr128 .littleEndian cipher body field.2).1 =
        cryptBody cipher (lengthField nonce) (fullNonce nonce) body := by
  have hL := lengthField_cases hnonce
  have hlarge : 256 ^ 2 ≤ 256 ^ lengthField nonce :=
    Nat.pow_le_pow_right (by decide) (by rw [lengthField]; omega)
  rw [Nat.pow_mul, show 2 ^ 8 = 256 from rfl] at hbody
  have hone : (tag.length + 15) / 16 = 1 := by omega
  have hfield : ctr128 .littleEndian cipher tag _ = _ :=
    ctr128_littleEndian (i := 0) hL (fullNonce nonce) tag (by omega)
  have hplain : ctr128 .littleEndian cipher body _ = _ :=
    ctr128_littleEndian (i := 1) hL (fullNonce nonce) body (by omega)
  rw [hone] at hfield
  rw [hfield]
  exact ⟨rfl, congrArg Prod.fst hplain⟩

include hsigned

theorem decryptCcm_littleEndian (aes : Key → Block → Block) (key : Key) {tagLen : Nat}
    (hbodyLen : body.length = bodyLen) (htagLen : tag.length = tagLen)
    (htag : 0 < tagLen ∧ tagLen ≤ 16) (hheader : header.length < 65280) :
    decryptCcm .littleEndian aes key true (header ++ body ++ tag) (header.length + bodyLen)
        header.length tagLen nonce =
      some ((decrypt (aes key) (lengthField nonce) tagLen (fullNonce nonce) header body tag).elim
        (.errSecurity, List.replicate (header.length + bodyLen + tagLen) 0)
        fun plain => (.ok, header ++ plain ++
          cryptTag (aes key) (lengthField nonce) (fullNonce nonce) tag)) := by
  subst hbodyLen htagLen
  have hinit := initCcmContext_some header hnonce htag.2 hbody hsigned
  obtain ⟨htagBytes, hplain⟩ := ctr128_tag_body hnonce hbody (aes key) htag
  rw [decryptCcm_eq .littleEndian htag.2 hinit rfl (by omega), htagBytes, hplain]
  have hvalue : authValue (aes key) (lengthField nonce) tag.length (fullNonce nonce) header
      (cryptBody (aes key) (lengthField nonce) (fullNonce nonce) body) =
        (mac (aes key) (layout (authFlags (lengthField nonce) tag.length header)
          (lengthField nonce) (fullNonce nonce) body.length) (authBlocks header
            (cryptBody (aes key) (lengthField nonce) (fullNonce nonce) body))).toList.take
              tag.length := by
    rw [authValue, cryptBody_length]
  rw [← hvalue, decrypt]
  congr 1
  split_ifs <;> rfl

include hroom

theorem encryptCcm_eq (host : Host) :
    let tag := ctr128 host (aes key) (authValue (aes key) (lengthField nonce) room.length
      (fullNonce nonce) header body) (counterBlock (lengthField nonce) (fullNonce nonce) 0)
    encryptCcm host aes key true (header ++ body ++ room) (header.length + body.length)
        header.length room.length nonce =
      some (.ok, header ++ (ctr128 host (aes key) body tag.2).1 ++ tag.1) := by
  have hinit := initCcmContext_some header hnonce hroom.2 hbody hsigned
  obtain ⟨htag, -, hivec⟩ := computeCcmAuthTag_chained (aes key) (rfl : CcmContext.ivec0
    ⟨block [], block [], counterBlock (lengthField nonce) (fullNonce nonce) 0,
      layout (authFlags (lengthField nonce) room.length header) (lengthField nonce)
        (fullNonce nonce) body.length⟩ = _) header body room
  unfold encryptCcm
  simp only [hinit, bind_eq_bind,
    bind_some, Nat.add_sub_cancel_left, htag, hivec]
  have hlength := ctr128_length host (aes key) (authValue (aes key) (lengthField nonce) room.length
    (fullNonce nonce) header body) (counterBlock (lengthField nonce) (fullNonce nonce) 0)
  rw [authValue_length hroom.2, authValue] at hlength
  rw [← List.length_append, overwrite_tail _ _ _ hlength, List.length_append, cryptInPlace_eq]
  rfl

theorem encryptCcm_littleEndian :
    encryptCcm .littleEndian aes key true (header ++ body ++ room) (header.length + body.length)
        header.length room.length nonce =
      some (.ok, header ++ (standardCcm (aes key) room.length nonce header body).1 ++
        (standardCcm (aes key) room.length nonce header body).2) := by
  have hvalue : (authValue (aes key) (lengthField nonce) room.length (fullNonce nonce) header
      body).length = room.length := authValue_length hroom.2 header body
  obtain ⟨htagBytes, hcipher⟩ := ctr128_tag_body hnonce hbody (aes key) (hvalue.symm ▸ hroom)
  rw [encryptCcm_eq hnonce hroom hbody hsigned, standardCcm, encrypt, ← htagBytes, ← hcipher]

theorem ccmAgrees_littleEndian (hheader : header.length < 65280) :
    CcmAgrees .littleEndian aes key nonce header body room := by
  have hlength : (standardCcm (aes key) room.length nonce header body).1.length = body.length :=
    cryptBody_length body
  have htag : (standardCcm (aes key) room.length nonce header body).2.length = room.length := by
    have hvalue : (authValue (aes key) (lengthField nonce) room.length (fullNonce nonce) header
        body).length = room.length := authValue_length hroom.2 header body
    exact (cryptTag_length (hvalue.symm ▸ hroom.2)).trans hvalue
  rw [← hlength] at hbody hsigned
  refine ⟨encryptCcm_littleEndian hnonce hroom (hlength ▸ hbody) (hlength ▸ hsigned), ?_, ?_⟩
  · rw [decryptCcm_littleEndian hnonce hbody hsigned aes key hlength htag hroom hheader,
      standardCcm, decrypt_encrypt hroom.2]
    exact ⟨_, rfl⟩
  · intro tag htagLen hne
    rw [decryptCcm_littleEndian hnonce hbody hsigned aes key hlength htagLen hroom hheader,
      standardCcm, decrypt_of_ne (htagLen ▸ hroom.2) header body hne]
    rfl

end Mode

/-- A cipher whose output has four different bytes in each word. -/
def countingCipher (_ : Vector UInt8 16) (_ : Block) : Block := Vector.ofFn fun i => UInt8.ofNat i

/-- On a big-endian host the first byte of the tag is taken from the wrong end
of the first word of the stream. -/
theorem ctr128_bigEndian_ne (key : Vector UInt8 16) (counter : Block) (L : Nat)
    (nonce : List UInt8) (htag : 0 < tag.length) :
    (ctr128 .bigEndian (countingCipher key) tag counter).1 ≠
      cryptTag (countingCipher key) L nonce tag := by
  obtain ⟨a, rest, rfl⟩ := List.exists_cons_of_length_pos htag
  rw [ctr128]
  intro heq
  have hhead : a ^^^ 3 = a ^^^ 0 := (List.cons.inj heq).1
  exact absurd ((UInt8.xor_right_inj a).mp hhead) (by decide)

/-- The length of the body is kept in a signed word, and a negative one never
becomes zero. -/
theorem encryptCcm_none {Key : Type} {host : Host} {aes : Key → Block → Block} {key : Key}
    {nonce header : List UInt8} (hlong : 2 ^ 31 ≤ body.length) (hword : body.length < 2 ^ 32) :
    encryptCcm host aes key true (header ++ body ++ room) (header.length + body.length)
      header.length room.length nonce = none := by
  unfold encryptCcm
  rw [initCcmContext_none hlong hword]
  rfl

theorem encryptCcm_bigEndian_ne {key : Vector UInt8 16} {nonce header : List UInt8}
    (hnonce : nonce.length ≤ 13) (hroom : 0 < room.length ∧ room.length ≤ 16)
    (hbody : body.length < 2 ^ (8 * lengthField nonce)) (hsigned : body.length < 2 ^ 31) :
    encryptCcm .bigEndian countingCipher key true (header ++ body ++ room)
        (header.length + body.length) header.length room.length nonce ≠
      some (.ok, header ++ (standardCcm (countingCipher key) room.length nonce header body).1 ++
        (standardCcm (countingCipher key) room.length nonce header body).2) := by
  rw [encryptCcm_eq hnonce hroom hbody hsigned]
  intro heq
  obtain ⟨-, htags⟩ := List.append_inj (congrArg Prod.snd (Option.some.inj heq)) (by
    simp [standardCcm, encrypt, ctr128_length])
  exact ctr128_bigEndian_ne key _ _ _ (by rw [authValue_length hroom.2]; exact hroom.1) htags

/-- For a nonce of 1 to 13 bytes, a tag of 4 to 16 bytes, a short header and a
body whose length fits the length field, the thin client agrees with the mode
for every block cipher and key exactly when it is built for a little-endian
host and the length of the body is a positive signed word. -/
theorem ccmAgrees_iff (host : Host) (nonce header body room : List UInt8)
    (hnonce : 1 ≤ nonce.length ∧ nonce.length ≤ 13)
    (hroom : room.length ∈ [4, 6, 8, 10, 12, 14, 16]) (hheader : header.length < 65280)
    (hbody : body.length < 2 ^ (8 * lengthField nonce))
    (hword : header.length + body.length < 2 ^ 32) :
    (∀ (aes : Vector UInt8 16 → Block → Block) (key : Vector UInt8 16),
        CcmAgrees host aes key nonce header body room) ↔
      host = .littleEndian ∧ body.length < 2 ^ 31 := by
  have hsize : 0 < room.length ∧ room.length ≤ 16 := by
    simp only [List.mem_cons, List.not_mem_nil, or_false] at hroom
    omega
  constructor
  · intro hagrees
    have hencrypts := (hagrees countingCipher (Vector.replicate 16 0)).encrypts
    have hsigned : body.length < 2 ^ 31 := by
      by_contra hlong
      rw [encryptCcm_none (Nat.le_of_not_lt hlong) (by omega)] at hencrypts
      exact some_ne_none _ hencrypts.symm
    refine ⟨?_, hsigned⟩
    cases host with
    | littleEndian => rfl
    | bigEndian => exact absurd hencrypts (encryptCcm_bigEndian_ne hnonce.2 hsize hbody hsigned)
  · rintro ⟨rfl, hsigned⟩ aes key
    exact ccmAgrees_littleEndian hnonce.2 hsize hbody hsigned hheader

theorem ccmAgrees_threeBytes :
    CcmAgrees .littleEndian countingCipher (Vector.replicate 16 0) [1] [2] [3, 4, 5]
      [0, 0, 0, 0] :=
  (ccmAgrees_iff .littleEndian [1] [2] [3, 4, 5] [0, 0, 0, 0] (by decide) (by decide) (by decide)
    (by decide) (by decide)).mpr ⟨rfl, by decide⟩ countingCipher (Vector.replicate 16 0)

/-- A body of 2 ^ 31 bytes is within the length field of four bytes, but its
encryption does not end; and on a big-endian host the tag of a short message is
another one. -/
theorem ccm_disagrees :
    2 ^ 31 < 2 ^ (8 * lengthField [1]) ∧
      ¬ CcmAgrees .littleEndian countingCipher (Vector.replicate 16 0) [1] []
        (List.replicate (2 ^ 31) 0) [0, 0, 0, 0] ∧
      ¬ CcmAgrees .bigEndian countingCipher (Vector.replicate 16 0) [1] [2] [3, 4, 5]
        [0, 0, 0, 0] := by
  refine ⟨by decide, fun hagrees => ?_, fun hagrees => ?_⟩
  · have hencrypts := hagrees.encrypts
    rw [encryptCcm_none (by rw [List.length_replicate])
      (by rw [List.length_replicate]; decide)] at hencrypts
    exact some_ne_none _ hencrypts.symm
  · exact encryptCcm_bigEndian_ne (by decide) (by decide) (by decide) (by decide) hagrees.encrypts

end AllJoyn.ThinClient
