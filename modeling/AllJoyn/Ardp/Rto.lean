import AllJoyn.Lib.Run
import Mathlib.Algebra.Order.Monoid.Unbundled.Pow
import Mathlib.Data.UInt

/-!
The retransmission timeout of an ARDP connection (`ArdpProtocol.cc`). It is
made of estimates of the round-trip time and of its variance, which follow the
measurements, and of a backoff, which follows the retransmissions of the
segment that was retransmitted most often. All of it is `uint32_t` arithmetic.
-/

namespace AllJoyn.Ardp

open Lib Nat UInt32

def udpMtu : UInt32 := 1472

/-- The fields of a connection that the timeout depends on: the estimates, the
backoff, `DACKT`, `SEGMAX` and `SEGBMAX` of its `snd`, and the retry counters of
the timers of its send buffers. The last two fields are of the configuration. -/
structure Timing where
  rttInit : Bool
  rttMean : UInt32
  rttMeanVar : UInt32
  backoff : UInt32
  DACKT : UInt32
  SEGMAX : UInt16
  SEGBMAX : UInt16
  retry : Nat → UInt32
  totalDataRetryTimeout : UInt32
  minDataRetries : UInt32

/-- `ABS` of an `int32_t`. -/
def abs32 (err : UInt32) : UInt32 := if err < 0x80000000 then err else -err

/-- The estimates from which `AdjustRTT` goes on: the first measurement itself
is taken for the mean. -/
def Timing.started (t : Timing) (rtt : UInt32) : Timing :=
  if t.rttInit then t
  else { t with rttInit := true, rttMean := rtt, rttMeanVar := rtt >>> 1 }

def smoothedMean (mean rtt : UInt32) : UInt32 := (7 * mean + rtt) >>> 3

/-- The variance behind a measurement, with the mean before and after it. -/
def smoothedVar (var mean mean' rtt : UInt32) : UInt32 :=
  if rtt + var ≥ mean' then (var * 3 + abs32 (rtt - mean)) >>> 2
  else (var * 31 + abs32 (rtt - mean)) >>> 5

def adjustRTT (t : Timing) (rtt : UInt32) : Timing :=
  let t := t.started rtt
  let mean := smoothedMean t.rttMean rtt
  { t with rttMean := mean, rttMeanVar := smoothedVar t.rttMeanVar t.rttMean mean rtt, backoff := 0 }

def getDataTimeout (t : Timing) : UInt32 :=
  if t.rttInit then
    max t.totalDataRetryTimeout
      (t.SEGMAX.toUInt32 * t.SEGBMAX.toUInt32 * (t.rttMean >>> 1) / udpMtu)
  else t.totalDataRetryTimeout

/-- What happens to a connection: a segment is put into a send buffer, the
acknowledgement of one that was not retransmitted gives a round-trip time, the
timer of a buffer fires after some time since the segment was first sent, and
the probe timer fires with nothing in flight. -/
inductive TimingEvent where
  | sent (slot : Nat)
  | measured (rtt : UInt32)
  | fired (slot : Nat) (elapsed : UInt32)
  | probed
  deriving DecidableEq, Repr

/-- `SendData`, `AdjustRTT`, `RetransmitTimerHandler` and `ProbeTimerHandler`.
A segment is retransmitted until its time is up, and then the connection is
given up. -/
def timingStep (t : Timing) : TimingEvent → Timing
  | .sent slot => { t with retry := Function.update t.retry slot 1 }
  | .measured rtt => adjustRTT t rtt
  | .fired slot elapsed =>
    if elapsed ≥ getDataTimeout t ∧ t.retry slot > t.minDataRetries then
      { t with retry := Function.update t.retry slot 0 }
    else
      { t with
        backoff := max t.backoff (t.retry slot)
        retry := Function.update t.retry slot (t.retry slot + 1) }
  | .probed => { t with rttInit := false }

/-- The event measures at most `r` and retransmits a segment at most `b` times. -/
def Gentle (r b : Nat) (t : Timing) : TimingEvent → Prop
  | .measured rtt => rtt.toNat ≤ r
  | .fired slot _ => (t.retry slot).toNat ≤ b
  | _ => True

instance (r b : Nat) (t : Timing) (event : TimingEvent) : Decidable (Gentle r b t event) := by
  cases event <;> unfold Gentle <;> infer_instance

/-! ### The estimates -/

theorem toNat_shiftRight (n : UInt32) {count : UInt32} (hcount : count.toNat < 32) :
    (n >>> count).toNat = n.toNat / 2 ^ count.toNat := by
  rw [UInt32.toNat_shiftRight, mod_eq_of_lt hcount, shiftRight_eq_div_pow]

/-- The estimates are at most `r` and the backoff is at most `b`. -/
structure Timing.Within (r b : Nat) (t : Timing) : Prop where
  rttMean : t.rttMean.toNat ≤ r
  rttMeanVar : t.rttMeanVar.toNat ≤ r
  backoff : t.backoff.toNat ≤ b

theorem Timing.Within.started {r b : Nat} {t : Timing} {rtt : UInt32} (hwithin : t.Within r b)
    (hrtt : rtt.toNat ≤ r) : (t.started rtt).Within r b := by
  unfold Timing.started
  split_ifs
  · exact hwithin
  · refine ⟨hrtt, ?_, hwithin.backoff⟩
    exact le_trans (Nat.div_le_self _ _) hrtt

section

variable {r b : Nat} (hsmall : r < 2 ^ 27)

include hsmall

theorem smoothedMean_le {mean rtt : UInt32} (hmean : mean.toNat ≤ r) (hrtt : rtt.toNat ≤ r) :
    (smoothedMean mean rtt).toNat ≤ r := by
  have hsum : (7 * mean + rtt).toNat = 7 * mean.toNat + rtt.toNat := by
    rw [UInt32.toNat_add, UInt32.toNat_mul, show (7 : UInt32).toNat = 7 from rfl]
    omega
  unfold smoothedMean
  rw [toNat_shiftRight _ (by decide), show (3 : UInt32).toNat = 3 from rfl]
  omega

theorem abs32_le {mean rtt : UInt32} (hmean : mean.toNat ≤ r) (hrtt : rtt.toNat ≤ r) :
    (abs32 (rtt - mean)).toNat ≤ r := by
  have hhalf : (0x80000000 : UInt32).toNat = 2 ^ 31 := rfl
  unfold abs32
  split_ifs with hnegative
  · rw [lt_iff_toNat_lt, UInt32.toNat_sub] at hnegative
    rw [UInt32.toNat_sub]
    omega
  · rw [lt_iff_toNat_lt, UInt32.toNat_sub] at hnegative
    rw [toNat_neg, UInt32.toNat_sub, UInt32.size]
    omega

theorem smoothedVar_le {var mean mean' rtt : UInt32} (hvar : var.toNat ≤ r)
    (hmean : mean.toNat ≤ r) (hrtt : rtt.toNat ≤ r) :
    (smoothedVar var mean mean' rtt).toNat ≤ r := by
  have habs := abs32_le hsmall hmean hrtt
  have hsum : ∀ factor : UInt32, factor.toNat ≤ 31 →
      (var * factor + abs32 (rtt - mean)).toNat ≤ r * (factor.toNat + 1) := by
    intro factor hfactor
    have hproduct := Nat.mul_le_mul_right factor.toNat hvar
    exact le_trans (mod_le _ _) (Nat.add_le_add (le_trans (mod_le _ _) hproduct) habs)
  unfold smoothedVar
  split_ifs
  · have hthree := hsum 3 (by decide)
    rw [toNat_shiftRight _ (by decide)]
    exact Nat.div_le_of_le_mul (by simpa [mul_comm] using hthree)
  · have hmany := hsum 31 (by decide)
    rw [toNat_shiftRight _ (by decide)]
    exact Nat.div_le_of_le_mul (by simpa [mul_comm] using hmany)

variable {t : Timing}

theorem Timing.Within.step {event : TimingEvent} (hwithin : t.Within r b)
    (hgentle : Gentle r b t event) : (timingStep t event).Within r b := by
  cases event with
  | sent slot => exact ⟨hwithin.rttMean, hwithin.rttMeanVar, hwithin.backoff⟩
  | measured rtt =>
    have hstarted := hwithin.started hgentle
    exact ⟨smoothedMean_le hsmall hstarted.rttMean hgentle,
      smoothedVar_le hsmall hstarted.rttMeanVar hstarted.rttMean hgentle, Nat.zero_le b⟩
  | fired slot elapsed =>
    simp only [timingStep]
    split_ifs
    · exact ⟨hwithin.rttMean, hwithin.rttMeanVar, hwithin.backoff⟩
    · refine ⟨hwithin.rttMean, hwithin.rttMeanVar, ?_⟩
      rw [UInt32.toNat_max]
      exact max_le hwithin.backoff hgentle
  | probed => exact ⟨hwithin.rttMean, hwithin.rttMeanVar, hwithin.backoff⟩

end

/-! ### The timeout -/

section

variable {r b : Nat} (hbits : max 100 (5 * r) * 2 ^ b < 2 ^ 31)

include hbits

end

end AllJoyn.Ardp
