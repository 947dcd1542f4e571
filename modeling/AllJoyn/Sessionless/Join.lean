import Mathlib.Algebra.Order.Group.Nat
import Mathlib.Data.UInt

/-!
The times at which signals are fetched from a remote routing node
(`SessionlessObj.cc`). The time for a retry is chosen at random in an interval;
the intervals follow each other and grow, first by the same amount, then by
doubling, and then no more. Lengths are `uint32_t`, and a `Timespec` is its
number of milliseconds.
-/

namespace AllJoyn.Sessionless

open Nat UInt32

/-- `BackoffLimits`, with the flag that goes with them. -/
structure BackoffLimits where
  periodMs : UInt32
  linear : UInt32
  exponential : UInt32
  maxSecs : UInt32
  doInitialBackoff : Bool
  deriving DecidableEq, Repr

/-- `Timespec + ms`. The sum of the milliseconds is taken in 32 bits. -/
def addMs (time : Nat) (ms : UInt32) : Nat :=
  time / 1000 * 1000 + (ms + UInt32.ofNat (time % 1000)).toNat

/-- The variables of the loop of `GetNextJoinTime`. -/
structure RetryInterval where
  m : UInt32
  startTime : Nat
  delayMs : UInt32
  deriving DecidableEq, Repr

namespace BackoffLimits

variable (backoff : BackoffLimits)

/-- The loop of `GetNextJoinTime` up to `i`, from the first join time. -/
def interval (first : Nat) : Nat → RetryInterval
  | 0 => ⟨0, first, if backoff.doInitialBackoff then backoff.periodMs else 1⟩
  | i + 1 =>
    let ⟨m, startTime, delayMs⟩ := interval first i
    if i + 1 ≤ backoff.linear.toNat then
      ⟨m + 1, addMs startTime delayMs, (m + 1) * backoff.periodMs⟩
    else if m < backoff.exponential then
      ⟨m <<< 1, addMs startTime delayMs, (m <<< 1) * backoff.periodMs⟩
    else ⟨m, addMs startTime delayMs, delayMs⟩

/-- `GetNextJoinTime` from the number drawn: whether the time is within the
limit, and the time. `none` is a remainder by zero. -/
def getNextJoinTime (retries first : Nat) (rand : UInt32) : Option (Bool × Nat) :=
  let interval := backoff.interval first retries
  if interval.delayMs = 0 then none
  else
    let next := addMs interval.startTime (rand % interval.delayMs)
    some (next - first < (backoff.maxSecs * 1000).toNat, next)

/-- The numbers of retries for which the loop ends: at the largest `uint32_t`
its counter goes round for ever. -/
def Retries (retries : Nat) : Prop := retries < 2 ^ 32 - 1

/-- What is expected of the schedule: no remainder by zero, each interval up to
the start of the next one, a time in time inside of its interval, and such times
in the order of the retries. -/
structure Orderly : Prop where
  joins : ∀ i first rand, Retries i → backoff.getNextJoinTime i first rand ≠ none
  contiguous : ∀ i first, Retries i →
    (backoff.interval first (i + 1)).startTime =
      (backoff.interval first i).startTime + (backoff.interval first i).delayMs.toNat
  inside : ∀ i first rand next, Retries i →
    backoff.getNextJoinTime i first rand = some (true, next) →
    (backoff.interval first i).startTime ≤ next ∧
      next < (backoff.interval first (i + 1)).startTime
  ordered : ∀ i j first rand rand' next next', i < j → Retries j →
    backoff.getNextJoinTime i first rand = some (true, next) →
    backoff.getNextJoinTime j first rand' = some (true, next') → next < next'

/-- A length of an interval is positive and can be added to any time. -/
def Fits (length : Nat) : Prop := 0 < length % 2 ^ 32 ∧ length % 2 ^ 32 ≤ 2 ^ 32 - 1000

/-- The multiple that follows after doubling the linear limit `j` times is
reached: those before it are below the exponential limit. -/
def Doubles (j : Nat) : Prop :=
  ∀ i < j, backoff.linear.toNat * 2 ^ i % 2 ^ 32 < backoff.exponential.toNat

/-- The multiples of the period up to the linear limit, and from there on their
doubles up to the exponential limit, all fit. -/
structure Fit : Prop where
  initial : backoff.doInitialBackoff = true → Fits backoff.periodMs.toNat
  linear : ∀ m, 0 < m → m ≤ backoff.linear.toNat → Retries m → Fits (m * backoff.periodMs.toNat)
  exponential : ∀ j, 0 < j → Retries (backoff.linear.toNat + j) → backoff.Doubles j →
    Fits (backoff.linear.toNat * 2 ^ j * backoff.periodMs.toNat)

/-! ### The multiples of the period -/

theorem fits_mul (m : Nat) (period : UInt32) :
    Fits (UInt32.ofNat m * period).toNat ↔ Fits (m * period.toNat) := by
  have hmod : (UInt32.ofNat m * period).toNat = m * period.toNat % 2 ^ 32 := by
    rw [UInt32.toNat_mul, toNat_ofNat', mod_mul_mod]
  rw [Fits, Fits, hmod, mod_mod]

variable {backoff} {i j : Nat} (first : Nat)

theorem startTime_succ (i : Nat) : (backoff.interval first (i + 1)).startTime =
    addMs (backoff.interval first i).startTime (backoff.interval first i).delayMs := by
  rw [interval]
  dsimp only
  split_ifs <;> rfl

theorem interval_linear (hi : i ≤ backoff.linear.toNat) :
    (backoff.interval first i).m = UInt32.ofNat i ∧
      (0 < i → (backoff.interval first i).delayMs = UInt32.ofNat i * backoff.periodMs) := by
  induction i with
  | zero => exact ⟨rfl, fun hpositive => absurd hpositive (lt_irrefl 0)⟩
  | succ i ih =>
    have hsucc : UInt32.ofNat i + 1 = UInt32.ofNat (i + 1) := (ofNat_add i 1).symm
    simp only [interval, if_pos hi, (ih (by omega)).1, hsucc, implies_true, and_self]

theorem interval_exponential (hdoubles : backoff.Doubles j) :
    let k := UInt32.ofNat (backoff.linear.toNat * 2 ^ j)
    (backoff.interval first (backoff.linear.toNat + j)).m = k ∧ (0 < j →
      (backoff.interval first (backoff.linear.toNat + j)).delayMs = k * backoff.periodMs) := by
  induction j with
  | zero =>
    refine ⟨?_, fun hpositive => absurd hpositive (lt_irrefl 0)⟩
    rw [Nat.pow_zero, Nat.mul_one]
    exact (interval_linear first le_rfl).1
  | succ j ih =>
    have hm := (ih fun i hi => hdoubles i (by omega)).1
    have hless : UInt32.ofNat (backoff.linear.toNat * 2 ^ j) < backoff.exponential := by
      exact hdoubles j (by omega)
    have hdouble : UInt32.ofNat (backoff.linear.toNat * 2 ^ j) <<< 1 =
        UInt32.ofNat (backoff.linear.toNat * 2 ^ (j + 1)) := by
      rw [Nat.pow_succ, ← Nat.mul_assoc, ← UInt32.toNat_inj, UInt32.toNat_shiftLeft, shiftLeft_eq]
      exact mod_mul_mod _ _ _
    have hbehind : ¬backoff.linear.toNat + j + 1 ≤ backoff.linear.toNat := by omega
    rw [← Nat.add_assoc]
    simp only [interval, if_neg hbehind, hm, if_pos hless, hdouble, implies_true, and_self]

/-- A multiple below the exponential limit was reached by doubling alone. -/
theorem doubles_of_less
    (hless : (backoff.interval first (backoff.linear.toNat + j)).m < backoff.exponential) :
    backoff.Doubles (j + 1) := by
  induction j with
  | zero =>
    rw [(interval_exponential first (fun i hi => absurd hi (Nat.not_lt_zero i))).1] at hless
    intro i hi
    rwa [lt_one_iff.mp hi]
  | succ j ih =>
    by_cases hbefore : (backoff.interval first (backoff.linear.toNat + j)).m < backoff.exponential
    · have hdoubles := ih hbefore
      rw [(interval_exponential first hdoubles).1] at hless
      intro i hi
      rcases Nat.lt_succ_iff_lt_or_eq.mp hi with hlower | rfl
      · exact hdoubles i hlower
      · exact hless
    · -- the multiple no longer changes
      rw [← Nat.add_assoc, interval] at hless
      dsimp only at hless
      rw [if_neg (by omega), if_neg hbefore] at hless
      exact absurd hless hbefore

theorem Fit.delayMs (hfit : backoff.Fit) (hi : Retries i) :
    Fits (backoff.interval first i).delayMs.toNat := by
  induction i with
  | zero =>
    rw [interval]
    split_ifs with hinitial
    · exact hfit.initial hinitial
    · exact (⟨by decide, by decide⟩ : Fits 1)
  | succ i ih =>
    by_cases hlinear : i + 1 ≤ backoff.linear.toNat
    · rw [(interval_linear first hlinear).2 (succ_pos i), fits_mul]
      exact hfit.linear (i + 1) (succ_pos i) hlinear hi
    · obtain ⟨j, rfl⟩ := Nat.exists_eq_add_of_le (show backoff.linear.toNat ≤ i by omega)
      by_cases hless : (backoff.interval first (backoff.linear.toNat + j)).m < backoff.exponential
      · have hdoubles := doubles_of_less first hless
        rw [Nat.add_assoc, (interval_exponential first hdoubles).2 (succ_pos j), fits_mul]
        exact hfit.exponential (j + 1) (succ_pos j) hi hdoubles
      · have hsame := ih (lt_of_succ_lt hi)
        rw [interval]
        dsimp only
        rwa [if_neg hlinear, if_neg hless]

/-! ### The intervals -/

theorem addMs_eq {time : Nat} {ms : UInt32} (hfits : ms.toNat + time % 1000 < 2 ^ 32) :
    addMs time ms = time + ms.toNat := by
  unfold addMs
  rw [UInt32.toNat_add, toNat_ofNat']
  omega

theorem Fit.contiguous (hfit : backoff.Fit) (hi : Retries i) :
    (backoff.interval first (i + 1)).startTime =
      (backoff.interval first i).startTime + (backoff.interval first i).delayMs.toNat := by
  have hdelay := (hfit.delayMs first hi).2
  rw [mod_eq_of_lt (UInt32.toNat_lt _)] at hdelay
  rw [startTime_succ, addMs_eq (by omega)]

theorem Fit.startTime_mono (hfit : backoff.Fit) (hle : i ≤ j) (hj : Retries j) :
    (backoff.interval first i).startTime ≤ (backoff.interval first j).startTime := by
  induction j, hle using le_induction with
  | base => exact le_rfl
  | succ j _ ih =>
    have hbefore : Retries j := lt_of_succ_lt hj
    rw [hfit.contiguous first hbefore]
    exact le_trans (ih hbefore) (Nat.le_add_right _ _)

theorem Fit.inside (hfit : backoff.Fit) (hi : Retries i) {rand : UInt32} {inTime : Bool}
    {next : Nat} (hjoin : backoff.getNextJoinTime i first rand = some (inTime, next)) :
    (backoff.interval first i).startTime ≤ next ∧
      next < (backoff.interval first (i + 1)).startTime := by
  obtain ⟨hpositive, hdelay⟩ := hfit.delayMs first hi
  rw [hfit.contiguous first hi]
  rw [getNextJoinTime] at hjoin
  generalize backoff.interval first i = interval at *
  rw [mod_eq_of_lt (UInt32.toNat_lt _)] at hpositive hdelay
  have hrand : (rand % interval.delayMs).toNat < interval.delayMs.toNat := by
    exact mod_lt _ hpositive
  split_ifs at hjoin
  have hnext := congrArg Prod.snd (Option.some.inj hjoin)
  rw [addMs_eq (by omega)] at hnext
  omega

theorem Fit.orderly (hfit : backoff.Fit) : backoff.Orderly where
  joins i first rand hi := by
    have hpositive := (hfit.delayMs first hi).1
    rw [getNextJoinTime]
    split_ifs with hzero
    · rw [hzero] at hpositive
      exact absurd hpositive (by decide)
    · exact Option.some_ne_none _
  contiguous i first hi := hfit.contiguous first hi
  inside i first rand next hi hjoin := hfit.inside first hi hjoin
  ordered i j first rand rand' next next' hlt hj hjoin hjoin' :=
    lt_of_lt_of_le (hfit.inside first (Nat.lt_trans hlt hj) hjoin).2
      (le_trans (hfit.startTime_mono first hlt hj) (hfit.inside first hj hjoin').1)

/-! ### Lengths that do not fit -/

theorem delayMs_anytime (first first' i : Nat) :
    (backoff.interval first i).m = (backoff.interval first' i).m ∧
      (backoff.interval first i).delayMs = (backoff.interval first' i).delayMs := by
  induction i with
  | zero => exact ⟨rfl, rfl⟩
  | succ i ih =>
    simp only [interval, ih.1, ih.2]
    split_ifs <;> exact ⟨rfl, rfl⟩

theorem Orderly.startTime (horderly : backoff.Orderly) (hi : Retries i) :
    ∃ offset, ∀ first, (backoff.interval first i).startTime = first + offset := by
  induction i with
  | zero => exact ⟨0, fun _ => rfl⟩
  | succ i ih =>
    have hbefore : Retries i := lt_of_succ_lt hi
    obtain ⟨offset, hoffset⟩ := ih hbefore
    refine ⟨offset + (backoff.interval 0 i).delayMs.toNat, fun first => ?_⟩
    rw [horderly.contiguous i first hbefore, hoffset, (delayMs_anytime first 0 i).2, Nat.add_assoc]

theorem Orderly.delayMs (horderly : backoff.Orderly) (hi : Retries i) :
    Fits (backoff.interval first i).delayMs.toNat := by
  have hjoins := horderly.joins i first 0 hi
  obtain ⟨offset, hoffset⟩ := horderly.startTime hi
  -- a time at which the interval starts with the last millisecond of a second
  have hcontiguous := horderly.contiguous i (999 * (offset + 1)) hi
  have hlt := (backoff.interval first i).delayMs.toNat_lt
  rw [startTime_succ, hoffset, addMs, (delayMs_anytime _ first i).2, UInt32.toNat_add] at hcontiguous
  rw [Fits, mod_eq_of_lt hlt]
  refine ⟨Nat.pos_of_ne_zero ?_, by omega⟩
  intro hzero
  exact hjoins (if_pos (UInt32.toNat_inj.mp hzero))

/-- The schedule is in order exactly when every length that is reached is
positive and small enough to be added to a time. -/
theorem orderly_iff_fit (backoff : BackoffLimits) : backoff.Orderly ↔ backoff.Fit := by
  constructor
  · intro horderly
    refine ⟨?_, ?_, ?_⟩
    · intro hinitial
      have hdelay := horderly.delayMs 0 (i := 0) (zero_lt_succ _)
      rwa [interval, if_pos hinitial] at hdelay
    · intro m hpositive hlinear hretries
      have hdelay := horderly.delayMs 0 hretries
      rwa [(interval_linear 0 hlinear).2 hpositive, fits_mul] at hdelay
    · intro j hpositive hretries hdoubles
      have hdelay := horderly.delayMs 0 hretries
      rwa [(interval_exponential 0 hdoubles).2 hpositive, fits_mul] at hdelay
  · exact Fit.orderly

/-- Without a linear part the multiple is 0 from the first retry on. -/
theorem getNextJoinTime_noLinear :
    getNextJoinTime ⟨1500, 0, 32, 900, true⟩ 1 0 0 = none := by
  decide

end BackoffLimits

end AllJoyn.Sessionless
