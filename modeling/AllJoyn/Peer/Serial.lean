import Mathlib
import AllJoyn.Lib.Run

/-!
Replay protection on incoming serial numbers. The router library keeps it in
`_PeerState::IsValidSerial`, the thin client in `AJ_CheckIncomingSerial`; both
store the highest serial seen and a 64-bit window of the serials just behind
it, and both run the same arithmetic on 32-bit serials.

The model is compared with the history of accepted serials, newest first. Every
accepted serial lies at a fixed lag behind the highest one, and the window is
the set of lags below 64.
-/

namespace AllJoyn.Peer

open BitVec

variable {older history : List (BitVec 32)} {serial highest : BitVec 32} {window : BitVec 64}

/-- `wrapped_offset`: how far `a` is ahead of `b` on the 32-bit circle. -/
def wrappedOffset (a b : BitVec 32) : BitVec 32 :=
  if b ≤ a then a - b else (0xFFFFFFFF#32 - b) + a + 1#32

/-- The replay check of both sources on a highest serial and its window. The
Boolean is the verdict; the rest is the state left behind. -/
def checkSerial (highest : BitVec 32) (window : BitVec 64) (serial : BitVec 32) :
    Bool × BitVec 32 × BitVec 64 :=
  -- 0 is never a valid serial number
  if serial = 0#32 then (false, highest, window)
  else if highest = 0#32 then (true, serial, 0#64 ||| 1#64)
  else
    let offset := wrappedOffset serial highest
    if offset = 0#32 then (false, highest, window)
    else if 0xFFFFFFC0#32 < offset then
      -- recent past: check the mask but do not move the window
      let mask := 1#64 <<< ((0xFFFFFFFF#32 - offset) + 1#32).toNat
      if mask &&& window ≠ 0#64 then (false, highest, window)
      else (true, highest, window ||| mask)
    else if 0x80000000#32 ≤ offset then (false, highest, window)
    else
      let moved := if offset < 64#32 then window <<< offset.toNat else 0#64
      (true, serial, moved ||| 1#64)

/-- The replay fields of `_PeerState`. -/
structure PeerState where
  prevSerial : BitVec 32
  flagWindow : BitVec 64
  deriving DecidableEq, Repr

/-- A peer state as its constructor leaves it. -/
def PeerState.fresh : PeerState := ⟨0, 0⟩

/-- `_PeerState::IsValidSerial`; its two other parameters are unused in the
source. -/
def PeerState.isValidSerial (s : PeerState) (serial : BitVec 32) : Bool × PeerState :=
  let (valid, prevSerial, flagWindow) := checkSerial s.prevSerial s.flagWindow serial
  (valid, ⟨prevSerial, flagWindow⟩)

/-- The thin client's `AJ_SerialNum`. -/
structure SerialNum where
  serial : BitVec 32
  offset : BitVec 64
  deriving DecidableEq, Repr

def SerialNum.fresh : SerialNum := ⟨0, 0⟩

/-- The two results of `AJ_CheckIncomingSerial`. -/
inductive AjStatus where
  | ok
  | errInvalid
  deriving DecidableEq, Repr

def SerialNum.checkIncomingSerial (prev : SerialNum) (curr : BitVec 32) :
    AjStatus × SerialNum :=
  let (valid, serial, offset) := checkSerial prev.serial prev.offset curr
  (if valid then .ok else .errInvalid, ⟨serial, offset⟩)

theorem wrappedOffset_eq_sub (a b : BitVec 32) : wrappedOffset a b = a - b := by
  unfold wrappedOffset
  split
  · rfl
  · bv_omega

/-- The signed reading of an offset: strictly ahead means less than half the
circle. -/
def Ahead (serial highest : BitVec 32) : Prop :=
  0 < (serial - highest).toNat ∧ (serial - highest).toNat < 2 ^ 31

instance (serial highest : BitVec 32) : Decidable (Ahead serial highest) :=
  inferInstanceAs (Decidable (_ ∧ _))

/-- The highest serial of a history of accepted serials, newest first. -/
def highestOf : List (BitVec 32) → BitVec 32
  | [] => 0#32
  | [serial] => serial
  | serial :: older => if Ahead serial (highestOf older) then serial else highestOf older

/-- How far the highest serial has advanced in total over a history. -/
def advanceOf : List (BitVec 32) → Nat
  | [] => 0
  | [_] => 0
  | serial :: older =>
    if Ahead serial (highestOf older) then
      advanceOf older + (serial - highestOf older).toNat
    else advanceOf older

/-- `serial` was accepted at a moment since which the highest serial has
advanced by less than `2 ^ 32 - 64`. -/
def RecentlyAccepted (serial : BitVec 32) (history : List (BitVec 32)) : Prop :=
  ∃ newer older, history = newer ++ serial :: older ∧
    advanceOf history < advanceOf (serial :: older) + (2 ^ 32 - 64)

/-- Every serial after the oldest was ahead of the highest one before it or at
most 63 behind. Histories of accepted serials have this shape. -/
def Windowed : List (BitVec 32) → Prop
  | [] => True
  | [_] => True
  | serial :: older =>
    (Ahead serial (highestOf older) ∨ (highestOf older - serial).toNat ≤ 63) ∧ Windowed older

/-- `serial` occurs in the history and now lies `lag` behind the highest
serial: the distance it had on arrival plus what the highest has moved since. -/
def Lag (history : List (BitVec 32)) (serial : BitVec 32) (lag : Nat) : Prop :=
  ∃ newer older, history = newer ++ serial :: older ∧
    lag + advanceOf (serial :: older) =
      advanceOf history + (highestOf (serial :: older) - serial).toNat

theorem highestOf_cons (serial : BitVec 32) (hne : older ≠ []) :
    highestOf (serial :: older) =
      if Ahead serial (highestOf older) then serial else highestOf older := by
  rw [highestOf]
  exact hne

theorem advanceOf_cons (serial : BitVec 32) (hne : older ≠ []) :
    advanceOf (serial :: older) =
      if Ahead serial (highestOf older) then
        advanceOf older + (serial - highestOf older).toNat
      else advanceOf older := by
  rw [advanceOf]
  exact hne

theorem advanceOf_le_cons (serial : BitVec 32) (older : List (BitVec 32)) :
    advanceOf older ≤ advanceOf (serial :: older) := by
  by_cases hne : older = []
  · simp [hne, advanceOf]
  · rw [advanceOf_cons serial hne]
    split <;> omega

theorem advanceOf_le_append (newer older : List (BitVec 32)) :
    advanceOf older ≤ advanceOf (newer ++ older) := by
  induction newer with
  | nil => simp
  | cons serial rest ih => exact ih.trans (advanceOf_le_cons serial (rest ++ older))

theorem highestOf_cons_sub (serial : BitVec 32) (older : List (BitVec 32)) (hne : older ≠ []) :
    highestOf (serial :: older) - highestOf older =
      BitVec.ofNat 32 (advanceOf (serial :: older) - advanceOf older) := by
  rw [highestOf_cons serial hne, advanceOf_cons serial hne]
  split
  · rw [Nat.add_sub_cancel_left, BitVec.ofNat_toNat, setWidth_eq]
  · simp

theorem lag_cons (serial first : BitVec 32) (older : List (BitVec 32)) (lag : Nat) :
    Lag (first :: older) serial lag ↔
      (serial = first ∧ lag = (highestOf (first :: older) - first).toNat) ∨
        ∃ before, Lag older serial before ∧
          lag = before + (advanceOf (first :: older) - advanceOf older) := by
  have hmono := advanceOf_le_cons first older
  constructor
  · rintro ⟨newer, rest, hsplit, hlag⟩
    cases newer with
    | nil =>
      obtain ⟨rfl, rfl⟩ := hsplit
      exact Or.inl ⟨rfl, by omega⟩
    | cons head tail =>
      simp only [List.cons_append] at hsplit
      obtain ⟨rfl, rfl⟩ := hsplit
      have hle := advanceOf_le_append tail (serial :: rest)
      refine Or.inr ⟨advanceOf (tail ++ serial :: rest) - advanceOf (serial :: rest) +
        (highestOf (serial :: rest) - serial).toNat, ⟨tail, rest, rfl, by omega⟩, by omega⟩
  · rintro (⟨rfl, rfl⟩ | ⟨before, ⟨newer, rest, rfl, hlag⟩, rfl⟩)
    · exact ⟨[], older, rfl, by omega⟩
    · exact ⟨first :: newer, rest, rfl, by omega⟩

theorem lag_distance {lag : Nat} (hlag : Lag history serial lag) :
    highestOf history - serial = BitVec.ofNat 32 lag := by
  induction history generalizing lag with
  | nil =>
    obtain ⟨newer, older, hsplit, -⟩ := hlag
    simp at hsplit
  | cons first older ih =>
    rcases (lag_cons serial first older lag).mp hlag with ⟨rfl, rfl⟩ | ⟨before, hbefore, rfl⟩
    · rw [BitVec.ofNat_toNat, setWidth_eq]
    · have hne : older ≠ [] := by
        rintro rfl
        obtain ⟨newer, rest, hsplit, -⟩ := hbefore
        simp at hsplit
      have hmove := highestOf_cons_sub first older hne
      have hprev := ih hbefore
      calc
        highestOf (first :: older) - serial =
            (highestOf older - serial) + (highestOf (first :: older) - highestOf older) := by
              bv_omega
        _ = BitVec.ofNat 32 (before + (advanceOf (first :: older) - advanceOf older)) := by
              rw [hprev, hmove, ofNat_add]

theorem lag_highest (hne : history ≠ []) : Lag history (highestOf history) 0 := by
  induction history with
  | nil => exact absurd rfl hne
  | cons first older ih =>
    by_cases hahead : Ahead first (highestOf older) ∨ older = []
    · have hfirst : highestOf (first :: older) = first := by
        by_cases hne : older = []
        · rw [hne, highestOf]
        · rw [highestOf_cons first hne, if_pos (hahead.resolve_right hne)]
      exact (lag_cons _ _ _ _).mpr (Or.inl ⟨hfirst, by simp [hfirst]⟩)
    · push Not at hahead
      have hsame : highestOf (first :: older) = highestOf older := by
        rw [highestOf_cons first hahead.2, if_neg hahead.1]
      have hstill : advanceOf (first :: older) = advanceOf older := by
        rw [advanceOf_cons first hahead.2, if_neg hahead.1]
      rw [hsame]
      exact (lag_cons _ _ _ _).mpr (Or.inr ⟨0, ih hahead.2, by omega⟩)

theorem windowed_arrival {newer : List (BitVec 32)}
    (hwindowed : Windowed (newer ++ serial :: older)) :
    (highestOf (serial :: older) - serial).toNat ≤ 63 := by
  induction newer with
  | nil =>
    by_cases hne : older = []
    · simp [hne, highestOf]
    · rw [highestOf_cons serial hne]
      split
      · simp
      · rename_i hbehind
        rw [List.nil_append, Windowed] at hwindowed
        · exact hwindowed.1.resolve_left hbehind
        · exact hne
  | cons first rest ih =>
    rw [List.cons_append, Windowed] at hwindowed
    · exact ih hwindowed.2
    · simp

/-- Within 63 of the highest serial, recent acceptance is exactly an entry of
the history at that lag. -/
theorem recentlyAccepted_iff_lag (hwindowed : Windowed history)
    (hclose : (highestOf history - serial).toNat ≤ 63) :
    RecentlyAccepted serial history ↔ Lag history serial (highestOf history - serial).toNat := by
  constructor
  · rintro ⟨newer, older, rfl, hrecent⟩
    have harrival := windowed_arrival hwindowed
    have hle := advanceOf_le_append newer (serial :: older)
    have hlag : Lag (newer ++ serial :: older) serial
        (advanceOf (newer ++ serial :: older) - advanceOf (serial :: older) +
          (highestOf (serial :: older) - serial).toNat) :=
      ⟨newer, older, rfl, by omega⟩
    have hdistance := congrArg BitVec.toNat (lag_distance hlag)
    rw [toNat_ofNat, Nat.mod_eq_of_lt (by omega)] at hdistance
    rwa [hdistance]
  · rintro ⟨newer, older, rfl, hlag⟩
    exact ⟨newer, older, rfl, by omega⟩

/-- The stored pair describes the history: nothing was accepted and the highest
serial is still zero, or it is the highest of the history and bit `d` of the
window says whether some accepted serial lies at lag `d`. -/
structure Describes (highest : BitVec 32) (window : BitVec 64)
    (history : List (BitVec 32)) : Prop where
  highest_eq : highest = highestOf history
  nonzero : ∀ serial ∈ history, serial ≠ 0#32
  windowed : Windowed history
  bits : history ≠ [] → ∀ d < 64, window.getLsbD d = true ↔ ∃ serial, Lag history serial d

theorem highestOf_mem (hne : history ≠ []) : highestOf history ∈ history := by
  obtain ⟨newer, older, hsplit, -⟩ := lag_highest hne
  have hmem : highestOf history ∈ newer ++ highestOf history :: older := by simp
  rwa [← hsplit] at hmem

theorem Describes.highest_eq_zero_iff (h : Describes highest window history) :
    highest = 0#32 ↔ history = [] := by
  constructor
  · intro hzero
    by_contra hne
    exact h.nonzero _ (highestOf_mem hne) (h.highest_eq.symm.trans hzero)
  · rintro rfl
    exact h.highest_eq

theorem Describes.bit_iff (h : Describes highest window history) (hne : history ≠ [])
    (hclose : (highest - serial).toNat ≤ 63) :
    window.getLsbD (highest - serial).toNat = true ↔ RecentlyAccepted serial history := by
  have heq := h.highest_eq
  subst heq
  rw [recentlyAccepted_iff_lag h.windowed hclose, h.bits hne _ (by omega)]
  constructor
  · rintro ⟨other, hlag⟩
    have hdistance := lag_distance hlag
    have hsame : other = serial := by bv_omega
    rwa [hsame] at hlag
  · intro hlag
    exact ⟨serial, hlag⟩

private theorem mask_and_ne_zero_iff (window : BitVec 64) {d : Nat} (hd : d < 64) :
    (1#64 <<< d) &&& window ≠ 0#64 ↔ window.getLsbD d = true := by
  rw [← twoPow_eq, twoPow_and]
  by_cases hbit : window.getLsbD d = true
  · rw [if_pos hbit]
    refine ⟨fun _ => hbit, fun _ hzero => ?_⟩
    have htest := congrArg (fun x => BitVec.getLsbD x d) hzero
    simp [hd] at htest
  · simp [hbit]

/-- The check in terms of distances on the circle instead of raw offsets. -/
theorem checkSerial_eq (highest : BitVec 32) (window : BitVec 64) (serial : BitVec 32) :
    checkSerial highest window serial =
      if serial = 0#32 then (false, highest, window)
      else if highest = 0#32 then (true, serial, 1#64)
      else if Ahead serial highest then
        (true, serial, (if (serial - highest).toNat < 64 then
          window <<< (serial - highest).toNat else 0#64) ||| 1#64)
      else if 0 < (highest - serial).toNat ∧ (highest - serial).toNat ≤ 63 ∧
          window.getLsbD (highest - serial).toNat = false then
        (true, highest, window ||| 1#64 <<< (highest - serial).toNat)
      else (false, highest, window) := by
  unfold checkSerial
  by_cases hserial : serial = 0#32
  · simp [hserial]
  by_cases hhighest : highest = 0#32
  · simp [hhighest]
  simp only [hserial, hhighest, if_false, wrappedOffset_eq_sub]
  by_cases hequal : serial - highest = 0#32
  · have hback : highest - serial = 0#32 := by bv_omega
    simp [hequal, hback, Ahead]
  rw [if_neg hequal]
  by_cases hpast : 0xFFFFFFC0#32 < serial - highest
  · have hdistance : (0xFFFFFFFF#32 - (serial - highest)) + 1#32 = highest - serial := by
      bv_omega
    have hclose : 0 < (highest - serial).toNat ∧ (highest - serial).toNat ≤ 63 := by
      constructor <;> bv_omega
    have hbehind : ¬ Ahead serial highest := by
      rintro ⟨-, hhalf⟩
      bv_omega
    rw [if_pos hpast, if_neg hbehind, hdistance]
    by_cases hbit : window.getLsbD (highest - serial).toNat = true
    · rw [if_pos ((mask_and_ne_zero_iff window (by omega)).mpr hbit)]
      rw [hbit]
      simp
    · rw [if_neg (fun h => hbit ((mask_and_ne_zero_iff window (by omega)).mp h)), if_pos]
      exact ⟨hclose.1, hclose.2, by simpa using hbit⟩
  · have hfar : ¬ (0 < (highest - serial).toNat ∧ (highest - serial).toNat ≤ 63 ∧
        window.getLsbD (highest - serial).toNat = false) := by
      rintro ⟨hpos, hle, -⟩
      bv_omega
    rw [if_neg hpast, if_neg hfar]
    by_cases hhalf : 0x80000000#32 ≤ serial - highest
    · have hbehind : ¬ Ahead serial highest := by
        rintro ⟨-, hlt⟩
        bv_omega
      rw [if_pos hhalf, if_neg hbehind]
    · have hahead : Ahead serial highest := by
        constructor <;> bv_omega
      have hlt : (serial - highest < 64#32) = ((serial - highest).toNat < 64) := by
        rfl
      simp only [if_neg hhalf, if_pos hahead, hlt]

/-- One call decides by the history alone. -/
theorem Describes.accepts_iff (h : Describes highest window history) (serial : BitVec 32) :
    (checkSerial highest window serial).1 = true ↔
      serial ≠ 0#32 ∧ (history = [] ∨ Ahead serial (highestOf history) ∨
        ((highestOf history - serial).toNat ≤ 63 ∧ ¬ RecentlyAccepted serial history)) := by
  rw [checkSerial_eq]
  by_cases hserial : serial = 0#32
  · simp [hserial]
  by_cases hne : history = []
  · simp [hserial, hne, h.highest_eq_zero_iff.mpr hne]
  have hhighest : highest ≠ 0#32 := fun hzero => hne (h.highest_eq_zero_iff.mp hzero)
  rw [← h.highest_eq]
  by_cases hahead : Ahead serial highest
  · simp [hserial, hhighest, hahead]
  simp only [hserial, hhighest, hahead, hne, ne_eq]
  by_cases hclose : (highest - serial).toNat ≤ 63
  · have hbit := h.bit_iff hne hclose
    by_cases hequal : (highest - serial).toNat = 0
    · -- the highest serial itself is never accepted again
      have hself : serial = highestOf history := by
        rw [← h.highest_eq]
        bv_omega
      have hrecent : RecentlyAccepted serial history := by
        rw [recentlyAccepted_iff_lag h.windowed (by simp [hself]), hself]
        simpa using lag_highest hne
      simp [hequal, hrecent]
    · rw [← hbit]
      generalize (highest - serial).toNat = distance at hclose hequal ⊢
      cases hbit : window.getLsbD distance <;> simp [hclose, Nat.pos_of_ne_zero hequal]
  · generalize (highest - serial).toNat = distance at hclose ⊢
    simp [hclose]

private theorem describes_first (serial : BitVec 32) (hserial : serial ≠ 0#32) :
    Describes serial 1#64 [serial] := by
  refine ⟨rfl, by simp [hserial], by simp [Windowed], fun _ d hd => ?_⟩
  have hlag : (∃ other, Lag [serial] other d) ↔ d = 0 := by
    constructor
    · rintro ⟨other, hlag⟩
      rcases (lag_cons _ _ _ _).mp hlag with ⟨-, hzero⟩ | ⟨before, ⟨newer, older, hsplit, -⟩, -⟩
      · simpa [highestOf] using hzero
      · simp at hsplit
    · rintro rfl
      exact ⟨serial, lag_highest (by simp)⟩
  rw [hlag]
  simp

section Step

variable (h : Describes highest window history)

include h

/-- Moving the window ahead by the offset moves every lag by the same amount. -/
private theorem Describes.ahead (hne : history ≠ []) (hserial : serial ≠ 0#32)
    (hahead : Ahead serial highest) :
    Describes serial ((if (serial - highest).toNat < 64 then
      window <<< (serial - highest).toNat else 0#64) ||| 1#64) (serial :: history) := by
  have heq := h.highest_eq
  subst heq
  have hhighest : highestOf (serial :: history) = serial := by
    rw [highestOf_cons serial hne, if_pos hahead]
  have hadvance : advanceOf (serial :: history) - advanceOf history =
      (serial - highestOf history).toNat := by
    rw [advanceOf_cons serial hne, if_pos hahead]
    omega
  refine ⟨hhighest.symm, by simpa [hserial] using h.nonzero, ?_, fun _ d hd => ?_⟩
  · rw [Windowed]
    · exact ⟨Or.inl hahead, h.windowed⟩
    · exact hne
  · have hmoved : (if (serial - highestOf history).toNat < 64 then
        window <<< (serial - highestOf history).toNat else 0#64).getLsbD d = true ↔
        ∃ before, before + (serial - highestOf history).toNat = d ∧
          window.getLsbD before = true := by
      split
      · rw [getLsbD_shiftLeft]
        constructor
        · intro hbit
          simp only [Bool.and_eq_true, Bool.not_eq_true', decide_eq_false_iff_not] at hbit
          exact ⟨d - (serial - highestOf history).toNat, by omega, hbit.2⟩
        · rintro ⟨before, rfl, hbit⟩
          rw [Nat.add_sub_cancel, hbit]
          simp only [hd, decide_true, Bool.and_true, Bool.true_and, Bool.not_eq_true',
            decide_eq_false_iff_not]
          omega
      · simp only [getLsbD_zero, Bool.false_eq_true, false_iff]
        rintro ⟨before, hsum, -⟩
        omega
    rw [getLsbD_or, Bool.or_eq_true, hmoved]
    constructor
    · rintro (⟨before, rfl, hbit⟩ | hone)
      · obtain ⟨other, hlag⟩ := (h.bits hne before (by omega)).mp hbit
        exact ⟨other, (lag_cons _ _ _ _).mpr (Or.inr ⟨before, hlag, by omega⟩)⟩
      · have hzero : d = 0 := by simpa using hone
        subst hzero
        exact ⟨serial, (lag_cons _ _ _ _).mpr (Or.inl ⟨rfl, by simp [hhighest]⟩)⟩
    · rintro ⟨other, hlag⟩
      rcases (lag_cons _ _ _ _).mp hlag with ⟨-, hzero⟩ | ⟨before, hbefore, hsum⟩
      · right
        rw [hhighest] at hzero
        simp [hzero]
      · exact Or.inl ⟨before, by omega, (h.bits hne before (by omega)).mpr ⟨other, hbefore⟩⟩

/-- Marking a serial of the recent past adds its lag and moves nothing. -/
private theorem Describes.behind (hne : history ≠ []) (hserial : serial ≠ 0#32)
    (hbehind : ¬ Ahead serial highest) (hclose : (highest - serial).toNat ≤ 63) :
    Describes highest (window ||| 1#64 <<< (highest - serial).toNat) (serial :: history) := by
  have heq := h.highest_eq
  subst heq
  have hhighest : highestOf (serial :: history) = highestOf history := by
    rw [highestOf_cons serial hne, if_neg hbehind]
  have hadvance : advanceOf (serial :: history) = advanceOf history := by
    rw [advanceOf_cons serial hne, if_neg hbehind]
  refine ⟨hhighest.symm, by simpa [hserial] using h.nonzero, ?_, fun _ d hd => ?_⟩
  · rw [Windowed]
    · exact ⟨Or.inr hclose, h.windowed⟩
    · exact hne
  · have hmask : (1#64 <<< (highestOf history - serial).toNat).getLsbD d = true ↔
        d = (highestOf history - serial).toNat := by
      rw [← twoPow_eq, getLsbD_twoPow]
      simp only [Bool.and_eq_true, decide_eq_true_eq]
      omega
    rw [getLsbD_or, Bool.or_eq_true, hmask, h.bits hne d hd]
    constructor
    · rintro (⟨other, hlag⟩ | rfl)
      · exact ⟨other, (lag_cons _ _ _ _).mpr (Or.inr ⟨d, hlag, by omega⟩)⟩
      · exact ⟨serial, (lag_cons _ _ _ _).mpr (Or.inl ⟨rfl, by rw [hhighest]⟩)⟩
    · rintro ⟨other, hlag⟩
      rcases (lag_cons _ _ _ _).mp hlag with ⟨-, hself⟩ | ⟨before, hbefore, hsum⟩
      · exact Or.inr (by rw [hself, hhighest])
      · have hsame : before = d := by omega
        exact Or.inl ⟨other, hsame ▸ hbefore⟩

/-- One call keeps the description, whatever the serial. -/
theorem Describes.step (serial : BitVec 32) :
    Describes (checkSerial highest window serial).2.1 (checkSerial highest window serial).2.2
      (if (checkSerial highest window serial).1 then serial :: history else history) := by
  rw [checkSerial_eq]
  by_cases hserial : serial = 0#32
  · simpa [hserial] using h
  by_cases hne : history = []
  · have hhighest : highest = 0#32 := h.highest_eq_zero_iff.mpr hne
    simpa [hserial, hhighest, hne] using describes_first serial hserial
  have hhighest : highest ≠ 0#32 := fun hzero => hne (h.highest_eq_zero_iff.mp hzero)
  simp only [if_neg hserial, if_neg hhighest]
  split
  · rename_i hahead
    exact h.ahead hne hserial hahead
  · rename_i hbehind
    split
    · rename_i hclose
      exact h.behind hne hserial hbehind hclose.2.1
    · exact h

/-- A serial is accepted a second time only after the highest serial has gone
round the circle. -/
theorem Describes.nodup_cons (haccepted : (checkSerial highest window serial).1 = true)
    (hadvance : advanceOf (serial :: history) < 2 ^ 32 - 64) : serial ∉ history := by
  intro hmem
  have hne : history ≠ [] := List.ne_nil_of_mem hmem
  obtain ⟨newer, older, hsplit⟩ := List.append_of_mem hmem
  have hmono := advanceOf_le_cons serial history
  have hle : advanceOf (serial :: older) ≤ advanceOf history :=
    hsplit ▸ advanceOf_le_append newer (serial :: older)
  obtain ⟨-, hcase⟩ := (h.accepts_iff serial).mp haccepted
  rcases hcase.resolve_left hne with hahead | ⟨-, hnotRecent⟩
  · have harrival : (highestOf (serial :: older) - serial).toNat ≤ 63 :=
      windowed_arrival (hsplit ▸ h.windowed)
    have hlag : Lag history serial
        (advanceOf history - advanceOf (serial :: older) +
          (highestOf (serial :: older) - serial).toNat) :=
      ⟨newer, older, hsplit, by omega⟩
    have hdistance := congrArg BitVec.toNat (lag_distance hlag)
    rw [advanceOf_cons serial hne, if_pos hahead] at hadvance
    have hpos := hahead.1
    bv_omega
  · exact hnotRecent ⟨newer, older, hsplit, by omega⟩

end Step

section Runs

variable {σ : Type*} (check : σ → BitVec 32 → Bool × σ)

/-- One call together with the log of the serials accepted so far. -/
def observe (s : σ × List (BitVec 32)) (serial : BitVec 32) : σ × List (BitVec 32) :=
  ((check s.1 serial).2, if (check s.1 serial).1 then serial :: s.2 else s.2)

/-- What the replay window promises of every sequence of calls: the verdict on
the next serial is decided by the accepted serials, and none is accepted twice
while the highest one advances by less than `2 ^ 32 - 64` in total. -/
def ReplayWindow (init : σ) : Prop :=
  ∀ serials : List (BitVec 32),
    let (state, history) := serials.foldl (observe check) (init, [])
    (∀ serial, (check state serial).1 = true ↔
      serial ≠ 0#32 ∧ (history = [] ∨ Ahead serial (highestOf history) ∨
        ((highestOf history - serial).toNat ≤ 63 ∧ ¬ RecentlyAccepted serial history))) ∧
    (advanceOf history < 2 ^ 32 - 64 → history.Nodup)

/-- The same promise with an unbounded memory: a serial just behind the highest
one is accepted only if it was never accepted before. -/
def UnboundedReplayWindow (init : σ) : Prop :=
  ∀ serials : List (BitVec 32),
    let (state, history) := serials.foldl (observe check) (init, [])
    (∀ serial, (check state serial).1 = true ↔
      serial ≠ 0#32 ∧ (history = [] ∨ Ahead serial (highestOf history) ∨
        ((highestOf history - serial).toNat ≤ 63 ∧ serial ∉ history))) ∧
    (advanceOf history < 2 ^ 32 - 64 → history.Nodup)

/-- Any state machine whose calls are `checkSerial` on two of its fields keeps
the promise. -/
theorem replayWindow_of_checkSerial (highest : σ → BitVec 32) (window : σ → BitVec 64)
    (hcheck : ∀ s serial, ((check s serial).1, highest (check s serial).2,
      window (check s serial).2) = checkSerial (highest s) (window s) serial)
    (init : σ) (hinit : highest init = 0#32) : ReplayWindow check init := by
  have hverdict (s : σ) (serial : BitVec 32) :
      (check s serial).1 = (checkSerial (highest s) (window s) serial).1 := by
    rw [← hcheck]
  let inv (s : σ × List (BitVec 32)) : Prop :=
    Describes (highest s.1) (window s.1) s.2 ∧ (advanceOf s.2 < 2 ^ 32 - 64 → s.2.Nodup)
  have hstart : inv (init, []) :=
    ⟨⟨hinit, by simp, trivial, fun h => absurd rfl h⟩, fun _ => List.nodup_nil⟩
  have hstep (s : σ × List (BitVec 32)) (serial : BitVec 32) (hs : inv s) :
      inv (observe check s serial) := by
    have hnext := hs.1.step serial
    rw [← hcheck] at hnext
    refine ⟨hnext, ?_⟩
    simp only [observe]
    split
    · rename_i hok
      intro hadvance
      have hmono := advanceOf_le_cons serial s.2
      exact List.nodup_cons.mpr ⟨hs.1.nodup_cons (hverdict _ _ ▸ hok) hadvance,
        hs.2 (by omega)⟩
    · exact hs.2
  intro serials
  have hrun := Lib.Run.foldl_invariant inv hstep hstart serials
  refine ⟨fun serial => ?_, hrun.2⟩
  rw [hverdict]
  exact hrun.1.accepts_iff serial

end Runs

/-- The thin client's verdict as a Boolean. -/
def SerialNum.accepts (prev : SerialNum) (curr : BitVec 32) : Bool × SerialNum :=
  ((prev.checkIncomingSerial curr).1 == .ok, (prev.checkIncomingSerial curr).2)

/-- Both replay checks keep the promise from their fresh states. -/
theorem serial_replay_window :
    ReplayWindow PeerState.isValidSerial PeerState.fresh ∧
      ReplayWindow SerialNum.accepts SerialNum.fresh := by
  constructor
  · apply replayWindow_of_checkSerial _ PeerState.prevSerial PeerState.flagWindow
    · intro s serial
      rfl
    · rfl
  · apply replayWindow_of_checkSerial _ SerialNum.serial SerialNum.offset
    · intro s serial
      simp only [SerialNum.accepts, SerialNum.checkIncomingSerial]
      cases hverdict : (checkSerial s.serial s.offset serial).1 <;>
        simp [Prod.ext_iff, hverdict]
    · rfl

/-- Memory is bounded: once the highest serial has gone round the circle, serial
10 is accepted a second time. -/
theorem serial_ten_accepted_again :
    ¬ UnboundedReplayWindow PeerState.isValidSerial PeerState.fresh := by
  intro h
  have hten := (h [10#32, 0x80000009#32, 8#32, 12#32]).1 10#32
  revert hten
  decide

end AllJoyn.Peer
