import Mathlib.Data.List.Chain
import Mathlib.Data.List.TakeWhile
import AllJoyn.Lib.Bytes
import AllJoyn.Policy.Authorize

/-!
What `WildcardMatch` matches. Its one pass over both strings takes the first
place where the character behind a `*` occurs and never goes back, so it finds
the expansions in which no `*` stands for that character, and it stops with a
match when the string ends in front of a `*`.
-/

namespace AllJoyn.Policy

open Lib.Bytes List

variable {pattern text : List UInt8}

/-- The two wildcard characters. -/
def IsWild (char : UInt8) : Prop := char = 42 ∨ char = 63

instance (char : UInt8) : Decidable (IsWild char) :=
  inferInstanceAs (Decidable (char = 42 ∨ char = 63))

/-- No two wildcard characters stand side by side. -/
def Separated (pattern : List UInt8) : Prop :=
  pattern.IsChain fun first second => ¬(IsWild first ∧ IsWild second)

instance (pattern : List UInt8) : Decidable (Separated pattern) :=
  inferInstanceAs (Decidable (pattern.IsChain _))

/-- The string comes from the pattern by putting any sequence for each `*` and
one character for each `?`. -/
inductive Expands : List UInt8 → List UInt8 → Prop
  | nil : Expands [] []
  | star {pattern text : List UInt8} (seq : List UInt8) (hrest : Expands pattern text) :
      Expands (42 :: pattern) (seq ++ text)
  | question {pattern text : List UInt8} (char : UInt8) (hrest : Expands pattern text) :
      Expands (63 :: pattern) (char :: text)
  | char {pattern text : List UInt8} {char : UInt8} (hplain : ¬IsWild char)
      (hrest : Expands pattern text) : Expands (char :: pattern) (char :: text)

/-- An expansion in which a `*` stands for a sequence without the character
behind it; the `*` at the end of a pattern stands for anything. -/
inductive Careful : List UInt8 → List UInt8 → Prop
  | nil : Careful [] []
  | last (seq : List UInt8) : Careful [42] seq
  | star {pattern text seq : List UInt8} {char : UInt8} (hplain : ¬IsWild char)
      (hskipped : char ∉ seq) (hrest : Careful pattern text) :
      Careful (42 :: char :: pattern) (seq ++ char :: text)
  | question {pattern text : List UInt8} (char : UInt8) (hrest : Careful pattern text) :
      Careful (63 :: pattern) (char :: text)
  | char {pattern text : List UInt8} {char : UInt8} (hplain : ¬IsWild char)
      (hrest : Careful pattern text) : Careful (char :: pattern) (char :: text)

theorem Careful.expands (hcareful : Careful pattern text) : Expands pattern text := by
  induction hcareful with
  | nil => exact .nil
  | last seq =>
    have hstar := Expands.star seq .nil
    rwa [List.append_nil] at hstar
  | star hplain _ _ ih => exact .star _ (.char hplain ih)
  | question char _ ih => exact .question char ih
  | char hplain _ ih => exact .char hplain ih

/-- The string is used up where a `*` of the pattern comes next. -/
def StopsAtStar (pattern text : List UInt8) : Prop :=
  ∃ front back, pattern = front ++ 42 :: back ∧ Careful front text

section Inversion

variable {pattern text : List UInt8} {char next first : UInt8}

theorem careful_nil_left : Careful [] text ↔ text = [] :=
  ⟨fun hcareful => by cases hcareful; rfl, fun hempty => hempty ▸ .nil⟩

theorem careful_nil_right (hcareful : Careful pattern []) : pattern = [] ∨ pattern = [42] := by
  obtain ⟨text, hempty⟩ : ∃ text : List UInt8, [] = text := ⟨[], rfl⟩
  rw [hempty] at hcareful
  cases hcareful with
  | nil => exact .inl rfl
  | last => exact .inr rfl
  | star => simp at hempty
  | question | char => cases hempty

theorem careful_char_iff (hplain : ¬IsWild char) :
    Careful (char :: pattern) (first :: text) ↔ char = first ∧ Careful pattern text := by
  constructor
  · intro hcareful
    generalize hwhole : first :: text = whole at hcareful
    cases hcareful with
    | last | star => exact absurd (.inl rfl) hplain
    | question => exact absurd (.inr rfl) hplain
    | char _ hrest =>
      cases hwhole
      exact ⟨rfl, hrest⟩
  · rintro ⟨rfl, hrest⟩
    exact .char hplain hrest

theorem careful_question_iff :
    Careful (63 :: pattern) (first :: text) ↔ Careful pattern text := by
  constructor
  · intro hcareful
    cases hcareful with
    | question _ hrest => exact hrest
    | char hplain _ => exact absurd (.inr rfl) hplain
  · exact .question first

theorem careful_star_iff (hplain : ¬IsWild next) :
    Careful (42 :: next :: pattern) text ↔
      ∃ seq rest, text = seq ++ next :: rest ∧ next ∉ seq ∧ Careful pattern rest := by
  constructor
  · intro hcareful
    cases hcareful with
    | star _ hskipped hrest => exact ⟨_, _, rfl, hskipped, hrest⟩
    | char hwild _ => exact absurd (.inl rfl) hwild
  · rintro ⟨seq, rest, rfl, hskipped, hrest⟩
    exact .star hplain hskipped hrest

/-- How the string can be used up in front of a `*` that is not the first
character of the pattern. -/
theorem stopsAtStar_cons_iff (htext : text ≠ []) :
    StopsAtStar (char :: pattern) text ↔
      ∃ front back, pattern = front ++ 42 :: back ∧ Careful (char :: front) text := by
  constructor
  · rintro ⟨front, back, hpattern, hcareful⟩
    cases front with
    | nil => exact absurd (careful_nil_left.mp hcareful) htext
    | cons first front =>
      obtain ⟨rfl, rfl⟩ := cons_eq_cons.mp hpattern
      exact ⟨front, back, rfl, hcareful⟩
  · rintro ⟨front, back, rfl, hcareful⟩
    exact ⟨char :: front, back, rfl, hcareful⟩

end Inversion

/-! ### The strings that the loop takes -/

/-- What the loop matches. -/
def Taken (pattern text : List UInt8) : Prop := Careful pattern text ∨ StopsAtStar pattern text

section Taken

variable {pattern text : List UInt8} {char next first : UInt8}

theorem taken_nil_left : Taken [] text ↔ text = [] := by
  refine (or_iff_left ?_).trans careful_nil_left
  rintro ⟨front, back, hpattern, -⟩
  simp at hpattern

theorem taken_nil_right : Taken (char :: pattern) [] ↔ char = 42 := by
  constructor
  · rintro (hcareful | ⟨front, back, hpattern, hcareful⟩)
    · exact (cons_eq_cons.mp ((careful_nil_right hcareful).resolve_left (by simp))).1
    · rcases careful_nil_right hcareful with rfl | rfl
      · exact (cons_eq_cons.mp hpattern).1
      · exact (cons_eq_cons.mp hpattern).1
  · rintro rfl
    exact .inr ⟨[], pattern, rfl, .nil⟩

theorem taken_char_iff (hplain : ¬IsWild char) :
    Taken (char :: pattern) (first :: text) ↔ char = first ∧ Taken pattern text := by
  rw [Taken, stopsAtStar_cons_iff (by simp)]
  simp only [careful_char_iff hplain]
  constructor
  · rintro (⟨hsame, hcareful⟩ | ⟨front, back, hpattern, hsame, hcareful⟩)
    · exact ⟨hsame, .inl hcareful⟩
    · exact ⟨hsame, .inr ⟨front, back, hpattern, hcareful⟩⟩
  · rintro ⟨hsame, hcareful | ⟨front, back, hpattern, hcareful⟩⟩
    · exact .inl ⟨hsame, hcareful⟩
    · exact .inr ⟨front, back, hpattern, hsame, hcareful⟩

theorem taken_question_iff : Taken (63 :: pattern) (first :: text) ↔ Taken pattern text := by
  rw [Taken, stopsAtStar_cons_iff (by simp)]
  simp only [careful_question_iff]
  exact Iff.rfl

theorem taken_star_iff (hplain : ¬IsWild next) (htext : text ≠ []) :
    Taken (42 :: next :: pattern) text ↔
      ∃ seq rest, text = seq ++ next :: rest ∧ next ∉ seq ∧ Taken pattern rest := by
  rw [Taken, stopsAtStar_cons_iff htext, careful_star_iff hplain]
  constructor
  · rintro (⟨seq, rest, hsplit, hskipped, hcareful⟩ | ⟨front, back, hpattern, hcareful⟩)
    · exact ⟨seq, rest, hsplit, hskipped, .inl hcareful⟩
    · cases front with
      | nil => exact absurd (.inl (cons_eq_cons.mp hpattern).1) hplain
      | cons second front =>
        obtain ⟨rfl, rfl⟩ := cons_eq_cons.mp hpattern
        obtain ⟨seq, rest, hsplit, hskipped, hrest⟩ := (careful_star_iff hplain).mp hcareful
        exact ⟨seq, rest, hsplit, hskipped, .inr ⟨front, back, rfl, hrest⟩⟩
  · rintro ⟨seq, rest, hsplit, hskipped, hcareful | ⟨front, back, rfl, hcareful⟩⟩
    · exact .inl ⟨seq, rest, hsplit, hskipped, hcareful⟩
    · exact .inr ⟨next :: front, back, rfl,
        (careful_star_iff hplain).mpr ⟨seq, rest, hsplit, hskipped, hcareful⟩⟩

end Taken

theorem dropWhile_of_notMem {next : UInt8} (habsent : next ∉ text) : text.dropWhile (· ≠ next) = [] := by
  rw [dropWhile_eq_nil_iff]
  intro char hmem
  exact decide_eq_true fun hsame => habsent (hsame ▸ hmem)

/-- The loop takes the careful expansions, and the strings that end where a
`*` comes next. -/
theorem wildcardLoop_iff (hseparated : Separated pattern) :
    wildcardLoop pattern text = false ↔ Taken pattern text := by
  fun_induction wildcardLoop pattern text with
  | case1 => simp [taken_nil_left]
  | case2 first text => simp [taken_nil_left]
  | case3 char pattern => simp [taken_nil_right]
  | case4 first text => simp [Taken, Careful.last]
  | case5 first text next pattern hwild =>
    exact absurd ⟨.inl rfl, hwild⟩ (isChain_cons_cons.mp hseparated).1
  | case6 first text next pattern hplain hnone =>
    rw [taken_star_iff hplain (by simp)]
    refine iff_of_false (by simp) ?_
    rintro ⟨seq, rest, hsplit, hskipped, -⟩
    rw [hsplit, (span_mark _ hskipped).2] at hnone
    cases hnone
  | case7 first text next pattern hplain char rest hrest ih =>
    rw [ih hseparated.tail.tail, taken_star_iff hplain (by simp)]
    have hmem : next ∈ first :: text := by
      by_contra habsent
      rw [dropWhile_of_notMem habsent] at hrest
      cases hrest
    obtain ⟨seq, others, hsplit, hskipped⟩ := eq_append_cons_of_mem hmem
    constructor
    · intro htaken
      rw [hsplit, (span_mark _ hskipped).2] at hrest
      obtain ⟨-, rfl⟩ := cons_eq_cons.mp hrest
      exact ⟨seq, others, hsplit, hskipped, htaken⟩
    · rintro ⟨seq', others', hsplit', hskipped', htaken⟩
      rw [hsplit', (span_mark _ hskipped').2] at hrest
      obtain ⟨-, rfl⟩ := cons_eq_cons.mp hrest
      exact htaken
  | case8 pattern first text _ ih => rw [taken_question_iff, ih hseparated.tail]
  | case9 char pattern first text hstar hquestion hdiffer =>
    rw [taken_char_iff (not_or.mpr ⟨hstar, hquestion⟩)]
    exact iff_of_false (by simp) fun hsame => hdiffer hsame.1
  | case10 char pattern first text hstar hquestion hsame ih =>
    rw [taken_char_iff (not_or.mpr ⟨hstar, hquestion⟩), ih hseparated.tail]
    exact (and_iff_right (not_not.mp hsame)).symm

/-! ### The first place is the earliest -/

theorem suffix_behind_first {before behind seq rest : List UInt8} {next : UInt8}
    (hskipped : next ∉ seq) (hsame : before ++ next :: behind = seq ++ next :: rest) :
    behind <:+ rest := by
  rcases append_eq_append_iff.mp hsame with ⟨between, hseq, hbehind⟩ | ⟨between, -, hrest⟩
  · cases between with
    | nil => exact ⟨[], (cons_eq_cons.mp hbehind).2⟩
    | cons char between =>
      obtain ⟨rfl, -⟩ := cons_eq_cons.mp hbehind
      exact absurd (hseq ▸ mem_append_right before mem_cons_self) hskipped
  · cases between with
    | nil => exact ⟨[], (cons_eq_cons.mp hrest).2.symm⟩
    | cons char between =>
      rw [(cons_eq_cons.mp hrest).2]
      exact (suffix_cons next behind).trans (suffix_append between _)

theorem suffix_of_cons_suffix_cons {text rest : List UInt8} {char first : UInt8}
    (hsuffix : char :: text <:+ first :: rest) : text <:+ rest := by
  rcases suffix_cons_iff.mp hsuffix with hsame | hlater
  · exact ⟨[], (cons_eq_cons.mp hsame).2⟩
  · exact (suffix_cons char text).trans hlater

theorem expands_star_inv (hexpands : Expands (42 :: pattern) text) :
    ∃ seq rest, text = seq ++ rest ∧ Expands pattern rest := by
  cases hexpands with
  | star seq hrest => exact ⟨seq, _, rfl, hrest⟩
  | char hplain _ => exact absurd (.inl rfl) hplain

theorem expands_question_inv (hexpands : Expands (63 :: pattern) text) :
    ∃ char rest, text = char :: rest ∧ Expands pattern rest := by
  cases hexpands with
  | question char hrest => exact ⟨char, _, rfl, hrest⟩
  | char hplain _ => exact absurd (.inr rfl) hplain

theorem expands_char_inv {char : UInt8} (hplain : ¬IsWild char)
    (hexpands : Expands (char :: pattern) text) :
    ∃ rest, text = char :: rest ∧ Expands pattern rest := by
  cases hexpands with
  | star => exact absurd (.inl rfl) hplain
  | question => exact absurd (.inr rfl) hplain
  | char _ hrest => exact ⟨_, rfl, hrest⟩

/-- A careful expansion of a pattern in front of a `*` ends at the first place
where an expansion can end. -/
theorem Careful.earliest {front text : List UInt8} (hcareful : Careful front text)
    (hseparated : Separated (front ++ [42])) {start rest : List UInt8}
    (hexpands : Expands front start) (hsuffix : start ++ rest <:+ text) : rest = [] := by
  induction hcareful generalizing start with
  | nil => exact (append_eq_nil_iff.mp (suffix_nil.mp hsuffix)).2
  | last => exact absurd hseparated (by decide)
  | @star pattern text seq next hplain hskipped _ ih =>
    obtain ⟨skipped, others, rfl, hothers⟩ := expands_star_inv hexpands
    obtain ⟨start, rfl, hstart⟩ := expands_char_inv hplain hothers
    obtain ⟨before, hwhole⟩ := hsuffix
    have hbehind : (before ++ skipped) ++ next :: (start ++ rest) = seq ++ next :: text := by
      simpa using hwhole
    exact ih hseparated.tail.tail hstart (suffix_behind_first hskipped hbehind)
  | question char _ ih =>
    obtain ⟨first, start, rfl, hstart⟩ := expands_question_inv hexpands
    exact ih hseparated.tail hstart (suffix_of_cons_suffix_cons hsuffix)
  | char hplain _ ih =>
    obtain ⟨start, rfl, hstart⟩ := expands_char_inv hplain hexpands
    exact ih hseparated.tail hstart (suffix_of_cons_suffix_cons hsuffix)

theorem expands_append_inv {front back text : List UInt8} (hexpands : Expands (front ++ back) text) :
    ∃ start rest, text = start ++ rest ∧ Expands front start ∧ Expands back rest := by
  induction front generalizing text with
  | nil => exact ⟨[], text, rfl, .nil, hexpands⟩
  | cons char front ih =>
    by_cases hwild : IsWild char
    · rcases hwild with rfl | rfl
      · obtain ⟨seq, others, rfl, hothers⟩ := expands_star_inv hexpands
        obtain ⟨start, rest, rfl, hstart, hrest⟩ := ih hothers
        exact ⟨seq ++ start, rest, (append_assoc ..).symm, .star seq hstart, hrest⟩
      · obtain ⟨first, others, rfl, hothers⟩ := expands_question_inv hexpands
        obtain ⟨start, rest, rfl, hstart, hrest⟩ := ih hothers
        exact ⟨first :: start, rest, rfl, .question first hstart, hrest⟩
    · obtain ⟨others, rfl, hothers⟩ := expands_char_inv hwild hexpands
      obtain ⟨start, rest, rfl, hstart, hrest⟩ := ih hothers
      exact ⟨char :: start, rest, rfl, .char hwild hstart, hrest⟩

theorem Careful.append_star {front text : List UInt8} (hcareful : Careful front text)
    (hseparated : Separated (front ++ [42])) : Careful (front ++ [42]) text := by
  induction hcareful with
  | nil => exact .last []
  | last => exact absurd hseparated (by decide)
  | star hplain hskipped _ ih => exact .star hplain hskipped (ih hseparated.tail.tail)
  | question char _ ih => exact .question char (ih hseparated.tail)
  | char hplain _ ih => exact .char hplain (ih hseparated.tail)

/-- A string that is used up in front of an inner `*` is no expansion: what
follows the `*` still needs a character. -/
theorem not_expands_of_stops {front back text : List UInt8} (hcareful : Careful front text)
    (hseparated : Separated (front ++ 42 :: back)) (hinner : back ≠ []) :
    ¬Expands (front ++ 42 :: back) text := by
  intro hexpands
  obtain ⟨start, rest, rfl, hstart, hrest⟩ := expands_append_inv hexpands
  have hfront : Separated (front ++ [42]) := by
    rw [append_cons] at hseparated
    exact hseparated.left_of_append
  have hback : Separated (42 :: back) := hseparated.right_of_append
  have hempty : rest = [] := hcareful.earliest hfront hstart (suffix_refl _)
  obtain ⟨seq, behind, hsplit, hbehind⟩ := expands_star_inv hrest
  obtain ⟨next, back, rfl⟩ := exists_cons_of_ne_nil hinner
  have hplain : ¬IsWild next := fun hwild =>
    (isChain_cons_cons.mp hback).1 ⟨.inl rfl, hwild⟩
  obtain ⟨others, rfl, -⟩ := expands_char_inv hplain hbehind
  rw [hempty] at hsplit
  simp at hsplit

/-! ### The matches -/

theorem wildcardMatch_iff (hseparated : Separated pattern) :
    wildcardMatch text pattern = false ↔ pattern ≠ [] ∧ text ≠ [] ∧ Taken pattern text := by
  unfold wildcardMatch
  by_cases hempty : pattern = [] ∨ text = []
  · rw [if_pos hempty]
    refine iff_of_false (by simp) fun hmatch => ?_
    exact hempty.elim hmatch.1 hmatch.2.1
  · rw [if_neg hempty, wildcardLoop_iff hseparated]
    obtain ⟨hpattern, htext⟩ := not_or.mp hempty
    simp [hpattern, htext]

/-- An empty string with a pattern that stands for it. -/
def BothEmpty (pattern text : List UInt8) : Prop :=
  text = [] ∧ (pattern = [] ∨ pattern = [42])

/-- The string is used up in front of a `*` inside of the pattern. -/
def StopsInside (pattern text : List UInt8) : Prop :=
  text ≠ [] ∧ ∃ front back, pattern = front ++ 42 :: back ∧ back ≠ [] ∧ Careful front text

theorem StopsInside.mem_dropLast (hstops : StopsInside pattern text) : 42 ∈ pattern.dropLast := by
  obtain ⟨-, front, back, rfl, hinner, -⟩ := hstops
  obtain ⟨next, back, rfl⟩ := exists_cons_of_ne_nil hinner
  simp

theorem expands_nil_right {pattern : List UInt8} (hseparated : Separated pattern)
    (hexpands : Expands pattern []) : pattern = [] ∨ pattern = [42] := by
  cases pattern with
  | nil => exact .inl rfl
  | cons char pattern =>
    by_cases hwild : IsWild char
    · rcases hwild with rfl | rfl
      · obtain ⟨seq, rest, hsplit, hrest⟩ := expands_star_inv hexpands
        obtain ⟨-, rfl⟩ := append_eq_nil_iff.mp hsplit.symm
        cases pattern with
        | nil => exact .inr rfl
        | cons next pattern =>
          have hplain : ¬IsWild next := fun hwild =>
            (isChain_cons_cons.mp hseparated).1 ⟨.inl rfl, hwild⟩
          obtain ⟨_, hcons, -⟩ := expands_char_inv hplain hrest
          cases hcons
      · obtain ⟨_, _, hcons, -⟩ := expands_question_inv hexpands
        cases hcons
    · obtain ⟨_, hcons, -⟩ := expands_char_inv hwild hexpands
      cases hcons

theorem wildcardMatch_iff_expands (hseparated : Separated pattern)
    (hempty : ¬BothEmpty pattern text) (hinside : ¬StopsInside pattern text)
    (hcareful : Expands pattern text → Careful pattern text) :
    wildcardMatch text pattern = false ↔ Expands pattern text := by
  rw [wildcardMatch_iff hseparated]
  constructor
  · rintro ⟨hpattern, htext, htaken | ⟨front, back, rfl, hfront⟩⟩
    · exact htaken.expands
    · by_cases hinner : back = []
      · subst hinner
        exact (hfront.append_star hseparated).expands
      · exact absurd ⟨htext, front, back, rfl, hinner, hfront⟩ hinside
  · intro hexpands
    refine ⟨?_, ?_, .inl (hcareful hexpands)⟩
    · rintro rfl
      cases hexpands
      exact hempty ⟨rfl, .inl rfl⟩
    · rintro rfl
      exact hempty ⟨rfl, expands_nil_right hseparated hexpands⟩

/-- The matches are the expansions of the pattern exactly where the string is
not empty, does not end in front of an inner `*`, and has a careful expansion
if it has one at all. -/
theorem wildcardMatch_documented_iff (pattern text : List UInt8) (hseparated : Separated pattern) :
    (wildcardMatch text pattern = false ↔ Expands pattern text) ↔
      ¬BothEmpty pattern text ∧ ¬StopsInside pattern text ∧
        (Expands pattern text → Careful pattern text) := by
  constructor
  · intro hmatch
    rw [wildcardMatch_iff hseparated] at hmatch
    refine ⟨?_, ?_, fun hexpands => ?_⟩
    · rintro ⟨rfl, rfl | rfl⟩
      · exact (hmatch.mpr .nil).1 rfl
      · exact (hmatch.mpr (.star [] .nil)).2.1 rfl
    · rintro ⟨htext, front, back, rfl, hinner, hcareful⟩
      have hstops : StopsAtStar (front ++ 42 :: back) text := ⟨front, back, rfl, hcareful⟩
      exact not_expands_of_stops hcareful hseparated hinner
        (hmatch.mp ⟨by simp, htext, .inr hstops⟩)
    · obtain ⟨-, -, hcareful | ⟨front, back, rfl, hcareful⟩⟩ := hmatch.mpr hexpands
      · exact hcareful
      · by_cases hinner : back = []
        · subst hinner
          exact hcareful.append_star hseparated
        · exact absurd hexpands (not_expands_of_stops hcareful hseparated hinner)
  · rintro ⟨hempty, hinside, hcareful⟩
    exact wildcardMatch_iff_expands hseparated hempty hinside hcareful

/-- A pattern with its only `*` at the end meets the condition. -/
theorem wildcardMatch_documented_trailing :
    Separated [97, 98, 42] ∧
      (wildcardMatch [97, 98, 99] [97, 98, 42] = false ↔ Expands [97, 98, 42] [97, 98, 99]) := by
  have hseparated : Separated [97, 98, 42] := by decide
  refine ⟨hseparated, (wildcardMatch_documented_iff _ _ hseparated).mpr ⟨?_, ?_, fun _ => ?_⟩⟩
  · rintro ⟨hempty, -⟩
    cases hempty
  · exact fun hinside => absurd hinside.mem_dropLast (by decide)
  · exact .char (by decide) (.char (by decide) (.last [99]))

/-- `*ab` stands for `aab` and is not matched with it, `a*b` does not stand for
`a` and is. -/
theorem wildcardMatch_undocumented :
    (Separated [42, 97, 98] ∧ Expands [42, 97, 98] [97, 97, 98] ∧
        wildcardMatch [97, 97, 98] [42, 97, 98] = true) ∧
      Separated [97, 42, 98] ∧ ¬Expands [97, 42, 98] [97] ∧
        wildcardMatch [97] [97, 42, 98] = false := by
  refine ⟨⟨by decide, ?_, by decide⟩, by decide, ?_, by decide⟩
  · exact .star [97] (.char (by decide) (.char (by decide) .nil))
  · exact not_expands_of_stops (.char (by decide) .nil) (by decide) (by decide)

end AllJoyn.Policy
