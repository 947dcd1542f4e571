import Mathlib.Data.List.Basic

/-!
The reader of the text in which the lighting controllers keep and exchange
their data (`FileParser.cc`). A stream that is only read by the extraction
operator is the list of its words, a flag for white space behind the last of
them and the end-of-file flag. A character stands for a byte.
-/

namespace AllJoyn.Lighting

open List

variable {s : Text}

abbrev Text := List Char

def isSpace (c : Char) : Bool :=
  c = ' ' || c = '\t' || c = '\n' || c = '\x0b' || c = '\x0c' || c = '\r'

/-- The words of a text whose first word continues `word`. -/
def wordsFrom (word : Text) : Text → List Text
  | [] => if word = [] then [] else [word]
  | c :: rest =>
    if isSpace c then
      if word = [] then wordsFrom [] rest else word :: wordsFrom [] rest
    else wordsFrom (word ++ [c]) rest

/-- The longest pieces of a text that are free of white space. -/
def words (text : Text) : List Text := wordsFrom [] text

structure Stream where
  words : List Text
  /-- White space follows the last word. -/
  trailing : Bool
  eof : Bool
  deriving DecidableEq, Repr

def Stream.ofText (text : Text) : Stream :=
  { words := Lighting.words text, trailing := text.getLast?.any isSpace, eof := false }

/-- `stream >> s` with an empty `s`. The extraction that reaches the end of
the text sets the end-of-file flag. -/
def Stream.extract (stream : Stream) : Text × Stream :=
  match stream.words with
  | [] => ([], { stream with eof := true })
  | word :: rest =>
    (word, { stream with words := rest, eof := rest.isEmpty && !stream.trailing })

def resetID : Text := "Reset".toList

def initialStateID : Text := "InitialState".toList

/-- The loop of `ParseString` that looks for the closing quote. There is no
result where the last character of an empty string is read and where the loop
goes on for ever behind the end of the stream. -/
def closeQuote (trailing : Bool) (name : Text) (rest : List Text) : Option (Text × Stream) :=
  match name.getLast? with
  | none => none
  | some c =>
    if c = '"' then some (name.dropLast, ⟨rest, trailing, rest.isEmpty && !trailing⟩)
    else
      match rest with
      | [] => none
      | s :: rest => closeQuote trailing (name ++ ' ' :: s) rest

def parseString (stream : Stream) : Option (Text × Stream) :=
  let (name, stream) := stream.extract
  if name.head? = some '"' then closeQuote stream.trailing name.tail stream.words
  else some (name, stream)

/-! ### Words -/

def NoSpace (s : Text) : Prop := ∀ c ∈ s, isSpace c = false

instance (s : Text) : Decidable (NoSpace s) := List.decidableBAll _ s

/-- What the extraction operator can return before the end of the stream. -/
structure Word (s : Text) : Prop where
  nonempty : s ≠ []
  noSpace : NoSpace s

variable {c previous : Char} {name w token : Text}

theorem NoSpace.tail (hs : NoSpace (c :: s)) : NoSpace s :=
  fun d hd => hs d (mem_cons_of_mem _ hd)

theorem wordsFrom_append_space (hc : isSpace c) (word s rest : Text) :
    wordsFrom word (s ++ c :: rest) = wordsFrom word s ++ words rest := by
  induction s generalizing word with
  | nil =>
    by_cases hempty : word = []
    · simp [wordsFrom, words, hc, hempty]
    · simp [wordsFrom, words, hc, hempty]
  | cons d s ih =>
    simp only [cons_append, wordsFrom]
    split_ifs
    · exact ih []
    · rw [ih [], cons_append]
    · exact ih (word ++ [d])

theorem words_append_space (hc : isSpace c) (s rest : Text) :
    words (s ++ c :: rest) = words s ++ words rest :=
  wordsFrom_append_space hc [] s rest

theorem words_cons_space (hc : isSpace c) (rest : Text) : words (c :: rest) = words rest :=
  words_append_space hc [] rest

theorem wordsFrom_noSpace (hs : NoSpace s) (word : Text) :
    wordsFrom word s = if word ++ s = [] then [] else [word ++ s] := by
  induction s generalizing word with
  | nil => simp [wordsFrom]
  | cons c s ih =>
    have hc : isSpace c = false := hs c mem_cons_self
    simp only [wordsFrom, hc, Bool.false_eq_true, if_false]
    rw [ih hs.tail]
    simp

theorem words_noSpace (hs : NoSpace s) :
    words s = if s = [] then [] else [s] := wordsFrom_noSpace hs []

theorem words_word (hs : Word s) : words s = [s] := by
  rw [words_noSpace hs.noSpace, if_neg hs.nonempty]

theorem wordsFrom_word {word : Text} (hword : NoSpace word) (text : Text) :
    ∀ w ∈ wordsFrom word text, Word w := by
  induction text generalizing word with
  | nil =>
    intro w hw
    by_cases hempty : word = []
    · simp [wordsFrom, hempty] at hw
    · simp only [wordsFrom, hempty, if_false, mem_singleton] at hw
      exact hw ▸ ⟨hempty, hword⟩
  | cons c rest ih =>
    have hnil : NoSpace [] := by simp [NoSpace]
    intro w hw
    unfold wordsFrom at hw
    split_ifs at hw with hc hempty
    · exact ih hnil w hw
    · rcases mem_cons.mp hw with rfl | hrest
      · exact ⟨hempty, hword⟩
      · exact ih hnil w hrest
    · refine ih ?_ w hw
      intro d hd
      rcases mem_append.mp hd with hold | hnew
      · exact hword d hold
      · rw [mem_singleton.mp hnew]
        simpa using hc

theorem word_of_mem_words (text : Text) : ∀ w ∈ words text, Word w :=
  wordsFrom_word (by simp [NoSpace]) text

/-! ### Quoted strings -/

/-- Every white space character of `s` is a blank that follows neither a blank
nor a quote; the first argument is the character in front of `s`. -/
def SpacedFrom : Char → Text → Prop
  | _, [] => True
  | previous, c :: rest =>
    (isSpace c → c = ' ' ∧ previous ≠ ' ' ∧ previous ≠ '"') ∧ SpacedFrom c rest

instance SpacedFrom.decidable : ∀ (previous : Char) (s : Text), Decidable (SpacedFrom previous s)
  | _, [] => isTrue trivial
  | _, c :: rest =>
    have := SpacedFrom.decidable c rest
    inferInstanceAs (Decidable ((_ → _) ∧ SpacedFrom c rest))

/-- The names that survive quoting: the opening quote stands in front. -/
def Spaced (s : Text) : Prop := SpacedFrom '"' s

instance (s : Text) : Decidable (Spaced s) := inferInstanceAs (Decidable (SpacedFrom _ s))

theorem NoSpace.spacedFrom (hs : NoSpace s) (previous : Char) : SpacedFrom previous s := by
  induction s generalizing previous with
  | nil => trivial
  | cons c rest ih =>
    have hc : isSpace c = false := hs c mem_cons_self
    refine ⟨?_, ih hs.tail c⟩
    intro hspace
    rw [hc] at hspace
    contradiction

theorem spacedFrom_append {first second : Text} :
    SpacedFrom previous (first ++ second) ↔
      SpacedFrom previous first ∧ SpacedFrom (first.getLast?.getD previous) second := by
  induction first generalizing previous with
  | nil => simp [SpacedFrom]
  | cons c rest ih =>
    rw [cons_append, SpacedFrom, ih, SpacedFrom, and_assoc, List.getLast?_cons]
    rfl

theorem SpacedFrom.dropLast (hs : SpacedFrom previous s) : SpacedFrom previous s.dropLast := by
  rcases eq_nil_or_concat s with rfl | ⟨front, last, hconcat⟩
  · trivial
  · rw [hconcat, concat_eq_append] at hs ⊢
    rw [dropLast_concat]
    exact (spacedFrom_append.mp hs).1

/-- `w` and the words behind it are the words of a name and the quote that
closes it. -/
inductive Quoted : Text → List Text → Text → Prop
  | last (name : Text) (hname : NoSpace name) : Quoted (name ++ ['"']) [] name
  | more {w next : Text} {rest : List Text} {name : Text} (hw : Word w)
      (hopen : w.getLast? ≠ some '"') (hrest : Quoted next rest name) :
      Quoted w (next :: rest) (w ++ ' ' :: name)

theorem quoted_wordsFrom (cur : Text) {before : Char} (hbefore : before = ' ' ∨ before = '"')
    (hcur : NoSpace cur) (hs : SpacedFrom (cur.getLast?.getD before) s) (front : Text) :
    ∃ w rest, wordsFrom (front ++ cur) (s ++ ['"']) = (front ++ w) :: rest ∧
      Quoted w rest (cur ++ s) := by
  induction s generalizing cur before front with
  | nil =>
    refine ⟨cur ++ ['"'], [], ?_, by simpa using Quoted.last cur hcur⟩
    simp [wordsFrom, show isSpace '"' = false from rfl]
  | cons c s ih =>
    obtain ⟨hc, hs⟩ := hs
    cases hspace : isSpace c with
    | false =>
      have hcur' : NoSpace (cur ++ [c]) := by
        intro d hd
        rcases mem_append.mp hd with hold | hnew
        · exact hcur d hold
        · rwa [mem_singleton.mp hnew]
      obtain ⟨w, rest, hwords, hquoted⟩ := ih (cur ++ [c]) hbefore hcur'
        (by simpa using hs) front
      refine ⟨w, rest, ?_, by simpa using hquoted⟩
      simpa [wordsFrom, hspace] using hwords
    | true =>
      -- The character in front of the blank belongs to the current word.
      obtain ⟨rfl, hblank, hquote⟩ := hc hspace
      have hne : cur ≠ [] := by
        rintro rfl
        rcases hbefore with rfl | rfl
        · exact hblank rfl
        · exact hquote rfl
      have hopen : cur.getLast? ≠ some '"' := by
        intro hlast
        exact hquote (by simp [hlast])
      obtain ⟨w, rest, hwords, hquoted⟩ := ih [] (.inl rfl) (by simp [NoSpace])
        (by simpa using hs) []
      refine ⟨cur, w :: rest, ?_, .more ⟨hne, hcur⟩ hopen hquoted⟩
      rw [cons_append, wordsFrom, if_pos hspace, if_neg (by simp [hne])]
      simpa using hwords

theorem Spaced.words_quoted (hname : Spaced name) :
    ∃ w rest, words ('"' :: name ++ ['"']) = ('"' :: w) :: rest ∧ Quoted w rest name := by
  obtain ⟨w, rest, hwords, hquoted⟩ := quoted_wordsFrom [] (.inr rfl)
    (by simp [NoSpace]) hname ['"']
  refine ⟨w, rest, ?_, hquoted⟩
  simpa [words, wordsFrom, show isSpace '"' = false from rfl] using hwords

theorem Quoted.closeQuote {rest : List Text} (hquoted : Quoted w rest name) (before : Text)
    (more : List Text) :
    closeQuote true (before ++ w) (rest ++ more) =
      some (before ++ name, ⟨more, true, false⟩) := by
  induction hquoted generalizing before with
  | last name hname =>
    rw [Lighting.closeQuote.eq_def]
    simp
  | @more w next rest name hw hopen hrest ih =>
    have hlast : (before ++ w).getLast? = some (w.getLast hw.nonempty) := by
      rw [List.getLast?_append, List.getLast?_eq_some_getLast hw.nonempty, Option.some_or]
    have hchar : w.getLast hw.nonempty ≠ '"' := by
      intro hlast
      exact hopen (hlast ▸ List.getLast?_eq_some_getLast hw.nonempty)
    rw [cons_append, Lighting.closeQuote, hlast]
    simp only [hchar]
    have htail := ih (before ++ w ++ [' '])
    simpa using htail

theorem parseString_nil (trailing eof : Bool) :
    parseString ⟨[], trailing, eof⟩ = some ([], ⟨[], trailing, true⟩) := rfl

theorem parseString_cons (hw : w.head? ≠ some '"') (rest : List Text) (eof : Bool) :
    parseString ⟨w :: rest, true, eof⟩ = some (w, ⟨rest, true, false⟩) := by
  simp [parseString, Stream.extract, hw]

theorem Spaced.parseString (hname : Spaced name) (rest : List Text) (eof : Bool) :
    parseString ⟨words ('"' :: name ++ ['"']) ++ rest, true, eof⟩ =
      some (name, ⟨rest, true, false⟩) := by
  obtain ⟨w, more, hwords, hquoted⟩ := hname.words_quoted
  rw [hwords]
  exact hquoted.closeQuote [] rest

/-! ### What can be read -/

section CloseQuote

variable {trailing : Bool} {name : Text} {rest : List Text} {token : Text} {stream : Stream}
  (hread : closeQuote trailing name rest = some (token, stream))

include hread

/-- The closing quote ends the string it is looked for in, or a word further
on; then there is a blank in between. -/
theorem closeQuote_shape :
    stream.words <:+ rest ∧ stream.trailing = trailing ∧ (stream.eof = true → stream.words = []) ∧
      (stream.words = rest ∧ name = token ++ ['"'] ∨ ' ' ∈ token) := by
  fun_induction closeQuote trailing name rest with
  | case1 => cases hread
  | case2 name rest hlast =>
    cases hread
    refine ⟨suffix_refl _, rfl, by simp +contextual, .inl ⟨rfl, ?_⟩⟩
    exact (dropLast_append_getLast? _ hlast).symm
  | case3 => cases hread
  | case4 name c hlast hc s rest ih =>
    obtain ⟨hsuffix, htrailing, heof, hshape⟩ := ih hread
    refine ⟨hsuffix.trans (suffix_cons s rest), htrailing, heof, .inr ?_⟩
    rcases hshape with ⟨-, hname⟩ | hblank
    · have hmem : ' ' ∈ token ++ ['"'] := hname ▸ by simp
      simpa using hmem
    · exact hblank

theorem closeQuote_spaced (hrest : ∀ w ∈ rest, Word w) (hname : Spaced name)
    (hlast : ∀ c, name.getLast? = some c → isSpace c = false) : Spaced token := by
  fun_induction closeQuote trailing name rest with
  | case1 => cases hread
  | case2 =>
    cases hread
    exact hname.dropLast
  | case3 => cases hread
  | case4 name c hchar hc s rest ih =>
    have hs : Word s := hrest s mem_cons_self
    have hspaced : Spaced (name ++ ' ' :: s) := by
      refine spacedFrom_append.mpr ⟨hname, ?_, hs.noSpace.spacedFrom ' '⟩
      intro _
      rw [hchar]
      refine ⟨rfl, ?_, hc⟩
      rintro rfl
      exact absurd (hlast ' ' hchar) (by decide)
    have hend : ∀ d, (name ++ ' ' :: s).getLast? = some d → isSpace d = false := by
      intro d hd
      rw [List.getLast?_append, List.getLast?_cons,
        List.getLast?_eq_some_getLast hs.nonempty] at hd
      obtain rfl : s.getLast hs.nonempty = d := by simpa using hd
      exact hs.noSpace _ (getLast_mem hs.nonempty)
    exact ih hread (fun w hw => hrest w (mem_cons_of_mem _ hw)) hspaced hend

end CloseQuote

theorem parseString_eq (w : Text) (rest : List Text) (trailing eof : Bool) :
    parseString ⟨w :: rest, trailing, eof⟩ =
      if w.head? = some '"' then closeQuote trailing w.tail rest
      else some (w, ⟨rest, trailing, rest.isEmpty && !trailing⟩) := rfl

/-- Reading takes a word off the stream, or meets its end. -/
theorem parseString_suffix {stream next : Stream} (hread : parseString stream = some (token, next)) :
    next.words <:+ stream.words.tail ∧ next.trailing = stream.trailing ∧
      (stream.words = [] → token = [] ∧ next.eof = true) ∧ (next.eof = true → next.words = []) := by
  obtain ⟨words, trailing, eof⟩ := stream
  cases words with
  | nil =>
    cases hread
    exact ⟨suffix_refl _, rfl, fun _ => ⟨rfl, rfl⟩, fun _ => rfl⟩
  | cons w rest =>
    rw [parseString_eq] at hread
    split_ifs at hread with hquote
    · obtain ⟨hsuffix, htrailing, heof, -⟩ := closeQuote_shape hread
      exact ⟨hsuffix, htrailing, by simp, heof⟩
    · cases hread
      exact ⟨suffix_refl _, rfl, by simp, by simp +contextual⟩

/-- Every string the reader returns meets the spacing rule. -/
theorem parseString_spaced {stream next : Stream} (hwords : ∀ w ∈ stream.words, Word w)
    (hread : parseString stream = some (token, next)) : Spaced token := by
  obtain ⟨words, trailing, eof⟩ := stream
  cases words with
  | nil =>
    cases hread
    trivial
  | cons w rest =>
    have hw : Word w := hwords w mem_cons_self
    have hrest : ∀ v ∈ rest, Word v := fun v hv => hwords v (mem_cons_of_mem _ hv)
    rw [parseString_eq] at hread
    split_ifs at hread with hquote
    · have htail : NoSpace w.tail := fun c hc => hw.noSpace c (mem_of_mem_tail hc)
      exact closeQuote_spaced hread hrest (htail.spacedFrom '"')
        (fun c hc => htail c (List.mem_of_getLast? hc))
    · cases hread
      exact hw.noSpace.spacedFrom '"'

end AllJoyn.Lighting
