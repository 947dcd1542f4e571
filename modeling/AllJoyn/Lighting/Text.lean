import AllJoyn.Lighting.Managers

/-!
The words of the text of a map, and what `ReplaceMap` makes of them when every
name and every id in it is one the reader can tell apart from its neighbours.
-/

namespace AllJoyn.Lighting

open Lib Kind List Option

/-- A string that is read back as it stands when it is written without quotes. -/
structure Plain (s : Text) : Prop where
  nonempty : s ≠ []
  noQuote : s.head? ≠ some '"'

instance (s : Text) : Decidable (Plain s) :=
  decidable_of_iff (s ≠ [] ∧ s.head? ≠ some '"') ⟨fun h => ⟨h.1, h.2⟩, fun h => ⟨h.1, h.2⟩⟩

/-- The ids an entry refers to, in the order in which they are written. -/
def Kind.idsOf (kind : Kind) (item : Item) : List Text :=
  item.lamps ++ item.lampGroups ++
    match kind with
    | .lampGroup => []
    | .sceneElement => [item.effectID]

/-! ### Words of an entry -/

def Kind.effectWords (kind : Kind) (item : Item) : List Text :=
  match kind with
  | .lampGroup => []
  | .sceneElement => effectWord :: words item.effectID

def Kind.memberWords (kind : Kind) (item : Item) : List Text :=
  (item.lamps.flatMap fun lamp => lampWord :: words lamp) ++
    (item.lampGroups.flatMap fun group => lampGroupWord :: words group) ++
    kind.effectWords item ++ [kind.ending]

def quote (name : Text) : Text := '"' :: name ++ ['"']

def Kind.entryWords (kind : Kind) (entry : Text × Text × Item) : List Text :=
  kind.keyword :: entry.1 :: words (quote entry.2.1) ++ kind.memberWords entry.2.2

/-- The text begins with white space. -/
def Apart (text : Text) : Prop := ∃ c rest, text = c :: rest ∧ isSpace c = true

theorem apart_cons (rest : Text) : Apart (' ' :: rest) := ⟨' ', rest, rfl, rfl⟩

variable {text id : Text} {kind : Kind}

theorem Apart.append (htext : Apart text) (rest : Text) : Apart (text ++ rest) := by
  obtain ⟨c, more, rfl, hc⟩ := htext
  exact ⟨c, more ++ rest, rfl, hc⟩

theorem words_append (htext : Apart text) (s : Text) :
    words (s ++ text) = words s ++ words text := by
  obtain ⟨c, rest, rfl, hc⟩ := htext
  rw [words_append_space hc, words_cons_space hc]

theorem words_flatMap (tag : Text) (htag : Word tag) (members : List Text) (htext : Apart text) :
    words ((members.flatMap fun s => ' ' :: tag ++ ' ' :: s) ++ text) =
        (members.flatMap fun s => tag :: words s) ++ words text ∧
      Apart ((members.flatMap fun s => ' ' :: tag ++ ' ' :: s) ++ text) := by
  induction members with
  | nil => exact ⟨rfl, htext⟩
  | cons s rest ih =>
    obtain ⟨hwords, hapart⟩ := ih
    constructor
    · rw [flatMap_cons, append_assoc, words_append hapart, hwords,
        flatMap_cons, append_assoc, cons_append, words_cons_space rfl,
        words_append_space rfl, words_word htag]
      rfl
    · rw [flatMap_cons, append_assoc]
      exact (apart_cons _).append _

theorem word_lampWord : Word lampWord := ⟨by decide, by decide⟩

theorem word_lampGroupWord : Word lampGroupWord := ⟨by decide, by decide⟩

theorem word_effectWord : Word effectWord := ⟨by decide, by decide⟩

theorem Kind.word_keyword (kind : Kind) : Word kind.keyword := by
  cases kind <;> exact ⟨by decide, by decide⟩

theorem Kind.word_ending (kind : Kind) : Word kind.ending := by
  cases kind <;> exact ⟨by decide, by decide⟩

theorem Kind.IsId.word (hid : kind.IsId id) : Word id := by
  refine ⟨?_, hid.noSpace⟩
  rintro rfl
  have hstart : kind.idStart = [] := prefix_nil.mp hid.start
  cases kind <;> exact absurd hstart (by decide)

theorem Kind.words_effectString (kind : Kind) (item : Item) (htext : Apart text) :
    words (kind.effectString item ++ text) = kind.effectWords item ++ words text ∧
      Apart (kind.effectString item ++ text) := by
  cases kind with
  | lampGroup => exact ⟨rfl, htext⟩
  | sceneElement =>
    refine ⟨?_, apart_cons _⟩
    rw [words_append htext, effectString, cons_append, words_cons_space rfl,
      words_append_space rfl, words_word word_effectWord]
    rfl

theorem Kind.words_entryString (kind : Kind) (hid : kind.IsId id) (name : Text) (item : Item)
    (rest : Text) :
    words (kind.entryString name id item ++ rest) =
      kind.entryWords (id, name, item) ++ words rest := by
  have hending : words (' ' :: kind.ending ++ ['\n'] ++ rest) = kind.ending :: words rest := by
    rw [append_assoc, cons_append, words_cons_space rfl, singleton_append,
      words_append_space rfl, words_word kind.word_ending]
    rfl
  have hapart : Apart (' ' :: kind.ending ++ ['\n'] ++ rest) := apart_cons _
  obtain ⟨heffectWords, heffectApart⟩ := kind.words_effectString item hapart
  obtain ⟨hgroupWords, hgroupApart⟩ :=
    words_flatMap lampGroupWord word_lampGroupWord item.lampGroups heffectApart
  obtain ⟨hlampWords, hlampApart⟩ :=
    words_flatMap lampWord word_lampWord item.lamps hgroupApart
  have hentry : kind.entryString name id item ++ rest = kind.keyword ++ ' ' :: (id ++ ' ' ::
      (quote name ++ ((item.lamps.flatMap fun s => ' ' :: lampWord ++ ' ' :: s) ++
        ((item.lampGroups.flatMap fun s => ' ' :: lampGroupWord ++ ' ' :: s) ++
          (kind.effectString item ++ (' ' :: kind.ending ++ ['\n'] ++ rest)))))) := by
    simp [entryString, quote]
  rw [hentry, words_append_space rfl, words_append_space rfl, words_append hlampApart,
    hlampWords, hgroupWords, heffectWords, hending, words_word kind.word_keyword,
    words_word hid.word]
  simp [entryWords, memberWords]

variable {items : List (Text × Text × Item)} {s : Text} {fuel : Nat}

theorem Kind.words_getString (kind : Kind) (initialState : Bool) (hitems : items ≠ [])
    (hids : ∀ entry ∈ items, kind.IsId entry.1) :
    words (kind.getString initialState items) = items.flatMap kind.entryWords := by
  rw [getString, if_neg hitems]
  clear hitems
  induction items with
  | nil => rfl
  | cons entry rest ih =>
    rw [flatMap_cons, flatMap_cons,
      kind.words_entryString (hids entry mem_cons_self),
      ih fun e he => hids e (mem_cons_of_mem _ he)]

theorem Kind.getString_getLast (kind : Kind) (initialState : Bool)
    (items : List (Text × Text × Item)) :
    (kind.getString initialState items).getLast? = some '\n' := by
  unfold getString
  by_cases hitems : items = []
  · rw [if_pos hitems]
    exact List.getLast?_concat
  · obtain ⟨front, last, rfl⟩ := (eq_nil_or_concat' items).resolve_left hitems
    rw [if_neg hitems, flatMap_append, flatMap_singleton]
    unfold entryString
    rw [← append_assoc]
    exact List.getLast?_concat

theorem Kind.stream_getString (kind : Kind) (initialState : Bool) (hitems : items ≠ [])
    (hids : ∀ entry ∈ items, kind.IsId entry.1) :
    Stream.ofText (kind.getString initialState items) =
      ⟨items.flatMap kind.entryWords, true, false⟩ := by
  unfold Stream.ofText
  rw [kind.words_getString initialState hitems hids, kind.getString_getLast]
  rfl

/-! ### Reading plain entries -/

theorem Plain.parseString (hs : Plain s) (rest : List Text) (eof : Bool) :
    parseString ⟨s :: rest, true, eof⟩ = some (s, ⟨rest, true, false⟩) :=
  parseString_cons hs.noQuote rest eof

theorem Plain.word (hs : Plain s) (hspace : NoSpace s) : words s = [s] :=
  words_word ⟨hs.nonempty, hspace⟩

theorem Kind.IsId.plain (hid : kind.IsId id) : Plain id := by
  refine ⟨hid.word.nonempty, ?_⟩
  intro hhead
  exact hid.noQuote (List.mem_of_mem_head? hhead)

theorem plain_lampWord : Plain lampWord := by decide

theorem plain_lampGroupWord : Plain lampGroupWord := by decide

theorem plain_effectWord : Plain effectWord := by decide

theorem Kind.plain_keyword (kind : Kind) : Plain kind.keyword := by
  cases kind <;> decide

theorem Kind.plain_ending (kind : Kind) : Plain kind.ending := by
  cases kind <;> decide

theorem Kind.IsId.ne (hid : kind.IsId id) (word : Text)
    (hword : word ∈ [lampWord, lampGroupWord, effectWord, kind.keyword, kind.ending, resetID,
      initialStateID]) : id ≠ word := by
  rintro rfl
  have hstart := hid.start
  revert hstart
  simp only [mem_cons, not_mem_nil, or_false] at hword
  cases kind <;> rcases hword with rfl | rfl | rfl | rfl | rfl | rfl | rfl <;> decide

theorem Kind.readMembers_lamps (kind : Kind) {lamps : List Text}
    (hlamps : ∀ s ∈ lamps, Plain s ∧ NoSpace s) (fuel : Nat) (rest : List Text) (item : Item) :
    kind.readMembers (lamps.length + fuel)
        ⟨(lamps.flatMap fun s => lampWord :: words s) ++ rest, true, false⟩ item =
      kind.readMembers fuel ⟨rest, true, false⟩ { item with lamps := item.lamps ++ lamps } := by
  induction lamps generalizing item with
  | nil => simp
  | cons s more ih =>
    obtain ⟨hplain, hspace⟩ := hlamps s mem_cons_self
    rw [length_cons, Nat.add_right_comm, readMembers, flatMap_cons,
      hplain.word hspace, cons_append, cons_append, plain_lampWord.parseString]
    simp only [bind_eq_bind, bind_some, if_true, cons_append,
      nil_append, hplain.parseString]
    rw [ih fun t ht => hlamps t (mem_cons_of_mem _ ht)]
    simp

theorem Kind.readMembers_groups (kind : Kind) {groups : List Text}
    (hgroups : ∀ s ∈ groups, Plain s ∧ NoSpace s) (fuel : Nat) (rest : List Text) (item : Item) :
    kind.readMembers (groups.length + fuel)
        ⟨(groups.flatMap fun s => lampGroupWord :: words s) ++ rest, true, false⟩ item =
      kind.readMembers fuel ⟨rest, true, false⟩
        { item with lampGroups := item.lampGroups ++ groups } := by
  induction groups generalizing item with
  | nil => simp
  | cons s more ih =>
    obtain ⟨hplain, hspace⟩ := hgroups s mem_cons_self
    have hne : lampGroupWord ≠ lampWord := by decide
    rw [length_cons, Nat.add_right_comm, readMembers, flatMap_cons,
      hplain.word hspace, cons_append, cons_append, plain_lampGroupWord.parseString]
    simp only [bind_eq_bind, bind_some, if_true, cons_append,
      nil_append, hplain.parseString, hne, if_false]
    rw [ih fun t ht => hgroups t (mem_cons_of_mem _ ht)]
    simp

theorem Kind.readMembers_ending (kind : Kind) (fuel : Nat) (rest : List Text) (item : Item) :
    kind.readMembers (fuel + 1) ⟨kind.ending :: rest, true, false⟩ item =
      some (item, ⟨rest, true, false⟩) := by
  have hlamp : kind.ending ≠ lampWord := by cases kind <;> decide
  have hgroup : kind.ending ≠ lampGroupWord := by cases kind <;> decide
  have heffect : ¬(kind = .sceneElement ∧ kind.ending = effectWord) := by cases kind <;> decide
  rw [readMembers, kind.plain_ending.parseString]
  simp [hlamp, hgroup, heffect]

theorem Kind.readMembers_eq (kind : Kind) {item : Item}
    (hids : ∀ s ∈ kind.idsOf item, Plain s ∧ NoSpace s)
    (hitem : kind = .lampGroup → item.effectID = [])
    (hfuel : item.lamps.length + item.lampGroups.length + 2 ≤ fuel) (rest : List Text) :
    kind.readMembers fuel ⟨kind.memberWords item ++ rest, true, false⟩ .empty =
      some (item, ⟨rest, true, false⟩) := by
  obtain ⟨extra, rfl⟩ := Nat.exists_eq_add_of_le hfuel
  have hlamps : ∀ s ∈ item.lamps, Plain s ∧ NoSpace s :=
    fun s hs => hids s (by simp [idsOf, hs])
  have hgroups : ∀ s ∈ item.lampGroups, Plain s ∧ NoSpace s :=
    fun s hs => hids s (by simp [idsOf, hs])
  have hsplit : item.lamps.length + item.lampGroups.length + 2 + extra =
      item.lamps.length + (item.lampGroups.length + (extra + 2)) := by omega
  rw [hsplit, memberWords, append_assoc, append_assoc, append_assoc,
    kind.readMembers_lamps hlamps, kind.readMembers_groups hgroups]
  cases kind with
  | lampGroup =>
    have hread := readMembers_ending .lampGroup (extra + 1) rest item
    have hempty : ({ lamps := item.lamps, lampGroups := item.lampGroups, effectID := [] } : Item)
        = item := by rw [← hitem rfl]
    simpa [Item.empty, effectWords, hempty] using hread
  | sceneElement =>
    obtain ⟨hplain, hspace⟩ := hids item.effectID (by simp [idsOf])
    have hlamp : effectWord ≠ lampWord := by decide
    have hgroup : effectWord ≠ lampGroupWord := by decide
    rw [readMembers, effectWords, cons_append, plain_effectWord.parseString,
      hplain.word hspace]
    simp only [bind_eq_bind, bind_some, hlamp, hgroup, if_false, true_and,
      if_true, cons_append, nil_append, hplain.parseString]
    exact readMembers_ending .sceneElement extra rest item

/-- An entry the reader can tell apart from its neighbours. -/
structure Kind.Legible (kind : Kind) (entry : Text × Text × Item) : Prop where
  name : Spaced entry.2.1
  ids : ∀ s ∈ kind.idsOf entry.2.2, Plain s

instance (kind : Kind) (entry : Text × Text × Item) : Decidable (kind.Legible entry) :=
  decidable_of_iff (Spaced entry.2.1 ∧ ∀ s ∈ kind.idsOf entry.2.2, Plain s)
    ⟨fun h => ⟨h.1, h.2⟩, fun h => ⟨h.1, h.2⟩⟩

/-- An entry as method calls leave it, with ids free of white space. -/
structure Kind.Formed (kind : Kind) (entry : Text × Text × Item) : Prop where
  id : kind.IsId entry.1
  space : ∀ s ∈ kind.idsOf entry.2.2, NoSpace s
  effect : kind = .lampGroup → entry.2.2.effectID = []

theorem length_le_flatMap (tag : Text) (members : List Text) :
    members.length ≤ (members.flatMap fun s => tag :: words s).length := by
  induction members with
  | nil => simp
  | cons s rest ih =>
    rw [flatMap_cons, length_append, length_cons, length_cons]
    omega

theorem Kind.replaceLoop_start (kind : Kind) (hid : kind.IsId id) (fuel : Nat) (rest : List Text)
    (first : Bool) (manager : Manager) :
    kind.replaceLoop (fuel + 1) ⟨kind.keyword :: id :: rest, true, false⟩ first manager =
      (parseString ⟨rest, true, false⟩).bind fun (name, stream) =>
        (kind.readMembers (stream.words.length + 1) stream .empty).bind fun (item, stream) =>
          kind.replaceLoop fuel stream false
            { manager with
              items := OrderedMap.insert id (name, item) (if first then [] else manager.items)
              blobLength := kind.countId id manager.blobLength } := by
  have hreset : kind.keyword ≠ resetID := by cases kind <;> decide
  rw [replaceLoop, kind.plain_keyword.parseString]
  simp [hreset, hid.plain.parseString, hid.ne resetID (by simp), hid.ne initialStateID (by simp)]

theorem Kind.replaceLoop_entry (kind : Kind) {entry : Text × Text × Item}
    (hformed : kind.Formed entry) (hlegible : kind.Legible entry) (fuel : Nat)
    (rest : List Text) (first : Bool) (manager : Manager) :
    kind.replaceLoop (fuel + 1) ⟨kind.entryWords entry ++ rest, true, false⟩ first manager =
      kind.replaceLoop fuel ⟨rest, true, false⟩ false
        { manager with
          items := OrderedMap.insert entry.1 entry.2 (if first then [] else manager.items)
          blobLength := kind.countId entry.1 manager.blobLength } := by
  have hfuel : entry.2.2.lamps.length + entry.2.2.lampGroups.length + 2 ≤
      (kind.memberWords entry.2.2 ++ rest).length + 1 := by
    have hlamps := length_le_flatMap lampWord entry.2.2.lamps
    have hgroups := length_le_flatMap lampGroupWord entry.2.2.lampGroups
    simp only [memberWords, length_append, length_singleton]
    omega
  rw [entryWords, append_assoc, cons_append, cons_append,
    kind.replaceLoop_start hformed.id, quote, hlegible.name.parseString]
  simp only [bind_some]
  rw [kind.readMembers_eq (fun s hs => ⟨hlegible.ids s hs, hformed.space s hs⟩) hformed.effect
    hfuel]
  rfl

/-- The loop on the text of legible entries sets them one after the other. -/
theorem Kind.replaceLoop_entries (kind : Kind) {entries : List (Text × Text × Item)}
    (hformed : ∀ entry ∈ entries, kind.Formed entry)
    (hlegible : ∀ entry ∈ entries, kind.Legible entry) (hfuel : entries.length + 2 ≤ fuel)
    (manager : Manager) :
    (kind.replaceLoop fuel ⟨entries.flatMap kind.entryWords, true, false⟩ false manager).map
        Manager.items =
      some (entries.foldl (fun map entry => OrderedMap.insert entry.1 entry.2 map)
        manager.items) := by
  obtain ⟨extra, rfl⟩ := Nat.exists_eq_add_of_le hfuel
  rw [show entries.length + 2 + extra = entries.length + (extra + 2) by omega]
  clear hfuel
  induction entries generalizing manager with
  | nil =>
    have hreset : ([] : Text) ≠ resetID := by decide
    have hkeyword : ([] : Text) ≠ kind.keyword := kind.plain_keyword.nonempty.symm
    have hend : parseString ⟨[], true, false⟩ = some ([], ⟨[], true, true⟩) := rfl
    rw [length_nil, Nat.zero_add, flatMap_nil, replaceLoop, hend]
    simp [hreset, hkeyword, replaceLoop]
  | cons entry rest ih =>
    obtain ⟨hentry, hrest⟩ := forall_mem_cons.mp hformed
    obtain ⟨hreadable, hlater⟩ := forall_mem_cons.mp hlegible
    rw [length_cons, Nat.add_right_comm, flatMap_cons,
      kind.replaceLoop_entry hentry hreadable, ih hrest hlater]
    rfl

end AllJoyn.Lighting
