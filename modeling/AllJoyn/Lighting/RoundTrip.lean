import AllJoyn.Lighting.Reader
import Mathlib.Data.Finset.Max

/-!
When the text of a map gives the map back. The names must meet the spacing rule
because every string the reader returns does. Given that, the words of the text
follow a grammar in which the reader never stops inside a name; an id that is
not plain could then only come from a longer one of the same kind, and an
empty effect from nowhere.
-/

namespace AllJoyn.Lighting

open Lib Kind Option

variable {place after : Place} {more : List Text}

/-! ### The grammar of a text -/

/-- Where in an entry the reader stands. -/
inductive Place where
  | entry
  | id
  | name
  | inName
  | members
  | member
  | effect
  | ending
  deriving DecidableEq, Repr

/-- The words that can stand at a place of a text in which the ids `written`
are referred to, and the place behind them. -/
inductive Kind.Next (kind : Kind) (written : List Text) : Place → Text → Place → Prop
  | keyword : Next kind written .entry kind.keyword .id
  | id {id : Text} (hid : kind.IsId id) : Next kind written .id id .name
  | closed {s : Text} (hs : s.getLast? = some '"') : Next kind written .name ('"' :: s) .members
  | opened {s : Text} (hne : s ≠ []) (hs : s.getLast? ≠ some '"') :
      Next kind written .name ('"' :: s) .inName
  | inside {s : Text} (hs : s.getLast? ≠ some '"') : Next kind written .inName s .inName
  | close {s : Text} (hs : s.getLast? = some '"') : Next kind written .inName s .members
  | tag {t : Text} (ht : t = lampWord ∨ t = lampGroupWord) : Next kind written .members t .member
  | tagEmpty {t : Text} (ht : t = lampWord ∨ t = lampGroupWord) (hempty : [] ∈ written) :
      Next kind written .members t .members
  | member {s : Text} (hne : s ≠ []) (hs : s ∈ written) : Next kind written .member s .members
  | effectTag (hkind : kind = .sceneElement) : Next kind written .members effectWord .effect
  | effectEmpty (hkind : kind = .sceneElement) : Next kind written .members effectWord .ending
  | effect {s : Text} (hne : s ≠ []) (hs : s ∈ written) : Next kind written .effect s .ending
  | noEffect (hkind : kind = .lampGroup) : Next kind written .members kind.ending .entry
  | ending : Next kind written .ending kind.ending .entry

/-- The words from a place to the end of the text. -/
inductive Kind.Reads (kind : Kind) (written : List Text) : Place → List Text → Prop
  | done : Reads kind written .entry []
  | next {place after : Place} {w : Text} {rest : List Text} (hw : kind.Next written place w after)
      (hrest : Reads kind written after rest) : Reads kind written place (w :: rest)

/-- The ids an item writes as words, an empty effect apart. -/
def Item.references (item : Item) : List Text :=
  item.lamps ++ item.lampGroups ++ if item.effectID = [] then [] else [item.effectID]

variable {kind : Kind} {written : List Text} {w name tag s token : Text} {rest : List Text}
  {item : Item} {place : Place} {next stream : Stream} {fuel : Nat} {manager : Manager}

theorem Quoted.reads_inName (hquoted : Quoted w rest name)
    (hmore : kind.Reads written .members more) :
    kind.Reads written .inName (w :: rest ++ more) := by
  induction hquoted with
  | last name hname => exact .next (.close (by simp)) hmore
  | more hw hopen hrest ih => exact .next (.inside hopen) ih

theorem Spaced.reads (hname : Spaced name) (hmore : kind.Reads written .members more) :
    kind.Reads written .name (words (quote name) ++ more) := by
  obtain ⟨w, rest, hwords, hquoted⟩ := hname.words_quoted
  rw [quote, hwords]
  cases hquoted with
  | last name hlast => exact .next (.closed (by simp)) hmore
  | more hw hopen hrest => exact .next (.opened hw.nonempty hopen) (hrest.reads_inName hmore)

theorem Kind.reads_tagged (htag : tag = lampWord ∨ tag = lampGroupWord) (members : List Text)
    (hspace : ∀ s ∈ members, NoSpace s) (hwritten : ∀ s ∈ members, s ∈ written)
    (hmore : kind.Reads written .members more) :
    kind.Reads written .members ((members.flatMap fun s => tag :: words s) ++ more) := by
  induction members with
  | nil => exact hmore
  | cons s rest ih =>
    have hs : s ∈ written := hwritten s List.mem_cons_self
    have hrest := ih (fun t ht => hspace t (List.mem_cons_of_mem _ ht))
      (fun t ht => hwritten t (List.mem_cons_of_mem _ ht))
    rw [List.flatMap_cons, List.append_assoc, words_noSpace (hspace s List.mem_cons_self)]
    by_cases hempty : s = []
    · rw [if_pos hempty]
      exact .next (.tagEmpty htag (hempty ▸ hs)) hrest
    · rw [if_neg hempty]
      exact .next (.tag htag) (.next (.member hempty hs) hrest)

theorem Kind.reads_effect (hspace : ∀ s ∈ kind.idsOf item, NoSpace s)
    (hwritten : ∀ s ∈ item.references, s ∈ written) (hmore : kind.Reads written .entry more) :
    kind.Reads written .members (kind.effectWords item ++ kind.ending :: more) := by
  cases kind with
  | lampGroup => exact .next (.noEffect rfl) hmore
  | sceneElement =>
    have heffect : NoSpace item.effectID := hspace _ (by simp [idsOf])
    rw [effectWords, words_noSpace heffect]
    by_cases hempty : item.effectID = []
    · rw [if_pos hempty]
      exact .next (.effectEmpty rfl) (.next .ending hmore)
    · rw [if_neg hempty]
      have hmem : item.effectID ∈ written := hwritten _ (by simp [Item.references, hempty])
      exact .next (.effectTag rfl) (.next (.effect hempty hmem) (.next .ending hmore))

theorem Kind.reads_entry {entry : Text × Text × Item} (hformed : kind.Formed entry)
    (hname : Spaced entry.2.1) (hwritten : ∀ s ∈ entry.2.2.references, s ∈ written)
    (hmore : kind.Reads written .entry more) :
    kind.Reads written .entry (kind.entryWords entry ++ more) := by
  have heffect := reads_effect hformed.space hwritten hmore
  have hgroups := reads_tagged (.inr rfl) entry.2.2.lampGroups
    (fun s hs => hformed.space s (by simp [idsOf, hs]))
    (fun s hs => hwritten s (by simp [Item.references, hs])) heffect
  have hlamps := reads_tagged (.inl rfl) entry.2.2.lamps
    (fun s hs => hformed.space s (by simp [idsOf, hs]))
    (fun s hs => hwritten s (by simp [Item.references, hs])) hgroups
  have hentry := Kind.Reads.next .keyword (.next (.id hformed.id) (hname.reads hlamps))
  simpa [entryWords, memberWords] using hentry

theorem Kind.reads_entries {entries : List (Text × Text × Item)}
    (hformed : ∀ entry ∈ entries, kind.Formed entry)
    (hnames : ∀ entry ∈ entries, Spaced entry.2.1)
    (hwritten : ∀ entry ∈ entries, ∀ s ∈ entry.2.2.references, s ∈ written) :
    kind.Reads written .entry (entries.flatMap kind.entryWords) := by
  induction entries with
  | nil => exact .done
  | cons entry rest ih =>
    rw [List.forall_mem_cons] at hformed hnames hwritten
    exact reads_entry hformed.1 hnames.1 hwritten.1 (ih hformed.2 hnames.2 hwritten.2)

/-! ### The reader on the grammar -/

theorem Kind.Next.of_quote (hnext : kind.Next written place ('"' :: s) after)
    (hplace : place ≠ .inName) : place = .name ∨ '"' :: s ∈ written := by
  generalize hw : '"' :: s = w at hnext
  have hquote : w.head? = some '"' := hw ▸ rfl
  cases hnext with
  | keyword => exact absurd hquote kind.plain_keyword.noQuote
  | id hid => exact absurd hquote hid.plain.noQuote
  | closed | opened => exact .inl rfl
  | inside | close => contradiction
  | tag ht | tagEmpty ht =>
    rcases ht with rfl | rfl
    · exact absurd hquote plain_lampWord.noQuote
    · exact absurd hquote plain_lampGroupWord.noQuote
  | member hne hs | effect hne hs => exact .inr hs
  | effectTag | effectEmpty => exact absurd hquote plain_effectWord.noQuote
  | noEffect | ending => exact absurd hquote kind.plain_ending.noQuote

theorem Kind.getLast_ne_quote (kind : Kind)
    (hw : w ∈ [lampWord, lampGroupWord, effectWord, kind.keyword, kind.ending]) :
    w.getLast? ≠ some '"' := by
  simp only [List.mem_cons, List.not_mem_nil, or_false] at hw
  cases kind <;> rcases hw with rfl | rfl | rfl | rfl | rfl <;> decide

theorem Kind.Next.of_getLast (hnext : kind.Next written place w after) (hw : w.getLast? = some '"') :
    after ≠ .name ∧ after ≠ .inName ∧ (place = .inName → after = .members) := by
  cases hnext with
  | id hid => exact absurd (List.mem_of_getLast? hw) hid.noQuote
  | opened hne hs =>
    rw [List.getLast?_cons, List.getLast?_eq_some_getLast hne] at hw
    exact absurd (by simpa using hw) (List.getLast?_eq_some_getLast hne ▸ hs)
  | inside hs => exact absurd hw hs
  | keyword | closed | close | tag | tagEmpty | member | effectTag | effectEmpty | effect |
    noEffect | ending => simp

/-- Looking for the closing quote steps through the grammar and stops outside
a name. -/
theorem Kind.Reads.closeQuote (hreads : kind.Reads written place rest)
    (hread : closeQuote true name rest = some (token, next))
    (hname : name.getLast? = some '"' → place ≠ .name ∧ place ≠ .inName) :
    ∃ after more, next = ⟨more, true, false⟩ ∧ kind.Reads written after more ∧
      after ≠ .name ∧ after ≠ .inName ∧ (name.getLast? = some '"' → after = place) ∧
      (place = .inName → after = .members) := by
  induction hreads generalizing name with
  | done =>
    unfold Lighting.closeQuote at hread
    split at hread
    · cases hread
    · next c hlast =>
      split_ifs at hread
      cases hread
      exact ⟨.entry, [], rfl, .done, by simp, by simp, fun _ => rfl, by simp⟩
  | @next place mid w rest hw hrest ih =>
    unfold Lighting.closeQuote at hread
    split at hread
    · cases hread
    · next c hlast =>
      split_ifs at hread with hc
      · subst hc
        cases hread
        obtain ⟨hplace, hin⟩ := hname hlast
        exact ⟨place, w :: rest, rfl, .next hw hrest, hplace, hin, fun _ => rfl,
          fun h => absurd h hin⟩
      · have hopen : name.getLast? ≠ some '"' := by
          rw [hlast]
          simpa using hc
        have hend : (name ++ ' ' :: w).getLast? = some '"' → w.getLast? = some '"' := by
          rw [List.getLast?_append, List.getLast?_cons]
          cases w.getLast? with
          | none => simp
          | some d => simp
        obtain ⟨after, more, rfl, hmore, hne, hin, hsame, hmembers⟩ := ih hread
          fun h => ⟨(hw.of_getLast (hend h)).1, (hw.of_getLast (hend h)).2.1⟩
        refine ⟨after, more, rfl, hmore, hne, hin, fun h => absurd h hopen, ?_⟩
        rintro rfl
        cases hw with
        | inside hs => exact hmembers rfl
        | close hs =>
          refine hsame ?_
          rw [List.getLast?_append, List.getLast?_cons, hs]
          rfl

theorem Kind.Next.of_noQuote (hnext : kind.Next written place w after) (hplace : place ≠ .inName)
    (hw : w.head? ≠ some '"') : place ≠ .name ∧ after ≠ .inName ∧ Plain w := by
  cases hnext with
  | keyword => exact ⟨by simp, by simp, kind.plain_keyword⟩
  | id hid => exact ⟨by simp, by simp, hid.plain⟩
  | closed | opened => simp at hw
  | inside | close => contradiction
  | tag ht | tagEmpty ht =>
    refine ⟨by simp, by simp, ?_⟩
    rcases ht with rfl | rfl
    · exact plain_lampWord
    · exact plain_lampGroupWord
  | member hne | effect hne => exact ⟨by simp, by simp, hne, hw⟩
  | effectTag | effectEmpty => exact ⟨by simp, by simp, plain_effectWord⟩
  | noEffect | ending => exact ⟨by simp, by simp, kind.plain_ending⟩

/-- Reading a string steps through the grammar. A string without white space
is one word, as it stands or in quotes. -/
theorem Kind.Reads.step (hreads : kind.Reads written place rest) (hplace : place ≠ .inName)
    {eof : Bool} (hread : parseString ⟨rest, true, eof⟩ = some (token, next)) :
    ∃ after more eof, next = ⟨more, true, eof⟩ ∧ kind.Reads written after more ∧
      after ≠ .inName ∧
      (rest = [] ∧ token = [] ∨
        (place = .name → after = .members) ∧
          (NoSpace token → ∃ w, kind.Next written place w after ∧
            (w = token ∧ Plain token ∨ w = quote token))) := by
  cases hreads with
  | done =>
    rw [parseString_nil] at hread
    cases hread
    exact ⟨.entry, [], true, rfl, .done, by simp, .inl ⟨rfl, rfl⟩⟩
  | @next _ mid w rest hw hrest =>
    rw [parseString_eq] at hread
    by_cases hquote : w.head? = some '"'
    · obtain ⟨s, rfl⟩ : ∃ s, w = '"' :: s := ⟨w.tail, (List.cons_head?_tail hquote).symm⟩
      rw [if_pos hquote, List.tail_cons] at hread
      -- The closing quote of `s` is also that of the word.
      have hlast : s.getLast? = some '"' → ('"' :: s).getLast? = some '"' := by
        intro hs
        rw [List.getLast?_cons, hs]
        rfl
      obtain ⟨after, more, rfl, hmore, hname, hin, hsame, hmembers⟩ := hrest.closeQuote hread
        fun hs => ⟨(hw.of_getLast (hlast hs)).1, (hw.of_getLast (hlast hs)).2.1⟩
      refine ⟨after, more, false, rfl, hmore, hin, .inr ⟨?_, ?_⟩⟩
      · rintro rfl
        cases hw with
        | closed hs => exact hsame hs
        | opened hne hs => exact hmembers rfl
      · intro hspace
        obtain ⟨-, -, -, ⟨-, rfl⟩ | hblank⟩ := closeQuote_shape hread
        · obtain rfl := hsame (by simp)
          exact ⟨_, hw, .inr rfl⟩
        · exact absurd (hspace ' ' hblank) (by decide)
    · rw [if_neg hquote] at hread
      cases hread
      obtain ⟨hname, hmid, hplain⟩ := hw.of_noQuote hplace hquote
      refine ⟨mid, rest, false, by simp, hrest, hmid, .inr ⟨fun h => absurd h hname, ?_⟩⟩
      intro _
      exact ⟨_, hw, .inl ⟨rfl, hplain⟩⟩

/-! ### Ids that are not plain -/

/-- The reader stands at a place of the grammar, outside a name. -/
def Kind.Stands (kind : Kind) (written : List Text) (stream : Stream) : Prop :=
  ∃ place rest eof, stream = ⟨rest, true, eof⟩ ∧ kind.Reads written place rest ∧
    place ≠ .inName

theorem Kind.Stands.step (hstands : kind.Stands written stream)
    (hread : parseString stream = some (token, next)) : kind.Stands written next := by
  obtain ⟨place, rest, eof, rfl, hreads, hplace⟩ := hstands
  obtain ⟨after, more, eof, rfl, hmore, hafter, -⟩ := hreads.step hplace hread
  exact ⟨after, more, eof, rfl, hmore, hafter⟩

theorem noSpace_tag (htag : tag = lampWord ∨ tag = lampGroupWord ∨ tag = effectWord) :
    NoSpace tag := by
  rcases htag with rfl | rfl | rfl <;> decide

/-- Behind a tag, as it stands or in quotes, comes neither a name nor the end
of the text. -/
theorem Kind.Next.of_tag {after : Place} (hnext : kind.Next written place w after)
    (htag : tag = lampWord ∨ tag = lampGroupWord ∨ tag = effectWord) (hw : w = tag ∨ w = quote tag) :
    after ≠ .name ∧ after ≠ .entry := by
  have hid : ∀ id, kind.IsId id → id ≠ w := by
    rintro id hid rfl
    rcases hw with rfl | rfl
    · exact hid.ne id (by rcases htag with rfl | rfl | rfl <;> simp) rfl
    · exact hid.noQuote (by simp [quote])
  have hending : kind.ending ≠ w := by
    rintro rfl
    cases kind <;> rcases hw with hw | hw <;> rcases htag with rfl | rfl | rfl <;>
      exact absurd hw (by decide)
  cases hnext with
  | id h => exact absurd rfl (hid _ h)
  | noEffect | ending => exact absurd rfl hending
  | keyword | closed | opened | inside | close | tag | tagEmpty | member | effectTag |
    effectEmpty | effect => simp

/-- An id read behind a tag is plain, or it has been written in quotes. -/
theorem Kind.Stands.member {after : Stream} {member : Text} (hstands : kind.Stands written stream)
    (htoken : parseString stream = some (tag, next))
    (htag : tag = lampWord ∨ tag = lampGroupWord ∨ tag = effectWord)
    (hmember : parseString next = some (member, after)) (hspace : NoSpace member) :
    Plain member ∨ quote member ∈ written := by
  obtain ⟨place, rest, eof, rfl, hreads, hplace⟩ := hstands
  obtain ⟨mid, more, eof, rfl, hmore, hmid, hfirst⟩ := hreads.step hplace htoken
  rcases hfirst with ⟨-, hempty⟩ | ⟨-, hfirst⟩
  · rcases htag with rfl | rfl | rfl <;> exact absurd hempty (by decide)
  obtain ⟨w, hw, htagWord⟩ := hfirst (noSpace_tag htag)
  obtain ⟨hname, hentry⟩ := hw.of_tag htag (htagWord.imp_left And.left)
  obtain ⟨last, rest, eof, rfl, hlast, -, hsecond⟩ := hmore.step hmid hmember
  rcases hsecond with ⟨rfl, -⟩ | ⟨-, hsecond⟩
  · cases hmore
    contradiction
  obtain ⟨w, hw, ⟨-, hplain⟩ | rfl⟩ := hsecond hspace
  · exact .inl hplain
  · exact .inr ((hw.of_quote hmid).resolve_left hname)

/-- Every id of the item is plain or has been written in quotes. -/
structure Item.Explained (written : List Text) (item : Item) : Prop where
  members : ∀ s ∈ item.lamps ++ item.lampGroups, NoSpace s → Plain s ∨ quote s ∈ written
  effect : item.effectID ≠ [] → NoSpace item.effectID →
    Plain item.effectID ∨ quote item.effectID ∈ written

theorem Item.Explained.takes {member : Text} {next : Item} (hitem : item.Explained written)
    (htakes : kind.Takes tag member item next)
    (hmember : NoSpace member → Plain member ∨ quote member ∈ written) :
    next.Explained written := by
  rcases htakes with ⟨-, rfl⟩ | ⟨-, rfl⟩ | ⟨-, rfl⟩
  · refine ⟨?_, hitem.effect⟩
    intro s hs
    simp only [List.mem_append, List.mem_singleton] at hs
    rcases hs with (hold | rfl) | hgroup
    · exact hitem.members s (List.mem_append_left _ hold)
    · exact hmember
    · exact hitem.members s (List.mem_append_right _ hgroup)
  · refine ⟨?_, hitem.effect⟩
    intro s hs
    simp only [List.mem_append, List.mem_singleton] at hs
    rcases hs with hlamp | hold | rfl
    · exact hitem.members s (List.mem_append_left _ hlamp)
    · exact hitem.members s (List.mem_append_right _ hold)
    · exact hmember
  · exact ⟨hitem.members, fun _ => hmember⟩

theorem Kind.Stands.readMembers {last : Stream} (hstands : kind.Stands written stream)
    (hread : kind.readMembers fuel stream .empty = some (item, last)) : item.Explained written := by
  obtain ⟨_, _, ⟨-, hitem⟩, -⟩ := readMembers_invariant
    (fun stream item => kind.Stands written stream ∧ item.Explained written)
    (fun hinv htoken hmember htakes =>
      ⟨(hinv.1.step htoken).step hmember,
        hinv.2.takes htakes (hinv.1.member htoken htakes.tag hmember)⟩)
    hread ⟨hstands, by simp [Item.empty], by simp [Item.empty]⟩
  exact hitem

/-- A finite set of ids in which every id that is not plain comes with its
quoted form, which is longer and not plain either, has only plain ids. -/
theorem plain_of_quote_mem
    (hquote : ∀ s ∈ written, Plain s ∨ quote s ∈ written) : ∀ s ∈ written, Plain s := by
  by_contra hbad
  push Not at hbad
  obtain ⟨s, hs, hplain⟩ := hbad
  obtain ⟨longest, hlongest, hmax⟩ := Finset.exists_max_image
    (written.toFinset.filter fun t => ¬Plain t) List.length
    ⟨s, by simp [hs, hplain]⟩
  simp only [Finset.mem_filter, List.mem_toFinset] at hlongest hmax
  have hmem : quote longest ∈ written := (hquote longest hlongest.1).resolve_left hlongest.2
  have hlonger := hmax (quote longest) ⟨hmem, fun hplain => hplain.noQuote rfl⟩
  simp only [quote, List.length_append, List.length_cons, List.length_nil] at hlonger
  omega

/-! ### Empty effects -/

/-- The reader stands behind the name of an entry or behind one of its ids. -/
def Kind.AtMembers (kind : Kind) (written : List Text) (stream : Stream) : Prop :=
  ∃ rest eof, stream = ⟨rest, true, eof⟩ ∧ kind.Reads written .members rest

theorem Kind.Stands.member_ne (hplain : ∀ s ∈ written, Plain s) {after : Stream} {member : Text}
    (hstands : kind.Stands written stream) (htoken : parseString stream = some (tag, next))
    (htag : tag = lampWord ∨ tag = lampGroupWord ∨ tag = effectWord)
    (hmember : parseString next = some (member, after)) : member ≠ [] := by
  rintro rfl
  rcases hstands.member htoken htag hmember (by simp [NoSpace]) with hempty | hquoted
  · exact hempty.nonempty rfl
  · exact (hplain _ hquoted).noQuote rfl

/-- With plain ids, a scene element reads a tag where its members stand, and
behind a lamp or a lamp group it reads the next one. -/
theorem Kind.AtMembers.step (hkind : kind = .sceneElement) (hplain : ∀ s ∈ written, Plain s)
    (hmembers : kind.AtMembers written stream) (htoken : parseString stream = some (token, next)) :
    token = effectWord ∨ (token = lampWord ∨ token = lampGroupWord) ∧
      ∀ {member : Text} {after : Stream}, parseString next = some (member, after) →
        kind.AtMembers written after := by
  obtain ⟨rest, eof, rfl, hreads⟩ := hmembers
  cases hreads with
  | @next _ _ w _ hw hrest =>
    cases hw with
    | tag ht =>
      have htag : Plain w := by
        rcases ht with rfl | rfl
        · exact plain_lampWord
        · exact plain_lampGroupWord
      rw [htag.parseString] at htoken
      cases htoken
      refine .inr ⟨ht, ?_⟩
      intro member after hmember
      cases hrest with
      | next hw hrest =>
        cases hw with
        | member hne hs =>
          rw [(hplain _ hs).parseString] at hmember
          cases hmember
          exact ⟨_, false, rfl, hrest⟩
    | tagEmpty ht hempty => exact absurd rfl (hplain _ hempty).nonempty
    | effectTag | effectEmpty =>
      rw [plain_effectWord.parseString] at htoken
      cases htoken
      exact .inl rfl
    | noEffect h => rw [hkind] at h; contradiction

/-- With plain ids, the members of a scene element end with an effect. -/
theorem Kind.AtMembers.effect_ne (hkind : kind = .sceneElement) (hplain : ∀ s ∈ written, Plain s)
    {last : Stream} (hmembers : kind.AtMembers written stream)
    (hread : kind.readMembers fuel stream .empty = some (item, last)) : item.effectID ≠ [] := by
  have hstands : kind.Stands written stream := by
    obtain ⟨rest, eof, rfl, hreads⟩ := hmembers
    exact ⟨.members, rest, eof, rfl, hreads, by simp⟩
  obtain ⟨before, token, ⟨-, hbefore⟩, htoken, htag⟩ := readMembers_invariant
    (fun stream item => kind.Stands written stream ∧
      (item.effectID ≠ [] ∨ kind.AtMembers written stream))
    (by
      intro stream next after token member item more hinv htoken hmember htakes
      refine ⟨(hinv.1.step htoken).step hmember, ?_⟩
      have hne := hinv.1.member_ne hplain htoken htakes.tag hmember
      have hkept (heffect : more.effectID = item.effectID)
          (htag : token = lampWord ∨ token = lampGroupWord) :
          more.effectID ≠ [] ∨ kind.AtMembers written after := by
        rw [heffect]
        refine hinv.2.imp_right fun hat => ?_
        rcases hat.step hkind hplain htoken with rfl | ⟨-, hnext⟩
        · rcases htag with h | h <;> exact absurd h (by decide)
        · exact hnext hmember
      rcases htakes with ⟨htag, rfl⟩ | ⟨htag, rfl⟩ | ⟨-, rfl⟩
      · exact hkept rfl (.inl htag)
      · exact hkept rfl (.inr htag)
      · exact .inl hne)
    hread ⟨hstands, .inr hmembers⟩
  refine hbefore.resolve_right fun hat => htag ?_
  rcases hat.step hkind hplain htoken with h | ⟨h | h, -⟩
  · exact .inr (.inr ⟨hkind, h⟩)
  · exact .inl h
  · exact .inr (.inl h)

theorem Kind.Next.of_keyword (hkind : kind = .sceneElement) {mid after : Place} {v id : Text}
    (hfirst : kind.Next written place w mid) (hmid : mid ≠ .inName)
    (hw : w = kind.keyword ∨ w = quote kind.keyword) (hsecond : kind.Next written mid v after)
    (hid : kind.IsId id) (hv : v = id ∨ v = quote id) : after = .name := by
  have hwords : ∀ t ∈ [lampWord, lampGroupWord, effectWord, kind.keyword, kind.ending], v ≠ t := by
    rintro t ht rfl
    rcases hv with rfl | rfl
    · exact hid.ne v (List.mem_append_left [resetID, initialStateID] ht) rfl
    · exact kind.getLast_ne_quote ht List.getLast?_concat
  have hnotId : ∀ i, kind.IsId i → w ≠ i := by
    rintro i hi rfl
    rcases hw with rfl | rfl
    · exact hi.ne _ (by simp) rfl
    · exact hi.noQuote (by simp [quote])
  have hnotTag : ∀ t, t = lampWord ∨ t = lampGroupWord ∨ t = effectWord → w ≠ t := by
    subst hkind
    rintro t ht rfl
    rcases hw with h | h <;> rcases ht with rfl | rfl | rfl <;> exact absurd h (by decide)
  cases hsecond with
  | keyword => exact absurd rfl (hwords _ (by simp))
  | id => rfl
  | closed | opened =>
    cases hfirst with
    | id h => exact absurd rfl (hnotId _ h)
  | inside | close => contradiction
  | tag ht | tagEmpty ht =>
    rcases ht with rfl | rfl
    · exact absurd rfl (hwords lampWord (by simp))
    · exact absurd rfl (hwords lampGroupWord (by simp))
  | member =>
    cases hfirst with
    | tag ht => exact absurd rfl (hnotTag _ (ht.imp_right .inl))
  | effectTag | effectEmpty => exact absurd rfl (hwords _ (by simp))
  | effect =>
    cases hfirst with
    | effectTag => exact absurd rfl (hnotTag _ (.inr (.inr rfl)))
  | noEffect | ending => exact absurd rfl (hwords _ (by simp))

theorem Kind.Stands.entry (hkind : kind = .sceneElement) {afterKeyword afterId afterName : Stream}
    {id : Text} (hstands : kind.Stands written stream)
    (hkeyword : parseString stream = some (kind.keyword, afterKeyword))
    (hid : parseString afterKeyword = some (id, afterId))
    (hname : parseString afterId = some (name, afterName)) (hdrawn : kind.IsId id) :
    kind.AtMembers written afterName := by
  obtain ⟨place, rest, eof, rfl, hreads, hplace⟩ := hstands
  obtain ⟨mid, rest, eof, rfl, hmore, hmid, hfirst⟩ := hreads.step hplace hkeyword
  rcases hfirst with ⟨-, hempty⟩ | ⟨-, hfirst⟩
  · exact absurd hempty kind.plain_keyword.nonempty
  obtain ⟨w, hw, hkeywordWord⟩ := hfirst kind.word_keyword.noSpace
  obtain ⟨after, rest, eof, rfl, hlast, hafter, hsecond⟩ := hmore.step hmid hid
  rcases hsecond with ⟨-, hempty⟩ | ⟨-, hsecond⟩
  · exact absurd hempty hdrawn.plain.nonempty
  obtain ⟨v, hv, hidWord⟩ := hsecond hdrawn.noSpace
  obtain rfl : after = .name := Kind.Next.of_keyword hkind hw hmid
    (hkeywordWord.imp_left And.left) hv hdrawn (hidWord.imp_left And.left)
  obtain ⟨last, rest, eof, rfl, hend, -, hthird⟩ := hlast.step hafter hname
  rcases hthird with ⟨rfl, -⟩ | ⟨hplace, -⟩
  · cases hlast
  · obtain rfl := hplace rfl
    exact ⟨rest, eof, rfl, hend⟩

/-! ### Round trip -/

theorem Item.mem_ids_of_mem_references (hitem : kind = .lampGroup → item.effectID = [])
    (hs : s ∈ item.references) : s ∈ kind.idsOf item := by
  cases kind with
  | lampGroup => simpa [Item.references, idsOf, hitem rfl] using hs
  | sceneElement =>
    by_cases hempty : item.effectID = []
    · simp only [Item.references, hempty, if_true, List.append_nil] at hs
      exact List.mem_append_left _ hs
    · simpa [Item.references, idsOf, hempty] using hs

/-- A map that its text gives back is legible. -/
theorem Kind.legible_of_replaceLoop {items : List (Text × Text × Item)} (hne : items ≠ [])
    (hformed : ∀ entry ∈ items, kind.Formed entry)
    (hwords : ∀ w ∈ items.flatMap kind.entryWords, Word w) {previous result : Manager}
    (hrun : kind.replaceLoop fuel ⟨items.flatMap kind.entryWords, true, false⟩ true previous =
      some result) (hresult : result.items = items) : ∀ entry ∈ items, kind.Legible entry := by
  obtain ⟨first, rest, hitems⟩ := List.exists_cons_of_ne_nil hne
  obtain ⟨more, hfront⟩ : ∃ more,
      items.flatMap kind.entryWords = kind.keyword :: first.1 :: more := by
    rw [hitems]
    exact ⟨_, rfl⟩
  have hfirst : kind.IsId first.1 := (hformed first (hitems ▸ List.mem_cons_self)).id
  have hnames : ∀ entry ∈ items, Spaced entry.2.1 := by
    rw [← hresult]
    rw [hfront] at hrun hwords
    refine replaceLoop_fresh (fun stream => ∀ w ∈ stream.words, Word w)
      (fun entry => Spaced entry.2.1) ?_ ?_ hfirst hwords hrun
    · intro stream next token hinv hread w hw
      exact hinv w (List.mem_of_mem_tail ((parseString_suffix hread).1.subset hw))
    · intro stream afterKeyword afterId _ _ _ _ _ _ hinv hkeyword hid hname _
      refine parseString_spaced ?_ hname
      intro w hw
      have hmem := (parseString_suffix hid).1.subset hw
      exact hinv w (List.mem_of_mem_tail
        ((parseString_suffix hkeyword).1.subset (List.mem_of_mem_tail hmem)))
  let written := items.flatMap fun entry => entry.2.2.references
  have hwritten : ∀ entry ∈ items, ∀ s ∈ entry.2.2.references, s ∈ written :=
    fun entry hentry s hs => List.mem_flatMap.mpr ⟨entry, hentry, hs⟩
  have hstands : kind.Stands written ⟨items.flatMap kind.entryWords, true, false⟩ :=
    ⟨.entry, _, false, rfl, reads_entries hformed hnames hwritten, by simp⟩
  rw [hfront] at hrun hstands
  have hexplained : ∀ entry ∈ items, entry.2.2.Explained written := by
    rw [← hresult]
    refine replaceLoop_fresh (kind.Stands written)
      (fun entry => entry.2.2.Explained written) (fun hinv hread => hinv.step hread) ?_
      hfirst hstands hrun
    intro _ _ _ _ _ _ _ _ _ hinv hkeyword hid hname hmembers
    exact (((hinv.step hkeyword).step hid).step hname).readMembers hmembers
  have hplain : ∀ s ∈ written, Plain s := by
    refine plain_of_quote_mem ?_
    intro s hs
    obtain ⟨entry, hentry, hs⟩ := List.mem_flatMap.mp hs
    have hnoSpace : NoSpace s := (hformed entry hentry).space s
      (Item.mem_ids_of_mem_references (hformed entry hentry).effect hs)
    rcases List.mem_append.mp hs with hmember | heffect
    · exact (hexplained entry hentry).members s hmember hnoSpace
    · by_cases hempty : entry.2.2.effectID = []
      · simp [hempty] at heffect
      · rw [if_neg hempty, List.mem_singleton] at heffect
        subst heffect
        exact (hexplained entry hentry).effect hempty hnoSpace
  intro entry hentry
  refine ⟨hnames entry hentry, ?_⟩
  intro s hs
  rcases List.mem_append.mp hs with hmember | heffect
  · exact hplain s (hwritten entry hentry s (List.mem_append_left _ hmember))
  · cases hkind : kind with
    | lampGroup => simp [hkind] at heffect
    | sceneElement =>
      simp only [hkind, List.mem_singleton] at heffect
      subst heffect
      have heffects : ∀ entry ∈ items, kind.IsId entry.1 → entry.2.2.effectID ≠ [] := by
        rw [← hresult]
        refine replaceLoop_fresh (kind.Stands written)
          (fun entry => kind.IsId entry.1 → entry.2.2.effectID ≠ [])
          (fun hinv hread => hinv.step hread) ?_ hfirst hstands hrun
        intro _ _ _ _ _ _ _ _ _ hinv hkeyword hid hname hmembers hdrawn
        exact (hinv.entry hkind hkeyword hid hname hdrawn).effect_ne hkind hplain hmembers
      have hne := heffects entry hentry (hformed entry hentry).id
      exact hplain _ (hwritten entry hentry _ (by simp [Item.references, hne]))

/-- `ReplaceMap`, from the previous map, on the text of the map. -/
def Kind.Restores (kind : Kind) (manager previous : Manager) : Prop :=
  (kind.replaceMap previous (kind.getString manager.initialState manager.items)).map
    Manager.items = some manager.items

instance (kind : Kind) (manager previous : Manager) : Decidable (kind.Restores manager previous) :=
  inferInstanceAs (Decidable (_ = _))

theorem Kind.replaceLoop_ending (kind : Kind) (fuel : Nat) (first : Bool) (manager : Manager) :
    kind.replaceLoop (fuel + 3) ⟨[kind.ending], true, false⟩ first manager = some manager := by
  have hreset : kind.ending ≠ resetID := by cases kind <;> decide
  have hkeyword : kind.ending ≠ kind.keyword := by cases kind <;> decide
  have hemptyReset : ([] : Text) ≠ resetID := by decide
  have hemptyKeyword : ([] : Text) ≠ kind.keyword := kind.plain_keyword.nonempty.symm
  rw [replaceLoop, kind.plain_ending.parseString]
  simp only [Bool.false_eq_true, if_false, bind_eq_bind, bind_some, hreset, hkeyword]
  rw [replaceLoop, parseString_nil]
  simp only [Bool.false_eq_true, if_false, bind_eq_bind, bind_some, hemptyReset,
    hemptyKeyword]
  rw [replaceLoop]
  rfl

theorem Kind.replaceLoop_empty (kind : Kind) (initialState : Bool) (fuel : Nat)
    (previous : Manager) :
    kind.replaceLoop (fuel + 4) (Stream.ofText (kind.getString initialState [])) true previous =
      some (if initialState then previous else { previous with items := [] }) := by
  let id := if initialState then initialStateID else resetID
  have hid : Word id ∧ Plain id ∧ Spaced id := by
    cases initialState <;> exact ⟨⟨by decide, by decide⟩, by decide, by decide⟩
  obtain ⟨hword, hplain, hspaced⟩ := hid
  have hwords : words (kind.getString initialState []) =
      kind.keyword :: id :: (words (quote id) ++ [kind.ending]) := by
    have htext : kind.getString initialState [] = kind.keyword ++ ' ' :: (id ++ ' ' ::
        (quote id ++ ' ' :: (kind.ending ++ '\n' :: []))) := by
      simp [getString, quote, id]
    rw [htext, words_append_space rfl, words_append_space rfl, words_append_space rfl,
      words_append_space rfl, words_word kind.word_keyword, words_word hword,
      words_word kind.word_ending]
    rfl
  have hstream : Stream.ofText (kind.getString initialState []) =
      ⟨kind.keyword :: id :: (words (quote id) ++ [kind.ending]), true, false⟩ := by
    unfold Stream.ofText
    rw [hwords, kind.getString_getLast]
    rfl
  have hkeyword : kind.keyword ≠ resetID := by cases kind <;> decide
  have hinitial : initialStateID ≠ resetID := by decide
  rw [hstream, replaceLoop, kind.plain_keyword.parseString]
  simp only [Bool.false_eq_true, if_false, bind_eq_bind, bind_some, hkeyword,
    if_true, hplain.parseString, quote, hspaced.parseString]
  cases initialState with
  | true =>
    simp only [id, if_true, hinitial, if_false]
    exact kind.replaceLoop_ending fuel true previous
  | false =>
    simp only [id, Bool.false_eq_true, if_false, if_true]
    exact kind.replaceLoop_ending fuel true _

/-- The text of an empty map empties the map that is read into, or leaves it
alone if the map is in its initial state. -/
theorem Kind.restores_empty (hempty : manager.items = []) (previous : Manager) :
    kind.Restores manager previous ↔ (manager.initialState → previous.items = []) := by
  unfold Kind.Restores
  rw [hempty, kind.replaceMap_eq previous _ (Nat.le_add_right _ 2), kind.replaceLoop_empty]
  cases manager.initialState with
  | true => simp
  | false => simp

theorem Kind.restores_of_legible (hsorted : OrderedMap.Sorted manager.items)
    (hne : manager.items ≠ []) (hformed : ∀ entry ∈ manager.items, kind.Formed entry)
    (hlegible : ∀ entry ∈ manager.items, kind.Legible entry) (previous : Manager) :
    kind.Restores manager previous := by
  unfold Kind.Restores
  let text := kind.getString manager.initialState manager.items
  rw [kind.replaceMap_eq previous text (Nat.le_add_right _ (manager.items.length + 2)),
    kind.stream_getString manager.initialState hne fun entry hentry => (hformed entry hentry).id]
  obtain ⟨first, rest, hitems⟩ := List.exists_cons_of_ne_nil hne
  rw [hitems] at hsorted hformed hlegible ⊢
  rw [List.forall_mem_cons] at hformed hlegible
  have hfuel : (words text).length + 2 + ((first :: rest).length + 2) =
      (words text).length + 1 + (rest.length + 3) + 1 := by
    rw [List.length_cons]
    omega
  rw [hfuel, List.flatMap_cons, kind.replaceLoop_entry hformed.1 hlegible.1,
    kind.replaceLoop_entries hformed.2 hlegible.2 (by omega)]
  exact congrArg some (OrderedMap.foldl_insert [first] hsorted)

/-- The text of a map that method calls can produce, with ids free of white
space, gives the map back from any previous map exactly when every name meets
the spacing rule and no id is empty or begins with a quote; the text of the
initial state leaves the previous map as it is. -/
theorem Kind.restores_iff (kind : Kind) (maxNameLength : Nat) (calls : List (Access × Method))
    (previous : Manager)
    (hspace : ∀ entry ∈ (kind.after maxNameLength calls).items,
      ∀ s ∈ kind.idsOf entry.2.2, NoSpace s) :
    kind.Restores (kind.after maxNameLength calls) previous ↔
      ((kind.after maxNameLength calls).items = [] →
          (kind.after maxNameLength calls).initialState → previous.items = []) ∧
        ∀ entry ∈ (kind.after maxNameLength calls).items, kind.Legible entry := by
  have hvalid := kind.after_valid maxNameLength calls
  generalize kind.after maxNameLength calls = manager at *
  by_cases hempty : manager.items = []
  · rw [restores_empty hempty]
    simp [hempty]
  have hformed : ∀ entry ∈ manager.items, kind.Formed entry := fun entry hentry =>
    ⟨hvalid.ids entry hentry, hspace entry hentry, fun hkind => hvalid.effects hkind entry hentry⟩
  have hstream := kind.stream_getString manager.initialState hempty hvalid.ids
  have hwords : ∀ w ∈ manager.items.flatMap kind.entryWords, Word w := by
    rw [← kind.words_getString manager.initialState hempty hvalid.ids]
    exact word_of_mem_words _
  constructor
  · intro hrestores
    obtain ⟨result, hrun, hresult⟩ := map_eq_some_iff.mp hrestores
    unfold replaceMap at hrun
    rw [hstream] at hrun
    exact ⟨fun h => absurd h hempty,
      legible_of_replaceLoop hempty hformed hwords hrun hresult⟩
  · rintro ⟨-, hlegible⟩
    exact restores_of_legible hvalid.sorted hempty hformed hlegible previous

/-- A call that creates a lamp group of one lamp. -/
def createCall (name : Text) : Access × Method :=
  (⟨true, true⟩,
    .create (Vector.replicate 8 0) name "en".toList ["lamp1".toList] [] [])

theorem kitchen_restored :
    (∀ entry ∈ (Kind.lampGroup.after 255 [createCall "my kitchen".toList]).items,
      ∀ s ∈ Kind.lampGroup.idsOf entry.2.2, NoSpace s) ∧
    Kind.lampGroup.Restores (Kind.lampGroup.after 255 [createCall "my kitchen".toList]) .fresh :=
  ⟨by decide +kernel,
    (Kind.restores_iff .lampGroup 255 [createCall "my kitchen".toList] .fresh
      (by decide +kernel)).mpr ⟨by decide +kernel, by decide +kernel⟩⟩

/-- A name with two blanks in a row is accepted and comes back with one. -/
theorem doubledBlank_lost :
    (Kind.lampGroup.call 255 .fresh (createCall "my  kitchen".toList)).1 = .ok ∧
    (∀ entry ∈ (Kind.lampGroup.after 255 [createCall "my  kitchen".toList]).items,
      ∀ s ∈ Kind.lampGroup.idsOf entry.2.2, NoSpace s) ∧
    ¬Kind.lampGroup.Restores (Kind.lampGroup.after 255 [createCall "my  kitchen".toList]) .fresh ∧
    (Kind.lampGroup.replaceMap .fresh (Kind.lampGroup.getString false
        (Kind.lampGroup.after 255 [createCall "my  kitchen".toList]).items)).map Manager.items =
      some (Kind.lampGroup.after 255 [createCall "my kitchen".toList]).items := by
  decide +kernel

end AllJoyn.Lighting
