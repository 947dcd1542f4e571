import AllJoyn.Lighting.Text

/-!
What a run of `ReplaceMap` can do, whatever the text: the bounds on its loops
are not reached, and an invariant rule for each of the two loops.
-/

namespace AllJoyn.Lighting

open Lib Stream Option

variable {kind : Kind} {item result : Item} {fuel : Nat} {stream last : Stream}

/-! ### One turn of a loop -/

/-- The tokens that do not end the inner loop. -/
def Kind.IsTag (kind : Kind) (token : Text) : Prop :=
  token = lampWord ∨ token = lampGroupWord ∨ kind = .sceneElement ∧ token = effectWord

/-- What a turn of the inner loop does with a member. -/
def Kind.Takes (kind : Kind) (tag member : Text) (item next : Item) : Prop :=
  tag = lampWord ∧ next = { item with lamps := item.lamps ++ [member] } ∨
    tag = lampGroupWord ∧ next = { item with lampGroups := item.lampGroups ++ [member] } ∨
    (kind = .sceneElement ∧ tag = effectWord) ∧ next = { item with effectID := member }

theorem Kind.Takes.tag {tag member : Text} {next : Item}
    (htakes : kind.Takes tag member item next) :
    tag = lampWord ∨ tag = lampGroupWord ∨ tag = effectWord := by
  rcases htakes with ⟨htag, -⟩ | ⟨htag, -⟩ | ⟨⟨-, htag⟩, -⟩
  · exact .inl htag
  · exact .inr (.inl htag)
  · exact .inr (.inr htag)

theorem Kind.readMembers_cases (hread : kind.readMembers fuel stream item = some (result, last)) :
    ∃ less token next, fuel = less + 1 ∧ parseString stream = some (token, next) ∧
      (result = item ∧ last = next ∧ ¬kind.IsTag token ∨
        ∃ member after more, parseString next = some (member, after) ∧
          kind.Takes token member item more ∧
          kind.readMembers less after more = some (result, last)) := by
  cases fuel with
  | zero => cases hread
  | succ less =>
    rw [Kind.readMembers] at hread
    simp only [bind_eq_bind, bind_eq_some_iff, Prod.exists] at hread
    obtain ⟨token, next, htoken, hread⟩ := hread
    refine ⟨less, token, next, rfl, htoken, ?_⟩
    split_ifs at hread with hlamp hgroup heffect
    · obtain ⟨⟨member, after⟩, hmember, hmore⟩ := bind_eq_some_iff.mp hread
      exact .inr ⟨member, after, _, hmember, .inl ⟨hlamp, rfl⟩, hmore⟩
    · obtain ⟨⟨member, after⟩, hmember, hmore⟩ := bind_eq_some_iff.mp hread
      exact .inr ⟨member, after, _, hmember, .inr (.inl ⟨hgroup, rfl⟩), hmore⟩
    · obtain ⟨⟨member, after⟩, hmember, hmore⟩ := bind_eq_some_iff.mp hread
      exact .inr ⟨member, after, _, hmember, .inr (.inr ⟨heffect, rfl⟩), hmore⟩
    · cases hread
      refine .inl ⟨rfl, rfl, ?_⟩
      rintro (h | h | h)
      · exact hlamp h
      · exact hgroup h
      · exact heffect h

/-- What holds before and after every member holds in front of the token that
ends the inner loop. -/
theorem Kind.readMembers_invariant (inv : Stream → Item → Prop)
    (hstep : ∀ {stream next after : Stream} {token member : Text} {item more : Item},
      inv stream item → parseString stream = some (token, next) →
      parseString next = some (member, after) → kind.Takes token member item more →
      inv after more) (hread : kind.readMembers fuel stream item = some (result, last))
    (hinv : inv stream item) :
    ∃ before token, inv before result ∧ parseString before = some (token, last) ∧
      ¬kind.IsTag token := by
  induction fuel generalizing stream item with
  | zero => cases hread
  | succ less ih =>
    obtain ⟨_, token, next, hless, htoken, hcases⟩ := Kind.readMembers_cases hread
    obtain rfl : less = _ := Nat.succ.inj hless
    rcases hcases with ⟨rfl, rfl, htag⟩ | ⟨member, after, more, hmember, htakes, hmore⟩
    · exact ⟨stream, token, hinv, htoken, htag⟩
    · exact ih hmore (hstep hinv htoken hmember htakes)

theorem Kind.readMembers_stream (inv : Stream → Prop)
    (hparse : ∀ {stream next : Stream} {token : Text}, inv stream →
      parseString stream = some (token, next) → inv next)
    (hread : kind.readMembers fuel stream item = some (result, last)) (hinv : inv stream) :
    inv last := by
  obtain ⟨before, token, hbefore, htoken, -⟩ :=
    Kind.readMembers_invariant (fun stream _ => inv stream)
      (fun hstream htoken hmember _ => hparse (hparse hstream htoken) hmember) hread hinv
  exact hparse hbefore htoken

section Invariant

variable (inv : Stream → Prop) (good : Text × Text × Item → Prop)
  (hparse : ∀ {stream next : Stream} {token : Text}, inv stream →
    parseString stream = some (token, next) → inv next)
  (hentry : ∀ {stream afterKeyword afterId afterName last : Stream} {id name : Text}
    {item : Item} {fuel : Nat}, inv stream →
    parseString stream = some (kind.keyword, afterKeyword) →
    parseString afterKeyword = some (id, afterId) →
    parseString afterId = some (name, afterName) →
    kind.readMembers fuel afterName .empty = some (item, last) → good (id, name, item))

include hparse hentry

/-- The entries a run of the outer loop leaves satisfy what holds of the
entries it starts with and of every entry it can read. -/
theorem Kind.replaceLoop_invariant {manager result : Manager}
    (hrun : kind.replaceLoop fuel stream false manager = some result) (hinv : inv stream)
    (hgood : ∀ entry ∈ manager.items, good entry) :
    ∀ entry ∈ result.items, good entry := by
  induction fuel generalizing stream manager with
  | zero => cases hrun
  | succ fuel ih =>
    rw [Kind.replaceLoop] at hrun
    by_cases heof : stream.eof
    · rw [if_pos heof] at hrun
      cases hrun
      exact hgood
    · rw [if_neg heof] at hrun
      simp only [bind_eq_bind, bind_eq_some_iff, Prod.exists] at hrun
      obtain ⟨token, next, htoken, hrun⟩ := hrun
      have hnext : inv next := hparse hinv htoken
      by_cases hreset : token = resetID
      · rw [if_pos hreset] at hrun
        exact ih hrun hnext (by simp)
      rw [if_neg hreset] at hrun
      by_cases hkeyword : token = kind.keyword
      · rw [if_pos hkeyword] at hrun
        subst hkeyword
        simp only [bind_eq_some_iff, Prod.exists] at hrun
        obtain ⟨id, afterId, hid, name, afterName, hname, hrun⟩ := hrun
        have hafter : inv afterName := hparse (hparse hnext hid) hname
        by_cases hresetId : id = resetID
        · rw [if_pos hresetId] at hrun
          exact ih hrun hafter (by simp)
        rw [if_neg hresetId] at hrun
        by_cases hinitial : id = initialStateID
        · rw [if_pos hinitial] at hrun
          exact ih hrun hafter hgood
        · rw [if_neg hinitial] at hrun
          simp only [bind_eq_some_iff, Prod.exists] at hrun
          obtain ⟨item, last, hmembers, hrun⟩ := hrun
          refine ih hrun (Kind.readMembers_stream inv hparse hmembers hafter) ?_
          intro entry hmem
          rcases OrderedMap.mem_insert hmem with rfl | hold
          · exact hentry hinv htoken hid hname hmembers
          · exact hgood entry hold
      · rw [if_neg hkeyword] at hrun
        exact ih hrun hnext hgood

/-- The rule for a whole text that begins with an entry: nothing of the
previous map is left. -/
theorem Kind.replaceLoop_fresh {id : Text} {rest : List Text} {manager result : Manager}
    (hid : kind.IsId id)
    (hinv : inv ⟨kind.keyword :: id :: rest, true, false⟩)
    (hrun : kind.replaceLoop fuel ⟨kind.keyword :: id :: rest, true, false⟩ true manager =
      some result) : ∀ entry ∈ result.items, good entry := by
  cases fuel with
  | zero => cases hrun
  | succ fuel =>
    rw [kind.replaceLoop_start hid] at hrun
    simp only [bind_eq_some_iff, Prod.exists] at hrun
    obtain ⟨name, afterName, hname, item, last, hmembers, hrun⟩ := hrun
    have hkeyword := kind.plain_keyword.parseString (id :: rest) false
    have hparsed := hid.plain.parseString rest false
    have hafter : inv afterName := hparse (hparse (hparse hinv hkeyword) hparsed) hname
    refine Kind.replaceLoop_invariant inv good hparse hentry hrun
      (Kind.readMembers_stream inv hparse hmembers hafter) ?_
    intro entry hmem
    rcases OrderedMap.mem_insert hmem with rfl | hold
    · exact hentry hinv hkeyword hparsed hname hmembers
    · simp at hold

end Invariant

/-! ### The bounds on the loops -/

variable {next : Stream} {token : Text}

theorem parseString_length (hread : parseString stream = some (token, next)) :
    next.words.length ≤ stream.words.length - 1 := by
  obtain ⟨hsuffix, -, -⟩ := parseString_suffix hread
  simpa using hsuffix.length_le

theorem parseString_less (hread : parseString stream = some (token, next)) (htoken : token ≠ []) :
    next.words.length < stream.words.length := by
  have hlength := parseString_length hread
  have hwords : stream.words ≠ [] := fun hnil => htoken ((parseString_suffix hread).2.2.1 hnil).1
  have hpositive : 0 < stream.words.length := List.length_pos_iff.mpr hwords
  omega

/-- Two bounds above the number of words give the same result: neither ends
the inner loop. -/
theorem Kind.readMembers_fuel (kind : Kind) {first second : Nat}
    (hfirst : stream.words.length < first) (hsecond : stream.words.length < second) (item : Item) :
    kind.readMembers first stream item = kind.readMembers second stream item := by
  induction first generalizing second stream item with
  | zero => omega
  | succ first ih =>
    obtain ⟨second, rfl⟩ : ∃ less, second = less + 1 := ⟨second - 1, by omega⟩
    refine Option.bind_congr ?_
    rintro ⟨token, next⟩ htoken
    have hmore (change : Text → Item) (htag : token ≠ []) :
        ((parseString next).bind fun result =>
          kind.readMembers first result.2 (change result.1)) =
        (parseString next).bind fun result =>
          kind.readMembers second result.2 (change result.1) := by
      refine Option.bind_congr ?_
      rintro ⟨member, after⟩ (hmember : parseString next = some (member, after))
      have hless := parseString_less htoken htag
      have hafter := parseString_length hmember
      have hfewer : after.words.length < first ∧ after.words.length < second := by omega
      exact ih hfewer.1 hfewer.2 _
    dsimp only [bind_eq_bind]
    split_ifs with hlamp hgroup heffect
    · exact hmore (fun member => { item with lamps := item.lamps ++ [member] })
        (hlamp ▸ plain_lampWord.nonempty)
    · exact hmore (fun member => { item with lampGroups := item.lampGroups ++ [member] })
        (hgroup ▸ plain_lampGroupWord.nonempty)
    · exact hmore (fun member => { item with effectID := member })
        (heffect.2 ▸ plain_effectWord.nonempty)
    · rfl

/-- What a turn of the outer loop uses up. -/
def Stream.left (stream : Stream) : Nat := stream.words.length + if stream.eof then 0 else 1

theorem Stream.left_le_of_parseString (hread : parseString stream = some (token, next)) :
    next.left ≤ stream.left ∧ (stream.eof = false → next.left < stream.left) := by
  have hlength := parseString_length hread
  obtain ⟨-, -, hend, -⟩ := parseString_suffix hread
  by_cases hwords : stream.words = []
  · obtain ⟨-, heof⟩ := hend hwords
    have hnext : next.words.length = 0 := by simpa [hwords] using hlength
    refine ⟨by simp [left, heof, hnext], ?_⟩
    intro hstream
    simp [left, heof, hnext, hstream]
  · have hpositive : 0 < stream.words.length := List.length_pos_iff.mpr hwords
    refine ⟨?_, ?_⟩
    · unfold left
      split_ifs <;> omega
    · intro hstream
      have hstream : stream.left = stream.words.length + 1 := by simp [left, hstream]
      rw [left]
      split_ifs <;> omega

theorem Stream.left_le_of_readMembers
    (hread : kind.readMembers fuel stream item = some (result, last)) : last.left ≤ stream.left :=
  Kind.readMembers_stream (fun s => s.left ≤ stream.left)
    (fun hle htoken => (left_le_of_parseString htoken).1.trans hle) hread le_rfl

/-- Two bounds above what is left of the stream give the same result: neither
ends the outer loop. -/
theorem Kind.replaceLoop_fuel (kind : Kind) {first second : Nat} (hfirst : stream.left < first)
    (hsecond : stream.left < second) (firstIteration : Bool) (manager : Manager) :
    kind.replaceLoop first stream firstIteration manager =
      kind.replaceLoop second stream firstIteration manager := by
  induction first generalizing second stream firstIteration manager with
  | zero => omega
  | succ first ih =>
    obtain ⟨second, rfl⟩ : ∃ less, second = less + 1 := ⟨second - 1, by omega⟩
    rw [Kind.replaceLoop, Kind.replaceLoop]
    by_cases heof : stream.eof
    · rw [if_pos heof, if_pos heof]
    rw [if_neg heof, if_neg heof]
    refine Option.bind_congr ?_
    rintro ⟨token, next⟩ htoken
    have hnext := (left_le_of_parseString htoken).2 (by simpa using heof)
    refine if_congr Iff.rfl (ih (by omega) (by omega) _ _)
      (if_congr Iff.rfl ?_ (ih (by omega) (by omega) _ _))
    refine Option.bind_congr ?_
    rintro ⟨id, afterId⟩ (hid : parseString next = some (id, afterId))
    refine Option.bind_congr ?_
    rintro ⟨name, afterName⟩ (hname : parseString afterId = some (name, afterName))
    have hafterId := (left_le_of_parseString hid).1
    have hafterName := (left_le_of_parseString hname).1
    refine if_congr Iff.rfl (ih (by omega) (by omega) _ _)
      (if_congr Iff.rfl (ih (by omega) (by omega) _ _) ?_)
    refine Option.bind_congr ?_
    rintro ⟨item, last⟩ hmembers
    have hlast : last.left ≤ afterName.left := left_le_of_readMembers hmembers
    have hless : last.left < first ∧ last.left < second := by omega
    exact ih hless.1 hless.2 _ _

theorem Kind.replaceMap_eq (kind : Kind) (manager : Manager) (text : Text)
    (hfuel : (words text).length + 2 ≤ fuel) :
    kind.replaceMap manager text = kind.replaceLoop fuel (ofText text) true manager := by
  refine kind.replaceLoop_fuel ?_ ?_ true manager
  · simp [left, ofText]
  · simp only [left, ofText, Bool.false_eq_true, if_false]
    omega

/-! ### Where the reader does not return -/

/-- Every string that is opened is closed, and no word is a quote that only
opens one; `inside` tells if a string is open in front of the words. -/
def quotesClosed (inside : Bool) : List Text → Bool
  | [] => !inside
  | w :: rest =>
    if inside then quotesClosed (w.getLast? ≠ some '"') rest
    else if w.head? = some '"' then w ≠ ['"'] && quotesClosed (w.tail.getLast? ≠ some '"') rest
    else quotesClosed false rest

/-- The words are not empty, and there are none behind the end. -/
structure Stream.Ready (stream : Stream) : Prop where
  nonempty : ∀ w ∈ stream.words, w ≠ []
  ended : stream.eof = true → stream.words = []

theorem ready_ofText (text : Text) : (ofText text).Ready :=
  ⟨fun w hw => (word_of_mem_words text w hw).nonempty, by simp [ofText]⟩

theorem closeQuote_closed {name : Text} {rest : List Text} (trailing : Bool) (hname : name ≠ [])
    (hrest : ∀ w ∈ rest, w ≠ []) : quotesClosed (name.getLast? ≠ some '"') rest =
      (closeQuote trailing name rest).any fun found => quotesClosed false found.2.words := by
  induction rest generalizing name with
  | nil =>
    unfold closeQuote
    rw [List.getLast?_eq_some_getLast hname]
    by_cases hquote : name.getLast hname = '"' <;> simp [quotesClosed, hquote]
  | cons w rest ih =>
    have hw := hrest w List.mem_cons_self
    have hname' : name ++ ' ' :: w ≠ [] := by simp
    have hmore := ih hname' fun v hv => hrest v (List.mem_cons_of_mem _ hv)
    unfold closeQuote
    rw [List.getLast?_eq_some_getLast hname]
    by_cases hquote : name.getLast hname = '"'
    · simp [hquote]
    · have hlast : (name ++ ' ' :: w).getLast? = w.getLast? := by
        rw [← List.singleton_append, ← List.append_assoc, List.getLast?_append_of_ne_nil _ hw]
      rw [hlast] at hmore
      simpa [quotesClosed, hquote] using hmore

theorem Stream.Ready.parse (hready : stream.Ready) : quotesClosed false stream.words =
    (parseString stream).any fun found => quotesClosed false found.2.words := by
  obtain ⟨words, trailing, eof⟩ := stream
  cases words with
  | nil => rfl
  | cons w rest =>
    have hrest : ∀ v ∈ rest, v ≠ [] := fun v hv => hready.nonempty v (List.mem_cons_of_mem _ hv)
    rw [parseString_eq, quotesClosed, if_neg (by simp)]
    split_ifs with hquote
    · obtain ⟨tail, rfl⟩ : ∃ tail, w = '"' :: tail := by
        cases w with
        | nil => cases hquote
        | cons c tail => exact ⟨tail, by simpa using hquote⟩
      cases tail with
      | nil => simp [closeQuote.eq_def]
      | cons c tail =>
        rw [List.tail_cons, closeQuote_closed trailing (List.cons_ne_nil c tail) hrest]
        simp
    · simp

theorem Stream.Ready.after (hready : stream.Ready) (hread : parseString stream = some (token, next)) :
    next.Ready := by
  obtain ⟨hsuffix, -, -, hended⟩ := parseString_suffix hread
  exact ⟨fun w hw => hready.nonempty w (List.mem_of_mem_tail (hsuffix.subset hw)), hended⟩

theorem Stream.Ready.bind {β : Type} {p : β → Bool} {f : Text × Stream → Option β}
    (hready : stream.Ready) (h : ∀ token next, parseString stream = some (token, next) →
      next.Ready → (f (token, next)).any p = quotesClosed false next.words) :
    ((parseString stream).bind f).any p = quotesClosed false stream.words := by
  rw [hready.parse]
  cases hread : parseString stream with
  | none => rfl
  | some found => exact h found.1 found.2 hread (hready.after hread)

theorem Kind.readMembers_closed (kind : Kind) (hready : stream.Ready)
    (hfuel : stream.words.length < fuel) (item : Item) :
    ((kind.readMembers fuel stream item).any fun found => quotesClosed false found.2.words) =
      quotesClosed false stream.words := by
  induction fuel generalizing stream item with
  | zero => omega
  | succ fuel ih =>
    refine hready.bind fun token next htoken hnext => ?_
    have hmore (change : Text → Item) (htag : token ≠ []) :
        ((parseString next).bind fun result =>
          kind.readMembers fuel result.2 (change result.1)).any
            (fun found => quotesClosed false found.2.words) = quotesClosed false next.words := by
      refine hnext.bind fun member after hmember hafter => ?_
      have hless := parseString_less htoken htag
      have hlength := parseString_length hmember
      exact ih hafter (by omega) _
    dsimp only [bind_eq_bind]
    split_ifs with hlamp hgroup heffect
    · exact hmore (fun member => { item with lamps := item.lamps ++ [member] })
        (hlamp ▸ plain_lampWord.nonempty)
    · exact hmore (fun member => { item with lampGroups := item.lampGroups ++ [member] })
        (hgroup ▸ plain_lampGroupWord.nonempty)
    · exact hmore (fun member => { item with effectID := member })
        (heffect.2 ▸ plain_effectWord.nonempty)
    · rfl

theorem Kind.replaceLoop_closed (kind : Kind) (hready : stream.Ready) (hfuel : stream.left < fuel)
    (firstIteration : Bool) (manager : Manager) :
    ((kind.replaceLoop fuel stream firstIteration manager).any fun _ => true) =
      quotesClosed false stream.words := by
  induction fuel generalizing stream firstIteration manager with
  | zero => omega
  | succ fuel ih =>
    rw [Kind.replaceLoop]
    by_cases heof : stream.eof
    · rw [if_pos heof, hready.ended heof]
      rfl
    rw [if_neg heof]
    refine hready.bind fun token next htoken hnext => ?_
    have hless := (left_le_of_parseString htoken).2 (by simpa using heof)
    dsimp only
    by_cases hreset : token = resetID
    · rw [if_pos hreset]
      exact ih hnext (by omega) _ _
    rw [if_neg hreset]
    by_cases hkeyword : token = kind.keyword
    · rw [if_pos hkeyword]
      refine hnext.bind fun id afterId hid hafterId => ?_
      refine hafterId.bind fun name afterName hname hafter => ?_
      have hleId := (left_le_of_parseString hid).1
      have hleName := (left_le_of_parseString hname).1
      by_cases hresetId : id = resetID
      · rw [if_pos hresetId]
        exact ih hafter (by omega) _ _
      rw [if_neg hresetId]
      by_cases hinitial : id = initialStateID
      · rw [if_pos hinitial]
        exact ih hafter (by omega) _ _
      · rw [if_neg hinitial, ← kind.readMembers_closed hafter (Nat.lt_succ_self _) .empty]
        cases hmembers : kind.readMembers (afterName.words.length + 1) afterName .empty with
        | none => rfl
        | some found =>
          have hlast := left_le_of_readMembers hmembers
          exact ih (Kind.readMembers_stream Stream.Ready .after hmembers hafter) (by omega) _ _
    · rw [if_neg hkeyword]
      exact ih hnext (by omega) _ _

/-- A text is read to its end, and no character outside of a token is looked
at, if and only if its quotes are closed. -/
theorem Kind.reads_iff (kind : Kind) (manager : Manager) (text : Text) :
    (parseString (ofText text)).isSome ∧ (kind.replaceMap manager text).isSome ↔
      quotesClosed false (words text) = true := by
  have hready := ready_ofText text
  have hmap : (kind.replaceMap manager text).isSome = quotesClosed false (words text) := by
    have hfuel : (ofText text).left < (words text).length + 2 := by simp [left, ofText]
    refine Eq.trans ?_ (kind.replaceLoop_closed hready hfuel true manager)
    change _ = (kind.replaceMap manager text).any _
    cases kind.replaceMap manager text <;> rfl
  rw [hmap, and_iff_right_iff_imp]
  intro hclosed
  exact isSome_of_any (hready.parse.symm.trans hclosed)

/-- A text that was cut off inside of a name. -/
theorem truncated_text_not_read :
    Kind.lampGroup.replaceMap .fresh "LampGroup G1 \"Living room".toList = none := by
  decide +kernel

end AllJoyn.Lighting
