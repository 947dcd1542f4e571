import Mathlib.Data.Finmap

/-!
Lists of key and value pairs without repeated keys: what a lookup sees of a
filtered list, and the values computed from the entries that belong to one key.
The same for finite maps, with the loop that takes over the entries of another
map one by one.
-/

namespace AllJoyn.Lib.Assoc

open List AList

variable {α : Type*} {β : α → Type*} {γ : Type*} [DecidableEq α]

theorem dlookup_filter (p : Sigma β → Bool) (key : α) {entries : List (Sigma β)}
    (hkeys : entries.NodupKeys) :
    (entries.filter p).dlookup key =
      (entries.dlookup key).filter (fun value => p ⟨key, value⟩) := by
  induction entries with
  | nil => rfl
  | cons first rest ih =>
    obtain ⟨name, value⟩ := first
    obtain ⟨hfresh, hrest⟩ := nodupKeys_cons.mp hkeys
    by_cases hname : key = name
    · subst hname
      cases hp : p ⟨key, value⟩ with
      | true => simp [hp, Option.filter]
      | false =>
        have hnone : rest.dlookup key = none := dlookup_eq_none.mpr hfresh
        simp [hp, ih hrest, hnone, Option.filter]
    · rw [dlookup_cons_ne _ _ hname, ← ih hrest]
      cases hp : p ⟨name, value⟩ with
      | true =>
        rw [filter_cons_of_pos hp]
        exact dlookup_cons_ne _ ⟨name, value⟩ hname
      | false => simp [hp]

/-- Of the values computed from the entries, those that `own` picks out for a
key come from the entry of that key. -/
theorem filter_filterMap (g : Sigma β → Option γ) (own : γ → Bool) (key : α)
    (hown : ∀ entry value, g entry = some value → (own value = true ↔ entry.1 = key))
    {entries : List (Sigma β)} (hkeys : entries.NodupKeys) :
    (entries.filterMap g).filter own =
      ((entries.dlookup key).bind fun value => g ⟨key, value⟩).toList := by
  induction entries with
  | nil => rfl
  | cons first rest ih =>
    obtain ⟨name, value⟩ := first
    obtain ⟨hfresh, hrest⟩ := nodupKeys_cons.mp hkeys
    have htail := ih hrest
    by_cases hname : key = name
    · subst hname
      have hnone : rest.dlookup key = none := dlookup_eq_none.mpr hfresh
      rw [hnone] at htail
      cases hg : g ⟨key, value⟩ with
      | none => simpa [hg] using htail
      | some found =>
        have hpicked : own found = true := (hown _ _ hg).mpr rfl
        simpa [hg, hpicked] using htail
    · rw [dlookup_cons_ne _ _ hname, ← htail]
      cases hg : g ⟨name, value⟩ with
      | none => simp [hg]
      | some found =>
        have hskipped : ¬ own found = true :=
          fun hpicked => hname ((hown _ _ hg).mp hpicked).symm
        simp [hg, hskipped]

/-! ### Finite maps -/

/-- The entries for which `p` holds. -/
def filter (p : Sigma β → Bool) (entries : AList β) : AList β :=
  ⟨entries.entries.filter p, entries.nodupKeys.sublist filter_sublist⟩

theorem lookup_filter (p : Sigma β → Bool) (key : α) (entries : AList β) :
    (filter p entries).lookup key =
      (entries.lookup key).filter (fun value => p ⟨key, value⟩) :=
  dlookup_filter p key entries.nodupKeys

variable {V W : Type*}

theorem dlookup_cons (key name : α) (value : V) (rest : List (Σ _ : α, V)) :
    (⟨name, value⟩ :: rest : List (Σ _ : α, V)).dlookup key =
      if key = name then some value else rest.dlookup key := by
  by_cases hname : key = name
  · subst hname
    simp
  · rw [if_neg hname]
    exact dlookup_cons_ne _ _ hname

/-- Every value replaced by its image. -/
def mapValues (f : V → W) (entries : AList fun _ : α => V) : AList fun _ : α => W :=
  ⟨entries.entries.map fun entry => ⟨entry.1, f entry.2⟩, by
    have hkeys : (entries.entries.map fun entry => (⟨entry.1, f entry.2⟩ : Σ _ : α, W)).keys =
        entries.entries.keys := by
      simp [List.keys, Function.comp_def]
    unfold List.NodupKeys
    rw [hkeys]
    exact entries.nodupKeys⟩

theorem lookup_mapValues (f : V → W) (key : α) (entries : AList fun _ : α => V) :
    (mapValues f entries).lookup key = (entries.lookup key).map f := by
  obtain ⟨entries, hkeys⟩ := entries
  change (entries.map fun entry => (⟨entry.1, f entry.2⟩ : Σ _ : α, W)).dlookup key =
    (entries.dlookup key).map f
  clear hkeys
  induction entries with
  | nil => rfl
  | cons first rest ih =>
    rw [map_cons, dlookup_cons, dlookup_cons, ih]
    split_ifs <;> rfl

variable {entries : List (Σ _ : α, V)} {start : (AList fun _ : α => V) × Bool}

theorem lookup_foldl_insert (f : V → W) (hkeys : entries.NodupKeys) (start : AList fun _ : α => W)
    (key : α) :
    (entries.foldl (fun map entry => map.insert entry.1 (f entry.2)) start).lookup key =
      (entries.dlookup key).elim (start.lookup key) fun value => some (f value) := by
  induction entries generalizing start with
  | nil => rfl
  | cons first rest ih =>
    obtain ⟨name, value⟩ := first
    obtain ⟨hfresh, hrest⟩ := nodupKeys_cons.mp hkeys
    rw [foldl_cons, ih hrest, dlookup_cons]
    by_cases hname : key = name
    · subst hname
      have hnone : rest.dlookup key = none := dlookup_eq_none.mpr hfresh
      rw [hnone, if_pos rfl]
      exact lookup_insert _
    · rw [if_neg hname, lookup_insert_ne hname]

/-- A loop over entries that takes an entry over when `takes` says so of the
value its key has so far, and notes whether it took one. -/
def takeOver (takes : V → Option V → Bool) (entries : List (Σ _ : α, V))
    (start : (AList fun _ : α => V) × Bool) : (AList fun _ : α => V) × Bool :=
  entries.foldl (fun (map, dirty) entry =>
    if takes entry.2 (map.lookup entry.1) then (map.insert entry.1 entry.2, true)
    else (map, dirty)) start

section TakeOver

variable (takes : V → Option V → Bool)

theorem takeOver_cons (entry : Σ _ : α, V) (rest : List (Σ _ : α, V))
    (start : (AList fun _ : α => V) × Bool) :
    takeOver takes (entry :: rest) start = takeOver takes rest
      (if takes entry.2 (start.1.lookup entry.1) then (start.1.insert entry.1 entry.2, true)
        else start) :=
  rfl

theorem lookup_takeOver (hkeys : entries.NodupKeys) (start : (AList fun _ : α => V) × Bool)
    (key : α) :
    (takeOver takes entries start).1.lookup key =
      (entries.dlookup key).elim (start.1.lookup key) fun value =>
        if takes value (start.1.lookup key) then some value else start.1.lookup key := by
  induction entries generalizing start with
  | nil => rfl
  | cons first rest ih =>
    obtain ⟨name, value⟩ := first
    obtain ⟨hfresh, hrest⟩ := nodupKeys_cons.mp hkeys
    rw [takeOver_cons, ih hrest]
    by_cases hname : key = name
    · subst hname
      have hnone : rest.dlookup key = none := dlookup_eq_none.mpr hfresh
      rw [hnone, dlookup_cons, if_pos rfl, Option.elim_some]
      split_ifs with htake
      · exact lookup_insert _
      · rfl
    · rw [dlookup_cons]
      split_ifs with htake
      · rw [lookup_insert_ne hname]
      · rfl

theorem takeOver_dirty_of_start (entries : List (Σ _ : α, V)) (h : start.2 = true) :
    (takeOver takes entries start).2 = true := by
  induction entries generalizing start with
  | nil => exact h
  | cons first rest ih =>
    rw [takeOver_cons]
    apply ih
    split_ifs
    · rfl
    · exact h

theorem takeOver_dirty (hkeys : entries.NodupKeys) {key : α} {value : V}
    (hentry : entries.dlookup key = some value) (htake : takes value (start.1.lookup key) = true) :
    (takeOver takes entries start).2 = true := by
  induction entries generalizing start with
  | nil => simp at hentry
  | cons first rest ih =>
    obtain ⟨name, found⟩ := first
    obtain ⟨hfresh, hrest⟩ := nodupKeys_cons.mp hkeys
    rw [takeOver_cons]
    by_cases hname : key = name
    · subst hname
      rw [dlookup_cons, if_pos rfl, Option.some_inj] at hentry
      subst hentry
      rw [if_pos htake]
      exact takeOver_dirty_of_start takes rest rfl
    · rw [dlookup_cons, if_neg hname] at hentry
      apply ih hrest hentry
      split_ifs
      · rwa [lookup_insert_ne hname]
      · exact htake

end TakeOver

/-! ### Finite maps without an order -/

theorem kerase_eq_filter (key : α) {entries : List (Sigma β)} (hkeys : entries.NodupKeys) :
    entries.kerase key = entries.filter fun entry => entry.1 ≠ key := by
  induction entries with
  | nil => rfl
  | cons first rest ih =>
    obtain ⟨hfresh, hrest⟩ := nodupKeys_cons.mp hkeys
    by_cases hname : key = first.1
    · rw [kerase_cons_eq hname, filter_cons_of_neg (by simp [hname]), eq_comm,
        filter_eq_self]
      intro entry hentry
      apply decide_eq_true
      rintro rfl
      exact hfresh (hname ▸ mem_keys_of_mem hentry)
    · rw [kerase_cons_ne hname, ih hrest, filter_cons_of_pos]
      exact decide_eq_true (Ne.symm hname)

theorem erase_entries (key : α) (map : Finmap β) :
    (map.erase key).entries = map.entries.filter fun entry => entry.1 ≠ key := by
  induction map using Finmap.induction_on with
  | _ entries =>
    rw [Finmap.erase_toFinmap, toFinmap_entries, toFinmap_entries,
      Multiset.filter_coe, ← kerase_eq_filter key entries.nodupKeys]
    rfl

theorem insert_entries (key : α) (value : β key) (map : Finmap β) :
    (map.insert key value).entries = ⟨key, value⟩ ::ₘ (map.erase key).entries := by
  induction map using Finmap.induction_on with
  | _ entries =>
    rfl

end AllJoyn.Lib.Assoc
