import Mathlib.Order.Lattice
import Mathlib.Data.List.Basic

/-!
A finite map kept as a list of key and value pairs in the order of the keys,
the way an ordered container is walked. Nothing here depends on what the keys
and values are.
-/

namespace AllJoyn.Lib.OrderedMap

open List

variable {κ ν : Type*} [LinearOrder κ] {entries : List (κ × ν)}

/-- Sets the value of one key. -/
def insert (key : κ) (value : ν) : List (κ × ν) → List (κ × ν)
  | [] => [(key, value)]
  | entry :: rest =>
    if key < entry.1 then (key, value) :: entry :: rest
    else if key = entry.1 then (key, value) :: rest
    else entry :: insert key value rest

/-- The value of one key. -/
def find (key : κ) (entries : List (κ × ν)) : Option ν :=
  (entries.find? fun entry => entry.1 = key).map Prod.snd

/-- Removes one key. -/
def erase (key : κ) (entries : List (κ × ν)) : List (κ × ν) :=
  entries.filter fun entry => entry.1 ≠ key

/-- The keys are distinct and in increasing order. -/
def Sorted (entries : List (κ × ν)) : Prop :=
  entries.Pairwise fun first second => first.1 < second.1

variable {key : κ} {value : ν}

theorem mem_of_find (hfind : find key entries = some value) : (key, value) ∈ entries := by
  obtain ⟨entry, hentry, rfl⟩ := Option.map_eq_some_iff.mp hfind
  have hkey : entry.1 = key := by simpa using List.find?_some hentry
  rw [← hkey]
  exact List.mem_of_find?_eq_some hentry

theorem mem_insert {entry : κ × ν} (hentry : entry ∈ insert key value entries) :
    entry = (key, value) ∨ entry ∈ entries := by
  induction entries with
  | nil => simpa [insert] using hentry
  | cons first rest ih =>
    unfold insert at hentry
    split_ifs at hentry
    · simpa using hentry
    · rcases mem_cons.mp hentry with rfl | hrest
      · exact .inl rfl
      · exact .inr (mem_cons_of_mem _ hrest)
    · rcases mem_cons.mp hentry with rfl | hrest
      · exact .inr mem_cons_self
      · exact (ih hrest).imp_right (mem_cons_of_mem _)

theorem Sorted.insert (hsorted : Sorted entries) (key : κ) (value : ν) :
    Sorted (OrderedMap.insert key value entries) := by
  induction entries with
  | nil => simp [OrderedMap.insert, Sorted]
  | cons first rest ih =>
    obtain ⟨hfirst, hrest⟩ := pairwise_cons.mp hsorted
    unfold OrderedMap.insert
    split_ifs with hlt heq
    · refine pairwise_cons.mpr ⟨?_, hsorted⟩
      intro entry hentry
      rcases mem_cons.mp hentry with rfl | hmem
      · exact hlt
      · exact hlt.trans (hfirst entry hmem)
    · refine pairwise_cons.mpr ⟨?_, hrest⟩
      intro entry hentry
      exact heq ▸ hfirst entry hentry
    · refine pairwise_cons.mpr ⟨?_, ih hrest⟩
      intro entry hentry
      rcases mem_insert hentry with rfl | hmem
      · exact lt_of_le_of_ne (not_lt.mp hlt) (Ne.symm heq)
      · exact hfirst entry hmem

theorem insert_eq_append (hlast : ∀ entry ∈ entries, entry.1 < key) :
    insert key value entries = entries ++ [(key, value)] := by
  induction entries with
  | nil => rfl
  | cons first rest ih =>
    have hfirst : first.1 < key := hlast first mem_cons_self
    unfold insert
    rw [if_neg hfirst.not_gt, if_neg hfirst.ne',
      ih fun entry hentry => hlast entry (mem_cons_of_mem _ hentry)]
    rfl

/-- Setting the entries of an ordered map one after the other, behind the
entries already there, appends them. -/
theorem foldl_insert (entries : List (κ × ν)) {more : List (κ × ν)}
    (hsorted : Sorted (entries ++ more)) :
    more.foldl (fun map entry => insert entry.1 entry.2 map) entries = entries ++ more := by
  induction more generalizing entries with
  | nil => simp
  | cons first rest ih =>
    have hbefore : ∀ entry ∈ entries, entry.1 < first.1 := by
      intro entry hentry
      exact (pairwise_append.mp hsorted).2.2 entry hentry first mem_cons_self
    rw [foldl_cons, insert_eq_append hbefore]
    rw [ih _ (by simpa using hsorted)]
    simp

end AllJoyn.Lib.OrderedMap
