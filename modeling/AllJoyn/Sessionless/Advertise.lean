import AllJoyn.Sessionless.Coverage
import Mathlib.Data.Finset.Max

/-!
What a routing node advertises of the sessionless signals in its cache
(`SessionlessObj.cc`): for each interface one change id, up to which there are
signals, and one for all of them. Change ids are compared as plain numbers when
they are collected, and in their circular order with the one advertised before.
-/

namespace AllJoyn.Sessionless

/-- A cached message: its interface and its change id. -/
abbrev Cached := List Char × Id

/-- `WildcardInterfaceName`. -/
def wildcard : List Char := "org.alljoyn".toList

/-- The change ids of the messages that a name stands for. -/
def idsOf (cache : List Cached) (name : List Char) : List Id :=
  (cache.filter fun msg => msg.1 = name ∨ name = wildcard).map Prod.snd

/-- The id is one of the list that no other is ahead of. -/
def Newest (ids : List Id) (newest : Id) : Prop :=
  newest ∈ ids ∧ ∀ id ∈ ids, (newest - id).toNat < 2 ^ 31

def Largest (ids : List Id) (largest : Id) : Prop := largest ∈ ids ∧ ∀ id ∈ ids, id ≤ largest

variable {cache : List Cached} {name : List Char} {ids : List Id} {newest largest : Id}

theorem Largest.unique {first second : Id} (hfirst : Largest ids first)
    (hsecond : Largest ids second) : first = second :=
  BitVec.le_antisymm (hsecond.2 first hfirst.1) (hfirst.2 second hsecond.1)

theorem Newest.unique {first second : Id} (hfirst : Newest ids first)
    (hsecond : Newest ids second) : first = second := by
  have hleft := hfirst.2 second hsecond.1
  have hright := hsecond.2 first hfirst.1
  bv_omega

end AllJoyn.Sessionless
