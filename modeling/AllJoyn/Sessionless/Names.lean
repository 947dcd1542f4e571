import AllJoyn.Status
import AllJoyn.Text

/-!
The names under which a routing node advertises its sessionless signals
(`SessionlessObj.cc`): an interface, the version of the node, its short GUID
and the change id of its cache, as in `org.alljoyn.About.sl.y2VZ0CWRc.x5`.
-/

namespace AllJoyn.Sessionless

open Text

def version : BitVec 32 := 1

/-- `WildcardInterfaceName`: advertised for match rules without an interface. -/
def wildcardInterfaceName : List Char := "org.alljoyn".toList

/-- `SessionlessObj::AdvertisedName` of a node with a short GUID. -/
def advertisedName (guid iface : List Char) (changeId : BitVec 32) : List Char :=
  iface ++ ".sl.".toList ++ [Char.ofNat ('x'.toNat + version.toNat)] ++ guid ++ ".x".toList ++
    u32ToString changeId

/-- What `ParseAdvertisedName` stores through its pointers. -/
structure Advertised where
  version : BitVec 32
  guid : List Char
  iface : List Char
  changeId : BitVec 32
  deriving DecidableEq

/-- `SessionlessObj::ParseAdvertisedName` with all pointers set and an empty
`iface`; `none` is an exception of `substr`. -/
def parseAdvertisedName (name : List Char) : Option (Except QStatus Advertised) :=
  match findLast '.' name with
  | none => some (.error .fail)
  | some changePos => do
    let changeId ← substr name (changePos + 2) npos
    match findLastOf name '.' changePos with
    | none => return .error .fail
    | some guidPos =>
      -- the length is a difference of `size_t`
      let n := BitVec.ofNat 64 changePos - BitVec.ofNat 64 guidPos - 2
      let guid ← substr name (guidPos + 2) n
      let version := BitVec.ofNat 32 (name.getD (guidPos + 1) '\x00').toNat -
        BitVec.ofNat 32 'x'.toNat
      let iface ← if guidPos > 3 then substr name 0 (BitVec.ofNat 64 (guidPos - 3)) else some []
      return .ok
        { version := version
          guid := guid
          iface := if iface = wildcardInterfaceName then [] else iface
          changeId := stringToU32 changeId }

/-- The interface that stands for a found name: none for the wildcard. -/
def foundInterface (iface : List Char) : List Char :=
  if iface = wildcardInterfaceName then [] else iface

/-- The name of a node is taken apart into what it was put together from. -/
def Recovered (guid iface : List Char) (changeId : BitVec 32) : Prop :=
  parseAdvertisedName (advertisedName guid iface changeId) =
    some (.ok ⟨version, guid, foundInterface iface, changeId⟩)

instance (guid iface : List Char) (changeId : BitVec 32) :
    Decidable (Recovered guid iface changeId) :=
  inferInstanceAs (Decidable (_ = _))

theorem dot_not_mem_u32ToString (num : BitVec 32) : '.' ∉ 'x' :: u32ToString num := by
  intro hmem
  rcases List.mem_cons.mp hmem with hx | hdigit
  · exact absurd hx (by decide)
  · obtain ⟨digit, hlt, hdot⟩ := mem_u32ToString hdigit
    exact (hexChar_digit digit hlt).2.2.2.2 hdot.symm

/-- The second search starts at the dot that the first one found and finds it
again, so that the change id is taken for the GUID and its `x` for the version. -/
theorem parseAdvertisedName_advertisedName (guid iface : List Char) (changeId : BitVec 32) :
    ∃ front, parseAdvertisedName (advertisedName guid iface changeId) =
      some (.ok ⟨0, u32ToString changeId, front, changeId⟩) := by
  let before := iface ++ ".sl.".toList ++ [Char.ofNat ('x'.toNat + version.toNat)] ++ guid
  have hname : advertisedName guid iface changeId = before ++ '.' :: 'x' :: u32ToString changeId := by
    simp [before, advertisedName]
  have hchange : findLast '.' (advertisedName guid iface changeId) = some before.length := by
    rw [hname]
    exact findLast_middle before (dot_not_mem_u32ToString changeId)
  have hguid : findLastOf (advertisedName guid iface changeId) '.' before.length =
      some before.length := by
    rw [hname]
    exact findLastOf_at before _
  have hdigits : (u32ToString changeId).length ≤ 8 := length_u32ToStringLoop 8 changeId.toNat []
  have hcut : ∀ n : BitVec 64, 8 ≤ n.toNat →
      substr (advertisedName guid iface changeId) (before.length + 2) n =
        some (u32ToString changeId) := by
    intro n hn
    have hdrop : (advertisedName guid iface changeId).drop (before.length + 2) =
        u32ToString changeId := by
      rw [hname]
      simp
    rw [substr, hdrop, List.take_of_length_le (by omega), if_pos (by rw [hname]; simp)]
  have hlong : 3 < before.length := by simp [before]; omega
  have hfront : ∀ n : BitVec 64, substr (advertisedName guid iface changeId) 0 n =
      some ((advertisedName guid iface changeId).take n.toNat) := by
    intro n
    rw [substr, if_pos (Nat.zero_le _), List.drop_zero]
  have hx : (advertisedName guid iface changeId).getD (before.length + 1) '\x00' = 'x' := by
    rw [hname]
    simp
  refine ⟨if (advertisedName guid iface changeId).take (BitVec.ofNat 64 (before.length - 3)).toNat =
    wildcardInterfaceName then [] else
    (advertisedName guid iface changeId).take (BitVec.ofNat 64 (before.length - 3)).toNat, ?_⟩
  rw [parseAdvertisedName, hchange]
  simp only [hguid, hcut npos (by decide), Option.bind_eq_bind, Option.bind_some, BitVec.sub_self]
  rw [hcut (0#64 - 2) (by decide), Option.bind_some, if_pos hlong, hx,
    stringToU32_u32ToString]
  rfl

/-- A name that is found gives the change id it was advertised with, and never
all four parts: the version read from it is 0. -/
theorem advertisedName_never_recovered (guid iface : List Char) (changeId : BitVec 32) :
    (∃ parts, parseAdvertisedName (advertisedName guid iface changeId) = some (.ok parts) ∧
      parts.changeId = changeId) ∧ ¬Recovered guid iface changeId := by
  obtain ⟨front, hparse⟩ := parseAdvertisedName_advertisedName guid iface changeId
  refine ⟨⟨_, hparse, rfl⟩, ?_⟩
  intro hrecovered
  rw [Recovered, hparse] at hrecovered
  simp only [Option.some.injEq, Except.ok.injEq, Advertised.mk.injEq] at hrecovered
  exact absurd hrecovered.1 (by decide)

/-- `org.alljoyn.About.sl.y2VZ0CWRc.x5` is not taken apart. -/
theorem aboutName_not_recovered :
    ¬Recovered "2VZ0CWRc".toList "org.alljoyn.About".toList 5 := by
  decide

end AllJoyn.Sessionless
