import AllJoyn.Lib.OrderedMap
import AllJoyn.Lib.Run
import AllJoyn.Lighting.FileParser
import AllJoyn.Text
import Mathlib.Data.Char
import Mathlib.Data.List.Lex

/-!
The two managers of the lighting controller whose maps hold lists of lamps:
`LampGroupManager.cc` and `SceneElementManager.cc`. They are one program with
two sets of words, apart from the effect of a scene element, the bytes each of
them counts and the list of updated lamp groups.
-/

namespace AllJoyn.Lighting

open Lib

inductive Kind where
  | lampGroup
  | sceneElement
  deriving DecidableEq, Repr

/-- The word that opens an entry. -/
def Kind.keyword : Kind → Text
  | .lampGroup => "LampGroup".toList
  | .sceneElement => "SceneElement".toList

def Kind.ending : Kind → Text
  | .lampGroup => "EndLampGroup".toList
  | .sceneElement => "EndSceneElement".toList

/-- What `GenerateUniqueID` is given by the two create methods. -/
def Kind.idStart : Kind → Text
  | .lampGroup => "LAMP_GROUP".toList
  | .sceneElement => "SCENE_ELEMENT".toList

def lampWord : Text := "Lamp".toList

def lampGroupWord : Text := "LampGroup".toList

def effectWord : Text := "Effect".toList

/-- `LampGroup` and `SceneElement`; a lamp group leaves the effect empty. -/
structure Item where
  lamps : List Text
  lampGroups : List Text
  effectID : Text
  deriving DecidableEq, Repr

def Item.empty : Item := { lamps := [], lampGroups := [], effectID := [] }

structure Manager where
  /-- `lampGroups` and `sceneElements`: from an id to a name and an item. -/
  items : List (Text × Text × Item)
  /-- `lampGroupUpdates`, which scene elements do not have. -/
  updates : List Text
  blobLength : UInt64
  initialState : Bool
  deriving DecidableEq, Repr

/-- A manager that found no file. -/
def Manager.fresh : Manager :=
  { items := [], updates := [], blobLength := 0, initialState := true }

/-! ### The text of a map -/

/-- Only a scene element writes an effect. -/
def Kind.effectString (kind : Kind) (item : Item) : Text :=
  match kind with
  | .lampGroup => []
  | .sceneElement => ' ' :: effectWord ++ ' ' :: item.effectID

/-- `GetString(name, id, item)`. -/
def Kind.entryString (kind : Kind) (name id : Text) (item : Item) : Text :=
  kind.keyword ++ ' ' :: id ++ ' ' :: '"' :: name ++ '"' ::
    (item.lamps.flatMap fun lamp => ' ' :: lampWord ++ ' ' :: lamp) ++
    (item.lampGroups.flatMap fun group => ' ' :: lampGroupWord ++ ' ' :: group) ++
    kind.effectString item ++ ' ' :: kind.ending ++ ['\n']

/-- `GetString(items)`. -/
def Kind.getString (kind : Kind) (initialState : Bool) (items : List (Text × Text × Item)) :
    Text :=
  if items = [] then
    let id := if initialState then initialStateID else resetID
    kind.keyword ++ ' ' :: id ++ ' ' :: '"' :: id ++ '"' :: ' ' :: kind.ending ++ ['\n']
  else items.flatMap fun (id, name, item) => kind.entryString name id item

/-! ### Reading the text back -/

/-- The inner loop of `ReplaceMap`. Its exit condition compares a token that
has just been found to be one of the words below with the ending, so it is
only left through the last branch. -/
def Kind.readMembers (kind : Kind) : Nat → Stream → Item → Option (Item × Stream)
  | 0, _, _ => none
  | fuel + 1, stream, item => do
    let (token, stream) ← parseString stream
    if token = lampWord then
      let (member, stream) ← parseString stream
      kind.readMembers fuel stream { item with lamps := item.lamps ++ [member] }
    else if token = lampGroupWord then
      let (member, stream) ← parseString stream
      kind.readMembers fuel stream { item with lampGroups := item.lampGroups ++ [member] }
    else if kind = .sceneElement ∧ token = effectWord then
      let (effectID, stream) ← parseString stream
      kind.readMembers fuel stream { item with effectID := effectID }
    else some (item, stream)

/-- Lamp groups count the ids of the entries they read. -/
def Kind.countId (kind : Kind) (id : Text) (blobLength : UInt64) : UInt64 :=
  match kind with
  | .lampGroup => blobLength + UInt64.ofNat id.length
  | .sceneElement => blobLength

/-- The outer loop of `ReplaceMap`. -/
def Kind.replaceLoop (kind : Kind) : Nat → Stream → Bool → Manager → Option Manager
  | 0, _, _, _ => none
  | fuel + 1, stream, firstIteration, manager =>
    if stream.eof then some manager
    else do
      let (token, stream) ← parseString stream
      if token = resetID then
        kind.replaceLoop fuel stream firstIteration { manager with items := [] }
      else if token = kind.keyword then
        let (id, stream) ← parseString stream
        let (name, stream) ← parseString stream
        if id = resetID then
          kind.replaceLoop fuel stream firstIteration { manager with items := [] }
        else if id = initialStateID then
          kind.replaceLoop fuel stream firstIteration manager
        else
          let items := if firstIteration then [] else manager.items
          let (item, stream) ← kind.readMembers (stream.words.length + 1) stream .empty
          kind.replaceLoop fuel stream false
            { manager with
              items := OrderedMap.insert id (name, item) items
              blobLength := kind.countId id manager.blobLength }
      else kind.replaceLoop fuel stream firstIteration manager

/-- `ReplaceMap` on the stream of a text. Every turn of the loop but the last
takes a word or meets the end of the stream. -/
def Kind.replaceMap (kind : Kind) (manager : Manager) (text : Text) : Option Manager :=
  let stream := Stream.ofText text
  kind.replaceLoop (stream.words.length + 2) stream true manager

/-! ### The methods that change a map -/

inductive ResponseCode where
  | ok
  | busy
  | invalidArgs
  | emptyName
  | resources
  | notFound
  | noSlot
  | dependency
  deriving DecidableEq, Repr

def maxFileLen : UInt64 := 1024 * 127

/-- `OEM_CS_MAX_SUPPORTED_NUM_LSF_ENTITY`. -/
def maxEntities : Nat := 100

def createUniqueList (ids : List Text) : List Text :=
  ids.foldl (fun uniqueList id => if id ∈ uniqueList then uniqueList else uniqueList ++ [id]) []

/-- The constructor that reads the arguments of a method call. -/
def Kind.newItem (kind : Kind) (lamps lampGroups : List Text) (effectID : Text) : Item :=
  { lamps := createUniqueList lamps
    lampGroups := createUniqueList lampGroups
    effectID := match kind with
      | .lampGroup => []
      | .sceneElement => effectID }

def bytesToHexString (bytes : List UInt8) : Text :=
  bytes.flatMap fun byte =>
    [AllJoyn.Text.hexChar (byte.toNat / 16), AllJoyn.Text.hexChar (byte.toNat % 16)]

/-- `GenerateUniqueID` with the random bytes it draws. -/
def Kind.generateUniqueID (kind : Kind) (random : Vector UInt8 8) : Text :=
  kind.idStart ++ bytesToHexString random.toList

/-- What the controller service and the lock of the map answer to a method. -/
structure Access where
  updatesAllowed : Bool
  locked : Bool
  deriving DecidableEq, Repr

section Methods

variable (kind : Kind) (maxNameLength : Nat) (access : Access) (manager : Manager)

def Kind.textLength (id name : Text) (item : Item) : UInt64 :=
  UInt64.ofNat (kind.entryString name id item).length

/-- `CreateLampGroup` and `CreateSceneElementInternal`. -/
def Kind.create (random : Vector UInt8 8) (name language : Text) (item : Item) :
    ResponseCode × Manager :=
  let id := kind.generateUniqueID random
  if !access.updatesAllowed then (.busy, manager)
  else if language ≠ "en".toList then (.invalidArgs, manager)
  else if name = [] then (.emptyName, manager)
  else if name.length > maxNameLength then (.invalidArgs, manager)
  else if item.lamps = [] ∧ item.lampGroups = [] then (.invalidArgs, manager)
  else if kind = .sceneElement ∧ item.effectID = [] then (.invalidArgs, manager)
  else if !access.locked then (.busy, manager)
  else if manager.items.length < maxEntities then
    let newlen := kind.countId id (manager.blobLength + kind.textLength id name item)
    if newlen < maxFileLen then
      (.ok, { manager with
        items := OrderedMap.insert id (name, item) manager.items
        blobLength := newlen
        initialState := false })
    else (.resources, manager)
  else (.noSlot, manager)

/-- `UpdateLampGroup` and `UpdateSceneElement`. Neither looks at the effect. -/
def Kind.update (id : Text) (item : Item) : ResponseCode × Manager :=
  if !access.updatesAllowed then (.busy, manager)
  else if item.lamps = [] ∧ item.lampGroups = [] then (.invalidArgs, manager)
  else if !access.locked then (.busy, manager)
  else
    match OrderedMap.find id manager.items with
    | none => (.notFound, manager)
    | some (name, old) =>
      let newlen := manager.blobLength - kind.textLength id name old +
        kind.textLength id name item
      if newlen < maxFileLen then
        (.ok, { manager with
          items := OrderedMap.insert id (name, item) manager.items
          updates := match kind with
            | .lampGroup =>
              if id ∈ manager.updates then manager.updates
              else manager.updates.orderedInsert (· ≤ ·) id
            | .sceneElement => manager.updates
          blobLength := newlen
          initialState := false })
      else (.resources, manager)

/-- `SetLampGroupName` and `SetSceneElementName`. -/
def setName (id name language : Text) : ResponseCode × Manager :=
  if !access.updatesAllowed then (.busy, manager)
  else if language ≠ "en".toList then (.invalidArgs, manager)
  else if name = [] then (.emptyName, manager)
  else if name.length > maxNameLength then (.invalidArgs, manager)
  else if !access.locked then (.busy, manager)
  else
    match OrderedMap.find id manager.items with
    | none => (.notFound, manager)
    | some (old, item) =>
      let newlen := manager.blobLength - UInt64.ofNat old.length + UInt64.ofNat name.length
      if newlen < maxFileLen then
        (.ok, { manager with
          items := OrderedMap.insert id (name, item) manager.items
          blobLength := newlen
          initialState := false })
      else (.resources, manager)

/-- `DeleteLampGroup` and `DeleteSceneElementInternal`; the answer of the
managers that may refer to the id is given. -/
def Kind.delete (id : Text) (dependent : Bool) : ResponseCode × Manager :=
  if !access.updatesAllowed then (.busy, manager)
  else if dependent then (.dependency, manager)
  else if !access.locked then (.busy, manager)
  else
    match OrderedMap.find id manager.items with
    | none => (.notFound, manager)
    | some (name, item) =>
      (.ok, { manager with
        items := OrderedMap.erase id manager.items
        updates := match kind with
          | .lampGroup => manager.updates.filter (· ≠ id)
          | .sceneElement => manager.updates
        blobLength := manager.blobLength - kind.countId id (kind.textLength id name item)
        initialState := false })

end Methods

inductive Method where
  | create (random : Vector UInt8 8) (name language : Text) (lamps lampGroups : List Text)
      (effectID : Text)
  | update (id : Text) (lamps lampGroups : List Text) (effectID : Text)
  | setName (id name language : Text)
  | delete (id : Text) (dependent : Bool)
  deriving DecidableEq, Repr

def Kind.call (kind : Kind) (maxNameLength : Nat) (manager : Manager)
    (call : Access × Method) : ResponseCode × Manager :=
  match call.2 with
  | .create random name language lamps lampGroups effectID =>
    kind.create maxNameLength call.1 manager random name language
      (kind.newItem lamps lampGroups effectID)
  | .update id lamps lampGroups effectID =>
    kind.update call.1 manager id (kind.newItem lamps lampGroups effectID)
  | .setName id name language =>
    Lighting.setName maxNameLength call.1 manager id name language
  | .delete id dependent => kind.delete call.1 manager id dependent

/-- The manager after a sequence of method calls, the oldest first. -/
def Kind.after (kind : Kind) (maxNameLength : Nat) (calls : List (Access × Method)) : Manager :=
  calls.foldl (fun manager call => (kind.call maxNameLength manager call).2) .fresh

/-! ### What every reachable manager satisfies -/

/-- What is known of the ids the managers draw. -/
structure Kind.IsId (kind : Kind) (id : Text) : Prop where
  noSpace : NoSpace id
  noQuote : '"' ∉ id
  start : kind.idStart <+: id

theorem hexChar_plain : ∀ digit < 16,
    isSpace (AllJoyn.Text.hexChar digit) = false ∧ AllJoyn.Text.hexChar digit ≠ '"' := by
  decide

theorem bytesToHexString_plain (bytes : List UInt8) :
    ∀ c ∈ bytesToHexString bytes, isSpace c = false ∧ c ≠ '"' := by
  intro c hc
  obtain ⟨byte, -, hc⟩ := List.mem_flatMap.mp hc
  have hbyte : byte.toNat < 256 := byte.toNat_lt
  simp only [List.mem_cons, List.not_mem_nil, or_false] at hc
  rcases hc with rfl | rfl
  · exact hexChar_plain _ (by omega)
  · exact hexChar_plain _ (by omega)

variable (kind : Kind)

theorem Kind.generateUniqueID_isId (random : Vector UInt8 8) :
    kind.IsId (kind.generateUniqueID random) := by
  have hstart : NoSpace kind.idStart ∧ '"' ∉ kind.idStart := by
    cases kind with
    | lampGroup => decide
    | sceneElement => decide
  have hplain : ∀ c ∈ kind.generateUniqueID random, isSpace c = false ∧ c ≠ '"' := by
    intro c hc
    rcases List.mem_append.mp hc with hfront | hhex
    · exact ⟨hstart.1 c hfront, fun hquote => hstart.2 (hquote ▸ hfront)⟩
    · exact bytesToHexString_plain _ c hhex
  exact ⟨fun c hc => (hplain c hc).1, fun hquote => (hplain _ hquote).2 rfl,
    List.prefix_append _ _⟩

/-- The map is ordered by its ids, which the manager has drawn, and a lamp
group has no effect. -/
structure Manager.Valid (kind : Kind) (manager : Manager) : Prop where
  sorted : OrderedMap.Sorted manager.items
  ids : ∀ entry ∈ manager.items, kind.IsId entry.1
  effects : kind = .lampGroup → ∀ entry ∈ manager.items, entry.2.2.effectID = []

variable {manager : Manager}

theorem Manager.Valid.insert {kind : Kind} {next : Manager} (hvalid : manager.Valid kind)
    {id name : Text} {item : Item} (hid : kind.IsId id)
    (hitem : kind = .lampGroup → item.effectID = [])
    (hnext : next.items = OrderedMap.insert id (name, item) manager.items) :
    next.Valid kind where
  sorted := hnext ▸ hvalid.sorted.insert id (name, item)
  ids := by
    intro entry hentry
    rw [hnext] at hentry
    rcases OrderedMap.mem_insert hentry with rfl | hold
    · exact hid
    · exact hvalid.ids entry hold
  effects := by
    intro hkind entry hentry
    rw [hnext] at hentry
    rcases OrderedMap.mem_insert hentry with rfl | hold
    · exact hitem hkind
    · exact hvalid.effects hkind entry hold

theorem Kind.newItem_effectID {kind : Kind} (hkind : kind = .lampGroup)
    (lamps lampGroups : List Text) (effectID : Text) :
    (kind.newItem lamps lampGroups effectID).effectID = [] := by
  subst hkind
  rfl

/-- A step adds nothing to the map or sets one of its entries: under an id it
draws or one that was there, to an item it builds or one that was there. -/
def Kind.Sets (kind : Kind) (manager next : Manager) : Prop :=
  next.items.Sublist manager.items ∨
    ∃ id name item,
      next.items = OrderedMap.insert id (name, item) manager.items ∧
      ((∃ random, id = kind.generateUniqueID random) ∨
        ∃ old, OrderedMap.find id manager.items = some old) ∧
      ((∃ lamps lampGroups effectID, item = kind.newItem lamps lampGroups effectID) ∨
        ∃ old, OrderedMap.find id manager.items = some (old, item))

theorem Kind.Sets.ite {kind : Kind} {c : Prop} [Decidable c] {first second : ResponseCode × Manager}
    (hfirst : kind.Sets manager first.2) (hsecond : kind.Sets manager second.2) :
    kind.Sets manager (if c then first else second).2 := by
  split_ifs
  · exact hfirst
  · exact hsecond

theorem Kind.Sets.refl (manager : Manager) : kind.Sets manager manager :=
  .inl (List.Sublist.refl _)

theorem Kind.call_sets (maxNameLength : Nat) (manager : Manager)
    (call : Access × Method) :
    kind.Sets manager (kind.call maxNameLength manager call).2 := by
  obtain ⟨access, method⟩ := call
  cases method with
  | create random name language lamps lampGroups effectID =>
    iterate 7 refine .ite (.refl kind manager) ?_
    refine .ite (.ite ?_ (.refl kind manager)) (.refl kind manager)
    exact .inr ⟨_, _, _, rfl, .inl ⟨random, rfl⟩, .inl ⟨lamps, lampGroups, effectID, rfl⟩⟩
  | update id lamps lampGroups effectID =>
    iterate 3 refine .ite (.refl kind manager) ?_
    cases hfind : OrderedMap.find id manager.items with
    | none => exact .refl kind manager
    | some old =>
      refine .ite ?_ (.refl kind manager)
      exact .inr ⟨_, _, _, rfl, .inr ⟨old, hfind⟩, .inl ⟨lamps, lampGroups, effectID, rfl⟩⟩
  | setName id name language =>
    iterate 5 refine .ite (.refl kind manager) ?_
    cases hfind : OrderedMap.find id manager.items with
    | none => exact .refl kind manager
    | some old =>
      refine .ite ?_ (.refl kind manager)
      exact .inr ⟨_, _, _, rfl, .inr ⟨old, hfind⟩, .inr ⟨old.1, hfind⟩⟩
  | delete id dependent =>
    iterate 3 refine .ite (.refl kind manager) ?_
    cases hfind : OrderedMap.find id manager.items with
    | none => exact .refl kind manager
    | some old => exact .inl List.filter_sublist

theorem Manager.Valid.call {kind : Kind} (hvalid : manager.Valid kind) (maxNameLength : Nat)
    (call : Access × Method) : (kind.call maxNameLength manager call).2.Valid kind := by
  rcases kind.call_sets maxNameLength manager call with
    hfewer | ⟨id, name, item, hnext, hid, hitem⟩
  · exact ⟨hvalid.sorted.sublist hfewer,
      fun entry hentry => hvalid.ids entry (hfewer.subset hentry),
      fun hkind entry hentry => hvalid.effects hkind entry (hfewer.subset hentry)⟩
  · refine hvalid.insert ?_ ?_ hnext
    · rcases hid with ⟨random, rfl⟩ | ⟨old, hfind⟩
      · exact kind.generateUniqueID_isId random
      · exact hvalid.ids _ (OrderedMap.mem_of_find hfind)
    · intro hkind
      rcases hitem with ⟨lamps, lampGroups, effectID, rfl⟩ | ⟨old, hfind⟩
      · exact Kind.newItem_effectID hkind lamps lampGroups effectID
      · exact hvalid.effects hkind _ (OrderedMap.mem_of_find hfind)

theorem Kind.after_valid (maxNameLength : Nat) (calls : List (Access × Method)) :
    (kind.after maxNameLength calls).Valid kind := by
  refine Run.foldl_invariant (Manager.Valid kind) ?_ ?_ calls
  · intro manager call hvalid
    exact hvalid.call maxNameLength call
  · exact ⟨List.Pairwise.nil, by simp [Manager.fresh], by simp [Manager.fresh]⟩

end AllJoyn.Lighting
