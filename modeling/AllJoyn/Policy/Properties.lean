import AllJoyn.Policy.Authorize
import AllJoyn.Wire.Access

/-!
`ParsePropertiesMessage`: the request that a message of the interface
`org.freedesktop.DBus.Properties` stands for. Two of its variables start with
what the stack held before, and one of the successful paths hands such a
variable on to the request.
-/

namespace AllJoyn.Policy

open Wire Lib.Result

/-- `GetAll` -/
def getAllName : List UInt8 := [71, 101, 116, 65, 108, 108]

/-- `Get` -/
def getName : List UInt8 := [71, 101, 116]

/-- `Set` -/
def setName : List UInt8 := [83, 101, 116]

/-- `PropertiesChanged` -/
def propertiesChangedName : List UInt8 :=
  [80, 114, 111, 112, 101, 114, 116, 105, 101, 115, 67, 104, 97, 110, 103, 101, 100]

/-- What `ParsePropertiesMessage` reads of a message: its member, the arguments
it was received with and those it was composed of. -/
structure PropertiesMessage where
  memberName : List UInt8
  args : List MsgArg
  refArgs : List MsgArg

/-- The pointers `propIName` and `propName`; none for a null pointer. -/
structure PropertyNames where
  propIName : Option (List UInt8)
  propName : Option (List UInt8)

/-- The string behind a pointer, empty for a null pointer. -/
def nameAt (pointer : Option (List UInt8)) : List UInt8 := cString (pointer.getD [])

/-- The pointer that `Get` with the format `s` stores. -/
def textOf : List Parameter → Option (List UInt8)
  | .text str :: _ => str
  | _ => none

/-- `Get("s", &name)` of one argument. -/
def getString (arg : MsgArg) : Except QStatus (Option (List UInt8)) :=
  (arg.get .string).map textOf

/-- `Message::GetArgs("s", &name)`: the message has this one argument. -/
def getStringArgs (args : List MsgArg) : Except QStatus (Option (List UInt8)) :=
  (getArgs [.string] args).map textOf

/-- The branch for `GetAll`. -/
def parseGetAll (request : Request) (msg : PropertiesMessage) :
    Except QStatus (Request × PropertyNames) := do
  let propIName ←
    if request.outgoing then
      match msg.refArgs with
      | [] => Except.error .invalidData
      | arg :: _ => getString arg
    else getStringArgs msg.args
  return ({ request with propertyRequest := true, mbrType := .property }, ⟨propIName, none⟩)

/-- The branch for `Get` and `Set`. -/
def parseGetSet (request : Request) (msg : PropertiesMessage) :
    Except QStatus (Request × PropertyNames) :=
  match if request.outgoing then msg.refArgs else msg.args with
  | first :: second :: _ => do
    let propIName ← getString first
    let propName ← getString second
    return ({ request with
      propertyRequest := true
      mbrType := .property
      isSetProperty := setName.isPrefixOf msg.memberName }, ⟨propIName, propName⟩)
  | _ => .error .invalidData

/-- The branch for `PropertiesChanged`, which leaves `propName` as it is. -/
def parsePropertiesChanged (junk : PropertyNames) (request : Request) (arg : MsgArg) :
    Except QStatus (Request × PropertyNames) := do
  let propIName ← getString arg
  return ({ request with propertyRequest := true, mbrType := .signal },
    { junk with propIName := propIName })

/-- The end of `ParsePropertiesMessage`: a failed branch returns before the
request has been touched. -/
def assignNames (request : Request) :
    Except QStatus (Request × PropertyNames) → QStatus × Request
  | .error status => (status, request)
  | .ok (request, names) =>
    (.ok, { request with iName := nameAt names.propIName, mbrName := nameAt names.propName })

/-- `ParsePropertiesMessage`, with the first contents of its variables; none
when it follows a null pointer. -/
def parsePropertiesMessage (junk : PropertyNames) (request : Request) (msg : PropertiesMessage) :
    Option (QStatus × Request) :=
  if getAllName.isPrefixOf msg.memberName then
    some (assignNames request (parseGetAll request msg))
  else if getName.isPrefixOf msg.memberName ∨ setName.isPrefixOf msg.memberName then
    some (assignNames request (parseGetSet request msg))
  else if propertiesChangedName.isPrefixOf msg.memberName then
    match msg.args with
    | [] => none
    | arg :: _ => some (assignNames request (parsePropertiesChanged junk request arg))
  else some (.fail, request)

/-- A `PropertiesChanged` message whose first argument is a string: the one
kind of message that is taken without a property name. -/
def ChangesProperties (msg : PropertiesMessage) : Prop :=
  propertiesChangedName.isPrefixOf msg.memberName ∧
    ∃ arg rest name, msg.args = arg :: rest ∧ arg.expand = .string name

theorem getString_eq_ok_iff {arg : MsgArg} {name : Option (List UInt8)} :
    getString arg = .ok name ↔ arg.expand = .string name := by
  unfold getString MsgArg.get getArg
  cases arg.expand <;> simp [Except.map, textOf]

variable {msg : PropertiesMessage}

/-- The other branches do not read what their variables held before. -/
theorem parsePropertiesMessage_congr (junk junk' : PropertyNames) (request : Request)
    (hother : ¬propertiesChangedName.isPrefixOf msg.memberName) :
    parsePropertiesMessage junk request msg = parsePropertiesMessage junk' request msg := by
  simp only [parsePropertiesMessage, hother]
  rfl

theorem parsePropertiesMessage_changed (junk : PropertyNames) (request : Request)
    (hmember : propertiesChangedName.isPrefixOf msg.memberName) :
    parsePropertiesMessage junk request msg = msg.args.head?.map fun arg =>
      assignNames request (parsePropertiesChanged junk request arg) := by
  obtain ⟨rest, hname⟩ := List.isPrefixOf_iff_prefix.mp hmember
  have hgetAll : getAllName.isPrefixOf msg.memberName = false := by rw [← hname]; rfl
  have hget : getName.isPrefixOf msg.memberName = false := by rw [← hname]; rfl
  have hset : setName.isPrefixOf msg.memberName = false := by rw [← hname]; rfl
  simp only [parsePropertiesMessage, hgetAll, hget, hset, hmember]
  cases msg.args <;> simp

/-- Two successful runs on a message produce the same request, whatever the
variables held before, unless the message tells of changed properties. -/
theorem parsePropertiesMessage_deterministic_iff (request : Request) (msg : PropertiesMessage) :
    (∀ junk junk' request₁ request₂,
        parsePropertiesMessage junk request msg = some (.ok, request₁) →
        parsePropertiesMessage junk' request msg = some (.ok, request₂) →
        request₁ = request₂) ↔ ¬ChangesProperties msg := by
  constructor
  · rintro hsame ⟨hmember, arg, rest, name, hargs, hstring⟩
    have hparsed (junk : PropertyNames) : parsePropertiesMessage junk request msg =
        some (.ok, { request with
          propertyRequest := true
          mbrType := .signal
          iName := nameAt name
          mbrName := nameAt junk.propName }) := by
      rw [parsePropertiesMessage_changed junk request hmember, hargs, List.head?_cons,
        Option.map_some, parsePropertiesChanged, getString_eq_ok_iff.mpr hstring]
      rfl
    have hnames := congrArg Request.mbrName (hsame ⟨none, none⟩ ⟨none, some [120]⟩ _ _
      (hparsed ⟨none, none⟩) (hparsed ⟨none, some [120]⟩))
    have hdiffer : nameAt none ≠ nameAt (some [120]) := by decide
    exact hdiffer hnames
  · intro hother junk junk' request₁ request₂ hfirst hsecond
    by_cases hmember : propertiesChangedName.isPrefixOf msg.memberName
    · rw [parsePropertiesMessage_changed _ request hmember] at hfirst hsecond
      cases hargs : msg.args with
      | nil => simp [hargs] at hfirst
      | cons arg rest =>
        rw [hargs, List.head?_cons, Option.map_some, parsePropertiesChanged] at hfirst hsecond
        cases hstring : getString arg with
        | error status =>
          rw [hstring, error_bind, assignNames] at hfirst hsecond
          cases hfirst
          cases hsecond
          rfl
        | ok name =>
          exact absurd ⟨hmember, arg, rest, name, hargs, getString_eq_ok_iff.mp hstring⟩ hother
    · rw [parsePropertiesMessage_congr junk junk' request hmember, hsecond] at hfirst
      cases hfirst
      rfl

/-- A signal about the interface `i` is taken with whatever name the stack
held. -/
theorem parsePropertiesMessage_stale_name :
    let msg : PropertiesMessage := ⟨propertiesChangedName, [.string (some [105])], []⟩
    let request : Request := ⟨false, false, false, [47], [], [], .signal⟩
    let produced (name : List UInt8) : Request := ⟨false, true, false, [47], [105], name, .signal⟩
    parsePropertiesMessage ⟨none, some [97]⟩ request msg = some (.ok, produced [97]) ∧
      parsePropertiesMessage ⟨none, some [98]⟩ request msg = some (.ok, produced [98]) ∧
      produced [97] ≠ produced [98] := by
  exact ⟨rfl, rfl, by decide⟩

end AllJoyn.Policy
