import AllJoyn.Message.Fields

/-!
The checks of a received header: the names that are legal (`BusUtil.cc`), and
`_Message::HeaderChecks` with its pedantic mode (`Message_Parse.cc`). A string
is checked up to its first NUL.
-/

namespace AllJoyn.Msg

open Wire

/-! ### Legal names -/

def isAlpha (c : UInt8) : Bool := (65 ≤ c && c ≤ 90) || (97 ≤ c && c ≤ 122)

def isDecimalDigit (c : UInt8) : Bool := 48 ≤ c && c ≤ 57

def isAlphaNumeric (c : UInt8) : Bool := isAlpha c || isDecimalDigit c

def dot : UInt8 := 46
def slash : UInt8 := 47
def colon : UInt8 := 58
def hyphen : UInt8 := 45
def underscore : UInt8 := 95

/-- The loop over the characters of a name behind the first: the periods in it.
A character that is not `plain` must be a period, with a character behind it
that `mayFollow` allows. -/
def scanName (plain mayFollow : UInt8 → Bool) : List UInt8 → Nat → Option Nat
  | [], periods => some periods
  | c :: rest, periods =>
    if plain c then scanName plain mayFollow rest periods
    else if c ≠ dot ∨ rest.headD 0 = dot ∨ rest.headD 0 = 0 ∨ ¬mayFollow (rest.headD 0) then none
    else scanName plain mayFollow rest (periods + 1)

/-- The end of the check of a name: it has a period, and with its terminator
it is not longer than `MAX_NAME_LEN`. -/
def nameEnds (str : List UInt8) (periods : Option Nat) : Bool :=
  periods.any (0 < ·) && str.length + 1 ≤ 256

def namePlain (c : UInt8) : Bool := isAlphaNumeric c || c = hyphen || c = underscore

/-- `IsLegalUniqueName` of the characters of a string. -/
def isLegalUniqueName (str : List UInt8) : Bool :=
  match str with
  | first :: second :: rest =>
    first = colon && namePlain second &&
      nameEnds str (scanName namePlain (fun _ => true) rest 0)
  | _ => false

def isLegalBusName (str : List UInt8) : Bool :=
  if str.headD 0 = colon then isLegalUniqueName str
  else
    match str with
    | [] => false
    | first :: rest =>
      (isAlpha first || first = underscore || first = hyphen) &&
        nameEnds str (scanName namePlain (fun c => !isDecimalDigit c) rest 0)

def scanObjectPath : List UInt8 → Bool
  | [] => true
  | c :: rest =>
    if isAlphaNumeric c ∨ c = underscore then scanObjectPath rest
    else if c ≠ slash ∨ rest.headD 0 = slash ∨ rest.headD 0 = 0 then false
    else scanObjectPath rest

def isLegalObjectPath : List UInt8 → Bool
  | [] => false
  | first :: rest => first = slash && scanObjectPath rest

def memberPlain (c : UInt8) : Bool := isAlphaNumeric c || c = underscore

def isLegalInterfaceName (str : List UInt8) : Bool :=
  match str with
  | [] => false
  | first :: rest =>
    (isAlpha first || first = underscore) &&
      nameEnds str (scanName memberPlain (fun _ => true) rest 0)

def isLegalMemberName (str : List UInt8) : Bool :=
  match str with
  | [] => false
  | first :: rest =>
    (isAlpha first || first = underscore) && rest.all memberPlain && str.length + 1 ≤ 256

/-- A check of a C string; a NULL pointer is never legal. -/
def onCString (legal : List UInt8 → Bool) (str : Option (List UInt8)) : Bool :=
  str.any fun chars => legal (cString chars)

/-! ### HeaderChecks -/

/-- `ALLJOYN_MAX_NAME_LEN`. -/
def maxNameLen : Nat := 255

/-- The check of a string field in `PedanticCheck`. -/
def checkName (legal : List UInt8 → Bool) (illegal : QStatus) (str : Option (List UInt8)) :
    QStatus :=
  if (str.getD []).length > maxNameLen then .busNameTooLong
  else if onCString legal str then .ok
  else illegal

/-- `PedanticCheck`: only strings are checked, which an object path is not. -/
def pedanticCheck (id : FieldId) : MsgArg → QStatus
  | .string str =>
    match id with
    | .path => checkName isLegalObjectPath .busBadObjPath str
    | .interface => checkName isLegalInterfaceName .busBadInterfaceName str
    | .member => checkName isLegalMemberName .busBadMemberName str
    | .errorName => checkName isLegalInterfaceName .busBadErrorName str
    | .sender | .destination => checkName isLegalBusName .busBadBusName str
    | _ => .ok
  | _ => .ok

def HeaderFields.require (fields : HeaderFields) (id : FieldId) (missing : QStatus)
    (next : QStatus) : QStatus :=
  if fields.has id then next else missing

/-- The switch over the message type in `HeaderChecks`. -/
def mandatoryStatus (msgType : MsgType) (fields : HeaderFields) : QStatus :=
  let pathAndMember := fields.require .path .busPathMissing
    (fields.require .member .busMemberMissing .ok)
  let replySerial := fields.require .replySerial .busReplySerialMissing .ok
  match msgType with
  | .signal => fields.require .interface .busInterfaceMissing pathAndMember
  | .methodCall => pathAndMember
  | .error => fields.require .errorName .busErrorNameMissing replySerial
  | .methodRet => replySerial
  | .other _ => .ok

/-- `_Message::HeaderChecks`. The status of each field replaces the one of the
field before it. -/
def headerChecks (msgType : MsgType) (fields : HeaderFields) (pedantic : Bool) : QStatus :=
  let status := mandatoryStatus msgType fields
  if status = .ok ∧ pedantic then
    FieldId.all.foldl (fun _ id => pedanticCheck id (fields.field id)) status
  else status

/-! ### What the checks are for -/

/-- The fields that a message of the type must have. -/
def mandatory : MsgType → List FieldId
  | .signal => [.interface, .path, .member]
  | .methodCall => [.path, .member]
  | .error => [.errorName, .replySerial]
  | .methodRet => [.replySerial]
  | .other _ => []

/-- The function that says whether the text of a field is legal. -/
def FieldId.legal : FieldId → List UInt8 → Bool
  | .path => isLegalObjectPath
  | .interface | .errorName => isLegalInterfaceName
  | .member => isLegalMemberName
  | .sender | .destination => isLegalBusName
  | _ => fun _ => true

/-- The value of a field, if it is a text, is legal. -/
def legalField (id : FieldId) : MsgArg → Bool
  | .string str | .objectPath str => onCString id.legal str
  | _ => true

def HasMandatory (msgType : MsgType) (fields : HeaderFields) : Prop :=
  ∀ id ∈ mandatory msgType, fields.has id

def AllFieldsLegal (fields : HeaderFields) : Prop := ∀ id, legalField id (fields.field id)

instance (msgType : MsgType) (fields : HeaderFields) : Decidable (HasMandatory msgType fields) :=
  inferInstanceAs (Decidable (∀ id ∈ mandatory msgType, fields.has id))

theorem require_eq_ok {fields : HeaderFields} {id : FieldId} {missing next : QStatus}
    (hmissing : missing ≠ .ok) :
    fields.require id missing next = .ok ↔ fields.has id ∧ next = .ok := by
  unfold HeaderFields.require
  split <;> simp_all

variable (msgType : MsgType)

theorem mandatoryStatus_eq_ok (fields : HeaderFields) :
    mandatoryStatus msgType fields = .ok ↔ HasMandatory msgType fields := by
  cases msgType <;>
    simp [mandatoryStatus, HasMandatory, mandatory, require_eq_ok]

/-- The last field of the loop is never checked, so the loop always succeeds. -/
theorem headerChecks_pedantic (fields : HeaderFields) (pedantic : Bool) :
    headerChecks msgType fields pedantic = mandatoryStatus msgType fields := by
  have hlast : pedanticCheck .sessionId (fields.field .sessionId) = .ok := by
    cases fields.field .sessionId <;> rfl
  simp only [headerChecks]
  split
  · next hok => simpa [FieldId.all, hlast] using hok.1.symm
  · rfl

/-- An accepted header has its mandatory fields and only legal values exactly
if some mandatory field is missing, which is noticed, or all values are legal
to begin with: the pedantic mode refuses nothing. -/
theorem headerChecks_sound_iff (msgType : MsgType) (fields : HeaderFields) :
    (headerChecks msgType fields true = .ok →
      HasMandatory msgType fields ∧ AllFieldsLegal fields) ↔
      ¬HasMandatory msgType fields ∨ AllFieldsLegal fields := by
  rw [headerChecks_pedantic, mandatoryStatus_eq_ok]
  tauto

/-- The fields of a method call with the path `/` and a member that is a
digit. -/
def digitCall : HeaderFields :=
  (HeaderFields.none.set .path (.objectPath (some [slash])) (.inr rfl)).set .member
    (.string (some [49])) (.inr rfl)

theorem digitCall_accepted :
    headerChecks .methodCall digitCall true = .ok ∧ ¬AllFieldsLegal digitCall := by
  refine ⟨rfl, fun hlegal => ?_⟩
  have hmember : legalField .member (.string (some [49])) = true := hlegal .member
  revert hmember
  decide

end AllJoyn.Msg
