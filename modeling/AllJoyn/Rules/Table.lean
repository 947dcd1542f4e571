import AllJoyn.Policy.Authorize
import AllJoyn.Sessionless.RemoteCache

/-!
The match rules of the endpoints of a routing node (`RuleTable.cc`). A message
is sent to an endpoint if the first of its rules that matches is not one for
sessionless signals, which are delivered elsewhere.
-/

namespace AllJoyn.Rules

open Sessionless (MessageType)

inductive Setting where
  | notSpecified
  | isFalse
  | isTrue
  deriving DecidableEq, Repr

/-- `Rule`. Its `operator==` compares everything but the flag. -/
structure Rule extends Sessionless.Rule where
  sessionless : Setting
  deriving DecidableEq, Repr

/-- What a rule looks at. The arguments that are strings, and the interfaces of
the objects that an announcement describes, are there if the body can be read. -/
structure Message where
  type : MessageType
  sender : List Char
  iface : List Char
  member : List Char
  path : List Char
  destination : List Char
  args : Option (List (Option (List Char)))
  announced : Option (List (List Char))
  isSessionless : Bool
  deriving DecidableEq, Repr

/-- A field of a rule that is empty matches everything. -/
def fieldMatch (field value : List Char) : Bool := field.isEmpty || field == value

def argsMatch (args : List (Nat × List Char)) (msg : Message) : Bool :=
  args.isEmpty || match msg.args with
    | some values => args.all fun arg => (values[arg.1]?).join == some arg.2
    | none => false

def bytes (text : List Char) : List UInt8 := text.map Char.toUInt8

def implementsMatch (implements : List (List Char)) (msg : Message) : Bool :=
  implements.isEmpty ||
    (msg.iface == "org.alljoyn.About".toList && msg.member == "Announce".toList &&
      match msg.announced with
      | some ifaces => implements.all fun pattern =>
          ifaces.any fun iface => Policy.matchesPrefix (bytes iface) (bytes pattern)
      | none => false)

def Rule.isMatch (rule : Rule) (msg : Message) : Bool :=
  (rule.type == .invalid || rule.type == msg.type) && fieldMatch rule.sender msg.sender &&
    fieldMatch rule.iface msg.iface && fieldMatch rule.member msg.member &&
    fieldMatch rule.path msg.path && fieldMatch rule.destination msg.destination &&
    argsMatch rule.args msg && implementsMatch rule.implements msg &&
    !((rule.sessionless == .isTrue && !msg.isSessionless) ||
      (rule.sessionless == .isFalse && msg.isSessionless))

variable {ε : Type} [DecidableEq ε]

/-- `RuleTable`: the rules of each endpoint, in the order in which they were
added. -/
abbrev Table (ε : Type) := ε → List Rule

def addRule (table : Table ε) (endpoint : ε) (rule : Rule) : Table ε :=
  Function.update table endpoint (table endpoint ++ [rule])

/-- A rule that accepts a message if it is the first to match. -/
def Rule.accepts (rule : Rule) (msg : Message) : Bool :=
  rule.isMatch msg && rule.sessionless != .isTrue

variable {msg : Message} {rules : List Rule} {rule : Rule}

end AllJoyn.Rules
