import AllJoyn.Wire.Types

/-!
`MsgArg::Set` and `MsgArg::Get`: composing an argument from the values that
follow a format string, and taking it apart again. The format is given as the
type it spells. Formats with object paths, signatures or arrays of strings do
not occur in the code modelled here.
-/

namespace AllJoyn.Wire

/-- A parameter behind the format: a number, a string, and the count and
address of an array of numbers or of message arguments. -/
inductive Parameter where
  | number (value : Nat)
  | numbers (values : List Nat)
  | text (str : Option (List UInt8))
  | args (elements : List MsgArg)

/-- A number is stored in the width of its type. -/
def ScalarType.store (type : ScalarType) (value : Nat) : Fin type.range :=
  ⟨value % type.range, Nat.mod_lt _ (by cases type <;> decide)⟩

/-- `MsgArg::BuildArray` for elements that are message arguments. -/
def buildArray (junk : Nat → UInt8) (elemSig : Signature) (elements : List MsgArg) :
    Except QStatus MsgArg :=
  if elements.length > maxArrayLen then .error .busBadValue
  else if elements.all (·.hasSignature junk elemSig) then
    match elementsStatus elemSig elements with
    | .ok => .ok (.array (some elemSig) elements)
    | status => .error status
  else .error .busBadValue

/-- `MsgArg::BuildArray` for elements of fixed size. -/
def buildScalarArray (type : ScalarType) (values : List Nat) : Except QStatus MsgArg :=
  if values.length > maxArrayLen then .error .busBadValue
  else .ok (.scalarArray type (values.map type.store))

mutual
/-- One turn of the loop of `MsgArg::VBuildArgs`. -/
def buildArg (junk : Nat → UInt8) :
    Ty → List Parameter → Except QStatus (MsgArg × List Parameter)
  | .scalar type, .number value :: rest => .ok (.scalar type (type.store value), rest)
  | .string, .text str :: rest => .ok (.string (str.map cString), rest)
  | .variant, .args [val] :: rest => .ok (.variant val, rest)
  | .array (.scalar type), .numbers values :: rest => do
    let arg ← buildScalarArray type values
    return (arg, rest)
  | .array elem, .args elements :: rest => do
    let arg ← buildArray junk elem.sig elements
    return (arg, rest)
  | .struct members, parameters => do
    let (args, rest) ← buildArgs junk members parameters
    return (.struct args, rest)
  | _, _ => .error .busBadSignature

def buildArgs (junk : Nat → UInt8) :
    List Ty → List Parameter → Except QStatus (List MsgArg × List Parameter)
  | [], parameters => .ok ([], parameters)
  | type :: types, parameters => do
    let (arg, rest) ← buildArg junk type parameters
    let (args, rest) ← buildArgs junk types rest
    return (arg :: args, rest)
end

def MsgArg.set (junk : Nat → UInt8) (format : Ty) (parameters : List Parameter) :
    Except QStatus MsgArg :=
  (buildArg junk format parameters).map Prod.fst

/-- Variants are expanded to the value they hold. -/
def MsgArg.expand : MsgArg → MsgArg
  | .variant val => val.expand
  | arg => arg

/-- The scalar arrays that `MsgArg::ParseArray` takes for one another. -/
def ScalarType.sameArray (first second : ScalarType) : Bool :=
  if first = .boolean ∨ second = .boolean then first = second else first.size = second.size

/-- `MsgArg::ParseArray`. The element signatures are compared up to the length
of the one in the format. -/
def getArray (elem : Ty) : MsgArg → Except QStatus Parameter
  | .scalarArray type values =>
    match elem with
    | .scalar elemType =>
      if elemType.sameArray type then .ok (.numbers (values.map (·.val)))
      else .error .busSignatureMismatch
    | _ => .error .busSignatureMismatch
  | .array (some elemSig) elements =>
    match elem with
    | .scalar _ => .error .busSignatureMismatch
    | _ =>
      if elem.sig.isPrefixOf elemSig then .ok (.args elements)
      else .error .busSignatureMismatch
  | _ => .error .busSignatureMismatch

mutual
/-- One turn of the loop of `MsgArg::VParseArgs`. -/
def getArg : Ty → MsgArg → Except QStatus (List Parameter)
  | .scalar type, arg =>
    match arg.expand with
    | .scalar argType value =>
      if argType = type then .ok [.number value.val] else .error .busSignatureMismatch
    | _ => .error .busSignatureMismatch
  | .string, arg =>
    match arg.expand with
    | .string str => .ok [.text str]
    | _ => .error .busSignatureMismatch
  | .variant, arg =>
    match arg with
    | .variant val => .ok [.args [val.expand]]
    | _ => .error .busSignatureMismatch
  | .array elem, arg => do
    let parameter ← getArray elem arg.expand
    return [parameter]
  | .struct members, arg =>
    match arg.expand with
    | .struct args => getArgs members args
    | _ => .error .busSignatureMismatch
  | _, _ => .error .busBadSignature

/-- The loop of `MsgArg::VParseArgs`; there must be as many arguments as types. -/
def getArgs : List Ty → List MsgArg → Except QStatus (List Parameter)
  | [], [] => .ok []
  | type :: types, arg :: args => do
    let first ← getArg type arg
    let rest ← getArgs types args
    return first ++ rest
  | _, _ => .error .busSignatureMismatch
end

def MsgArg.get (arg : MsgArg) (format : Ty) : Except QStatus (List Parameter) := getArg format arg

/-! ### What is set is got back -/

open Lib.Result

/-- The argument is made from these parameters in a format and gives them
back. -/
structure Stores (junk : Nat → UInt8) (type : Ty) (used : List Parameter) (arg : MsgArg) :
    Prop where
  built : ∀ rest, buildArg junk type (used ++ rest) = .ok (arg, rest)
  got : getArg type arg = .ok used

/-- The same for the members of a struct. -/
structure AllStore (junk : Nat → UInt8) (types : List Ty) (used : List Parameter)
    (args : List MsgArg) : Prop where
  built : ∀ rest, buildArgs junk types (used ++ rest) = .ok (args, rest)
  got : getArgs types args = .ok used

section Stores

variable {junk : Nat → UInt8}

variable {type : Ty} {used : List Parameter} {arg : MsgArg}

theorem Stores.set_eq (hstores : Stores junk type used arg) :
    MsgArg.set junk type used = .ok arg := by
  have hbuilt := hstores.built []
  rw [List.append_nil] at hbuilt
  rw [MsgArg.set, hbuilt, Except.map]

theorem Stores.get_eq (hstores : Stores junk type used arg) : arg.get type = .ok used := hstores.got

variable {value : Nat}

theorem ScalarType.store_val {type : ScalarType} (hrange : value < type.range) :
    (type.store value).val = value := Nat.mod_eq_of_lt hrange

theorem Stores.scalar {type : ScalarType} (hrange : value < type.range) :
    Stores junk (.scalar type) [.number value] (.scalar type (type.store value)) where
  built := fun _ => rfl
  got := by simp [getArg, MsgArg.expand, ScalarType.store_val hrange]

theorem Stores.string {str : List UInt8} (hnonzero : ∀ char ∈ str, char ≠ 0) :
    Stores junk .string [.text (some str)] (.string (some str)) where
  built := by
    intro rest
    change Except.ok (MsgArg.string (some (cString str)), rest) = _
    rw [cString_of_nonzero hnonzero]
  got := rfl

theorem Stores.scalarArray {type : ScalarType} {values : List Nat}
    (hlength : values.length ≤ maxArrayLen) (hrange : ∀ value ∈ values, value < type.range) :
    Stores junk (.array (.scalar type)) [.numbers values]
      (.scalarArray type (values.map type.store)) where
  built := by
    intro rest
    rw [List.singleton_append, buildArg, buildScalarArray, if_neg (by omega), ok_bind, pure_ok]
  got := by
    have hvalues : (values.map type.store).map (·.val) = values := by
      rw [List.map_map]
      nth_rewrite 2 [← List.map_id values]
      exact List.map_congr_left fun value hmem => ScalarType.store_val (hrange value hmem)
    have hsame : type.sameArray type = true := by cases type <;> rfl
    simp [getArg, MsgArg.expand, getArray, hsame, hvalues]

variable {members : List Ty}

theorem Stores.structArray {elements : List MsgArg}
    (harray : buildArray junk (Ty.struct members).sig elements =
      .ok (.array (some (Ty.struct members).sig) elements)) :
    Stores junk (.array (.struct members)) [.args elements]
      (.array (some (Ty.struct members).sig) elements) where
  built := by
    intro rest
    rw [List.singleton_append, buildArg, harray, ok_bind, pure_ok]
  got := by simp [getArg, MsgArg.expand, getArray]

variable {args : List MsgArg}

theorem Stores.struct (hmembers : AllStore junk members used args) :
    Stores junk (.struct members) used (.struct args) where
  built := by
    intro rest
    simp only [buildArg, hmembers.built rest, ok_bind, pure_ok]
  got := hmembers.got

theorem AllStore.nil : AllStore junk [] [] [] := ⟨fun _ => rfl, rfl⟩

theorem AllStore.cons {types : List Ty} {rest : List Parameter} (hfirst : Stores junk type used arg)
    (hrest : AllStore junk types rest args) :
    AllStore junk (type :: types) (used ++ rest) (arg :: args) where
  built := by
    intro others
    rw [List.append_assoc, buildArgs, hfirst.built]
    simp only [hrest.built, ok_bind, pure_ok]
  got := by rw [getArgs, hfirst.got, ok_bind, hrest.got, ok_bind, pure_ok]

end Stores

end AllJoyn.Wire
