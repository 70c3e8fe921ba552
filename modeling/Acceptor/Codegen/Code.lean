/-!
# Code

What stands in the functions of generated source: blocks, conditions, `match`
expressions over literals, assignments to the fields of a value, and ways to leave a
function. Running code changes the fields and ends with a value, or it leaves the
function with one. Code that comes to an arm that cannot be reached does neither.
-/

namespace Acceptor.Codegen

/-- What an expression evaluates to. -/
inductive Value where
  | unit
  | bool (b : Bool)
  | number (n : Nat)
  | char (c : Char)
deriving DecidableEq

/-- The type of a value, by its name. -/
def Value.type : Value → String
  | unit => "()"
  | bool _ => "bool"
  | number _ => "usize"
  | char _ => "char"

/-- The fields of a value of a declared type, each with what it holds. -/
abbrev Fields := List (String × Value)

/-- Puts a value into a field, if there is one of that name. -/
def Fields.set? (fields : Fields) (name : String) (v : Value) : Option Fields :=
  if (fields.lookup name).isSome then
    some (fields.map fun field => if field.1 = name then (name, v) else field)
  else none

/-- What can be looked up without running anything. -/
inductive Operand where
  | literal (v : Value)
  /-- What a parameter of the function stands for. -/
  | parameter (name : String)
  /-- A field of the value that the function is called on. -/
  | field (name : String)

def Operand.value? (arguments : List (String × Value)) (fields : Fields) : Operand → Option Value
  | literal v => some v
  | parameter name => arguments.lookup name
  | field name => fields.lookup name

inductive Code where
  | operand (x : Operand)
  | assign (field : String) (x : Operand)
  /-- Leaves the function. -/
  | leave (x : Operand)
  /-- Must never be run. -/
  | unreachable
  | sequence (first rest : Code)
  | when (condition : Operand) (body : Code)
  /-- Runs the first arm with the value of the scrutinee, where an arm without a value
  stands for every value. -/
  | select (scrutinee : Operand) (arms : List (Option Value × Code))

/-- How code ends. -/
inductive Outcome where
  /-- With a value, and what comes next is run. -/
  | value (v : Value) (fields : Fields)
  /-- With the end of the function. -/
  | left (v : Value) (fields : Fields)

/-- What a call gives if the function ends in this way: the fields of the value that it was
called on, and the result. -/
def Outcome.result : Outcome → Fields × Value
  | value v fields | left v fields => (fields, v)

mutual

/-- Runs code on the fields of a value. There is no outcome if a name is not known, if a
condition is not true or false, if no arm fits, or where code must never be run. -/
def Code.run? (arguments : List (String × Value)) : Code → Fields → Option Outcome
  | .operand x, fields => (x.value? arguments fields).map fun v => .value v fields
  | .assign field x, fields => do
    let v ← x.value? arguments fields
    let fields ← fields.set? field v
    return .value .unit fields
  | .leave x, fields => (x.value? arguments fields).map fun v => .left v fields
  | .unreachable, _ => none
  | .sequence first rest, fields => do
    match ← first.run? arguments fields with
    | .value _ fields => rest.run? arguments fields
    | .left v fields => return .left v fields
  | .when condition body, fields => do
    match ← condition.value? arguments fields with
    | .bool true => body.run? arguments fields
    | .bool false => return .value .unit fields
    | _ => none
  | .select scrutinee arms, fields => do
    let v ← scrutinee.value? arguments fields
    runArms? arguments v fields arms

def runArms? (arguments : List (String × Value)) (v : Value) (fields : Fields) :
    List (Option Value × Code) → Option Outcome
  | [] => none
  | (value?, body) :: arms =>
    if value?.all (v = ·) then body.run? arguments fields
    else runArms? arguments v fields arms

end

end Acceptor.Codegen
