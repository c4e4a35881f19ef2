import ProtoVm.Decimal.Positional
import ProtoVm.Roots

/-! # Kinds of values and their printed form -/

namespace ProtoVm.Heap

def kindOf (heap : Heap) (roots : Roots) : Value → ValueKind
  | .fixnum _ => .fixnum
  | .ref id =>
    if id = roots.nil then .nil
    else if id = roots.trueObject ∨ id = roots.falseObject then .boolean
    else
      let object := heap.object id
      match object.payload, object.shape.behavior with
      | .text _, _ => .string
      | .float _, _ => .float
      | .token .., _ => .token
      | .activation _, _ => .activation
      | .none, .method m => if m.isBlock then .block else .method
      | .none, .native _ => .native
      | .none, .assignment => .assignment
      | .none, .data => .object

/-- A method or block with its parameters. -/
def displayMethod (m : Method) : String :=
  let kind := if m.isBlock then "block" else "method"
  "<" ++ kind ++ String.join (m.params.map (" :" ++ ·)) ++ ">"

/-- The names of an object's slots and, marked by a star, of its parents. -/
def displayShape (shape : Shape) : String :=
  "(|" ++ String.join (shape.slots.names.map (" " ++ · ++ "."))
    ++ String.join (shape.parents.names.map (" " ++ · ++ "*.")) ++ " |)"

/-- The text that `printString` answers. -/
def display (heap : Heap) (roots : Roots) : Value → String
  | .fixnum n => toString n.val
  | .ref id =>
    if id = roots.nil then "nil"
    else if id = roots.trueObject then "true"
    else if id = roots.falseObject then "false"
    else
      let object := heap.object id
      match object.payload, object.shape.behavior with
      | .text s, _ => s
      | .float x, _ => Decimal.pointedText x
      | .token .., _ => "<error token>"
      | _, .native n => "<primitive " ++ n.selector ++ ">"
      | _, .assignment => "<assignment>"
      | _, .method m => displayMethod m
      | _, .data => displayShape object.shape

end ProtoVm.Heap
