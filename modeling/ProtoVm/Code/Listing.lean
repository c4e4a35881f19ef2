import ProtoVm.Code
import ProtoVm.Decimal.Positional
import ProtoVm.Text.Quoted

/-!
# Listings

One line for each instruction with its offset. A literal push shows the pool entry that its index
names, and the unit of an object literal is listed below it, one level deeper.
-/

namespace ProtoVm

/-- An instruction and its offset. -/
abbrev Placed := Nat × Instruction

/-- The instructions from `offset` to the end of `bytes`, or up to the fault of the first that cannot
be decoded. -/
def Instruction.stream (bytes : Array UInt8) (offset : Nat) : List Placed × Option (Nat × Fault) :=
  if offset < bytes.size then
    match Instruction.decode bytes offset with
    | .error fault => ([], some (offset, fault))
    | .ok i =>
      let (rest, stop) := Instruction.stream bytes (offset + i.length)
      ((offset, i) :: rest, stop)
  else ([], none)
termination_by bytes.size - offset
decreasing_by have := i.length_pos; omega

/-- What a line says about the literal it pushes, and the lines below it. -/
structure LiteralNote where
  text : String
  below : List String

def indentation (depth : Nat) : String := String.ofList (List.replicate (2 * depth) ' ')

def Instruction.line (depth : Nat) (notes : List LiteralNote) : Placed → List String
  | (offset, i) =>
    let head := indentation depth ++ Text.offset offset ++ " " ++ i.text
    let note? := match i with
      | .pushLiteral _ index => notes[index.toNat]?
      | _ => none
    match note? with
    | some note => (head ++ " ; " ++ note.text) :: note.below
    | none => [head]

mutual

def Literal.note (depth : Nat) : Literal → LiteralNote
  | .int n => ⟨toString n, []⟩
  | .float x => ⟨Decimal.text x, []⟩
  | .text s => ⟨Text.quote s, []⟩
  | .object kind params none => ⟨kind.name ++ " " ++ Text.quoteList params, []⟩
  | .object kind params (some code) =>
    ⟨kind.name ++ " " ++ Text.quoteList params, code.lines (depth + 1)⟩
termination_by structural l => l

def literalNotes (depth : Nat) : List Literal → List LiteralNote
  | [] => []
  | l :: rest => l.note depth :: literalNotes depth rest
termination_by structural literals => literals

def Code.lines (depth : Nat) : Code → List String
  | ⟨bytes, literals, _⟩ =>
    let (placed, stop) := Instruction.stream bytes 0
    let listed := placed.flatMap (Instruction.line depth (literalNotes depth literals))
    match stop with
    | none => listed
    | some (offset, fault) =>
      listed ++ [indentation depth ++ Text.offset offset ++ " <" ++ fault.message ++ ">"]
termination_by structural code => code

end

def Code.listing (code : Code) : String := String.join (code.lines 0 |>.map (· ++ "\n"))

end ProtoVm
