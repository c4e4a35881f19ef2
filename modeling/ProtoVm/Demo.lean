import ProtoVm.Code.Assembly

/-! # Demonstration programs -/

namespace ProtoVm

inductive Demo
  /-- Runs `(| add = (|| 1 + 1) |) add`. -/
  | add
  /-- Runs `primitives interpreter halt: 'bye'`. -/
  | halt
  /-- Runs `primitives interpreter error: 'oops'`. -/
  | error
  /-- Runs `1 + (primitives interpreter error: 'Test')` under a handler that resumes it with 1. -/
  | resume
deriving DecidableEq, Repr

namespace Demo

def all : List Demo := [add, halt, error, resume]

def title : Demo → String
  | add => "Add" | halt => "Halt" | error => "Error" | resume => "Resume"

/-- The word that selects a demonstration. -/
def keyword : Demo → String
  | add => "add" | halt => "halt" | error => "error" | resume => "resume"

def send (selector : String) (kind : SendKind) (count : UInt8) : List Line :=
  [.push (.text selector), .send kind count]

def interpreter : List Line :=
  [.pushSelf] ++ send "primitives" .unary 0 ++ send "interpreter" .unary 0

def interpreterCall (selector text : String) : List Line :=
  interpreter ++ [.push (.text text)] ++ send selector .keyword 1

def lines : Demo → List Line
  | add =>
    [.push (.object .plain [] none),
      .push (.text "add"),
      .push (.object .method [] (some ([.push (.int 1), .push (.int 1)] ++ send "+" .binary 1))),
      .addSlot .normal] ++ send "add" .unary 0
  | halt => interpreterCall "halt:" "bye"
  | error => interpreterCall "error:" "oops"
  | resume =>
    let handler := interpreter ++ [.pushSelf] ++ send "err" .unary 0 ++ [.push (.int 1)]
      ++ send "restoreProcess:With:" .keyword 2
    interpreter ++ [.push (.object .block ["msg", "err"] (some handler))]
      ++ send "setErrorHandler:" .keyword 1 ++ [.pop, .push (.int 1)]
      ++ interpreterCall "error:" "Test" ++ send "+" .binary 1

end Demo

end ProtoVm
