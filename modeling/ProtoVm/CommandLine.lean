import ProtoVm.Code.Listing
import ProtoVm.Demo
import ProtoVm.Scheduler

/-!
# The command line

Runs demonstration programs side by side and prints how each ended.
-/

namespace ProtoVm.CommandLine

structure Options where
  /-- In the order given; none stands for all of them. -/
  demos : List Demo := []
  quantum : Option Nat := none
  maxFrames : Option Nat := none
  verbose : Bool := false
  dumpBytecode : Bool := false

/-- A decimal number below `2 ^ 64`, with or without a plus sign. -/
def natural? (s : String) : Option Nat :=
  let digits := match s.toList with
    | '+' :: rest => rest
    | all => all
  if digits.isEmpty || !digits.all Char.isDigit then none
  else
    let n := digits.foldl (fun n c => 10 * n + (c.toNat - '0'.toNat)) 0
    if n < 0x10000000000000000 then some n else none

def demo? (s : String) : Option Demo := Demo.all.find? (·.keyword == s)

/-- Options that take a value. -/
inductive Setting
  | demo | quantum | maxFrames
deriving DecidableEq, Repr

def Setting.ofName? : List Char → Option Setting
  | name =>
    if name = "demo".toList then some demo
    else if name = "quantum".toList then some quantum
    else if name = "max-frames".toList then some maxFrames
    else none

namespace Options

/-- A setting other than the demonstrations is given once. -/
def set (options : Options) (value : String) : Setting → Option Options
  | .demo => do return { options with demos := options.demos ++ [← demo? value] }
  | .quantum =>
    if options.quantum.isSome then none
    else do return { options with quantum := some (← natural? value) }
  | .maxFrames =>
    if options.maxFrames.isSome then none
    else do return { options with maxFrames := some (← natural? value) }

def setVerbose (options : Options) : Option Options :=
  if options.verbose then none else some { options with verbose := true }

def setDumpBytecode (options : Options) : Option Options :=
  if options.dumpBytecode then none else some { options with dumpBytecode := true }

end Options

/-- Reads the arguments; none for a misuse. -/
def parseFrom (options : Options) : List String → Option Options
  | [] => some options
  | "--" :: rest => if rest.isEmpty then some options else none
  | "-v" :: rest | "--verbose" :: rest => do parseFrom (← options.setVerbose) rest
  | "--dump-bytecode" :: rest => do parseFrom (← options.setDumpBytecode) rest
  | arg :: rest =>
    match arg.toList with
    | '-' :: '-' :: long =>
      match Setting.ofName? (long.takeWhile (· != '=')), long.dropWhile (· != '='), rest with
      | some setting, _ :: value, rest => do
        parseFrom (← options.set (String.ofList value) setting) rest
      | some setting, [], value :: rest =>
        if value.toList.head? = some '-' then none
        else do parseFrom (← options.set value setting) rest
      | _, _, _ => none
    | _ => none

def parse (args : List String) : Option Options := parseFrom {} args

/-- What a run prints: its results, and its reports from level `debug` or `warn` on. -/
structure Report where
  exitCode : UInt32
  output : String := ""
  diagnostics : List String := []

def listing (options : Options) (demo : Demo) (code : Code) : String :=
  if options.dumpBytecode then "== " ++ demo.title ++ " ==\n" ++ code.finalize.listing else ""

def addDemos (options : Options) :
    List Demo → Scheduler → Except Fault (List (Demo × ProcessId) × String × Scheduler)
  | [], s => .ok ([], "", s)
  | demo :: rest, s => do
    let code ← Code.assemble demo.lines
    let (body, s) := s.load code
    let (id, s) := s.addProcess body
    let (added, text, s) ← addDemos options rest s
    return ((demo, id) :: added, listing options demo code ++ text, s)

def outcomeLine (demo : Demo) : Option Outcome → String
  | none => demo.title ++ ": unfinished -\n"
  | some (.value _ display) => demo.title ++ ": ok " ++ display ++ "\n"
  | some (.error _ display _) => demo.title ++ ": error " ++ display ++ "\n"

def isReported (options : Options) (event : Event) : Bool :=
  match event.level with
  | .trace => false
  | .debug | .info => options.verbose
  | .warn => true

def run (options : Options) : Report :=
  let defaults : Config := {}
  let config : Config :=
    { quantum := options.quantum.getD defaults.quantum
      maxFrames := options.maxFrames.getD defaults.maxFrames }
  let demos := if options.demos.isEmpty then Demo.all else options.demos
  match Scheduler.create config Heap.maxObjects >>= addDemos options demos with
  | .error fault => { exitCode := 1, diagnostics := [fault.message] }
  | .ok (added, text, s) =>
    let s := s.interpret Scheduler.patience
    let results := added.map fun (demo, id) => outcomeLine demo (s.outcomes[id]?.join)
    { exitCode := 0
      output := text ++ String.join results
      diagnostics := (s.journal.reverse.filter (isReported options)).map (·.line) }

/-- Runs the demonstrations that `args` ask for. -/
def answer (args : List String) : Report :=
  match parse args with
  | some options => run options
  | none => { exitCode := 2, diagnostics := ["usage: [--demo add|halt|error|resume]... [--quantum N] "
      ++ "[--max-frames N] [-v|--verbose] [--dump-bytecode]"] }

end ProtoVm.CommandLine
