import ProtoVm.Machine.Step

/-!
# The scheduler

Processes share one heap and take turns in the order in which they were added. A process that has
finished leaves the pool at its next turn.
-/

namespace ProtoVm

structure Config where
  /-- How many instructions a turn has; with zero a turn lasts until the process ends. -/
  quantum : Nat := 1000
  /-- How many calls a process may have in progress. -/
  maxFrames : Nat := 1024
deriving DecidableEq, Repr

structure Scheduler where
  roots : Roots
  config : Config
  heap : Heap
  /-- The process whose turn is next comes first. -/
  pool : List Process := []
  /-- How each process ended that was ever added, by its number. -/
  outcomes : Array (Option Outcome) := #[]
  /-- What happened, the last event first. -/
  journal : List Event := []

namespace Scheduler

/-- Fails only if `maxObjects` leaves no room for the root objects. -/
def create (config : Config) (maxObjects : Nat) : Except Fault Scheduler :=
  match Roots.create (Heap.empty maxObjects) with
  | .ok roots heap => .ok { roots, config, heap }
  | .error fault _ => .error fault

def note (s : Scheduler) (event : Event) : Scheduler := { s with journal := event :: s.journal }

def context (s : Scheduler) : Context := { roots := s.roots, maxFrames := s.config.maxFrames }

/-- Makes `value` known to all programs as `name`. -/
def addGlobal (s : Scheduler) (name : String) (value : Value) : Scheduler :=
  { s with heap := s.heap.addSlot s.roots.lobby name value }

/-- Takes over what a lookup of `name` from `start` remembered and reported. -/
def adopt (s : Scheduler) (name : String) (start : ObjectId) (resolved : Heap.Resolved) : Scheduler :=
  let events := (resolved.use.map (·.event name start)).toList
  { s with heap := resolved.heap, journal := events ++ s.journal }

/-- Numbers a unit for use by one or more processes. -/
def load (s : Scheduler) (code : Code) : Body × Scheduler :=
  let (body, heap) := s.heap.load code
  (body, { s with heap })

/-- Adds a process that runs `body`. -/
def addProcess (s : Scheduler) (body : Body) : ProcessId × Scheduler :=
  let id := s.outcomes.size
  let body := { body with code := body.code.finalize }
  let process := Process.start id body (.ref s.roots.lobby)
  (id, { s.note (.added id) with pool := s.pool ++ [process], outcomes := s.outcomes.push none })

/-- Drops a process, whether it has ended or not. -/
def removeProcess (s : Scheduler) (id : ProcessId) : Bool × Scheduler :=
  if s.pool.any (·.id == id) then
    (true, { s.note (.removed id) with pool := s.pool.eraseP (·.id == id) })
  else (false, s)

def hasWork (s : Scheduler) : Bool := s.pool.any (!·.isFinished)

/-- How many instructions the next turn may have; `limit` bounds a turn without a quantum. -/
def budget (s : Scheduler) (limit : Nat) : Nat :=
  if s.config.quantum = 0 then limit else s.config.quantum

/-- The turn of one process, which is not in the pool meanwhile. -/
def takeTurn (s : Scheduler) (limit : Nat) (process : Process) : Scheduler :=
  let machine :=
    Machine.run s.context (s.budget limit) { heap := s.heap, process, journal := s.journal }
  let process := machine.process
  let turn := if process.isFinished then .finished else .preempted
  { s with
    heap := machine.heap
    pool := s.pool ++ [process]
    outcomes := s.outcomes.setIfInBounds process.id process.outcome
    journal := .turnEnded process.id turn :: machine.journal }

/-- Gives the first process its turn, or lets it go if it has finished; false for an empty pool. -/
def runOnce (s : Scheduler) (limit : Nat) : Bool × Scheduler :=
  match s.pool with
  | [] => (false, s)
  | process :: pool =>
    if process.isFinished then (true, { s.note (.retired process.id) with pool })
    else (true, { s with pool }.takeTurn limit process)

/-- At most `turns` turns, until the pool is empty. -/
def runTurns (limit : Nat) : Nat → Scheduler → Scheduler
  | 0, s => s
  | turns + 1, s =>
    match s.runOnce limit with
    | (false, s) => s
    | (true, s) => runTurns limit turns s

/-- Runs all processes to their end, with at most `limit` turns and as many instructions in a turn
without a quantum. -/
def interpret (s : Scheduler) (limit : Nat) : Scheduler := s.runTurns limit limit

/-- More turns and instructions than any program here can use. -/
def patience : Nat := 0x4000000000000000

end Scheduler

end ProtoVm
