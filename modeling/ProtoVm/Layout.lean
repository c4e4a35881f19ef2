/-!
# Layouts

A layout lists names in the order in which they are shown and gives each the place where its value is
stored. Removing a name closes the gap it leaves in the storage.
-/

namespace ProtoVm

abbrev Layout := List (String × Nat)

namespace Layout

def index? (layout : Layout) (name : String) : Option Nat := layout.lookup name

def contains (layout : Layout) (name : String) : Bool := (layout.index? name).isSome

def names (layout : Layout) : List String := layout.map (·.1)

/-- A new name is shown last and stored last. -/
def push (layout : Layout) (name : String) : Layout := layout ++ [(name, layout.length)]

/-- A new name is shown at `position`, or at the nearer end, and stored last. -/
def insertAt (layout : Layout) (position : Int) (name : String) : Layout :=
  layout.insertIdx (min position.toNat layout.length) (name, layout.length)

/-- Storage above `freed` moves down by one. -/
def closeGap (layout : Layout) (freed : Nat) : Layout :=
  layout.map fun (name, index) => (name, if freed < index then index - 1 else index)

def erase (layout : Layout) (name : String) : Layout :=
  match layout.index? name with
  | some freed => closeGap (layout.filter (·.1 != name)) freed
  | none => layout

/-- The names in order, without repetitions. -/
def ofNames (names : List String) : Layout :=
  names.foldl (fun layout name => if layout.contains name then layout else layout.push name) []

end Layout

end ProtoVm
