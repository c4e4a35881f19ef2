import ProtoVm.Proofs.BreadthFirst
import ProtoVm.Proofs.History
import ProtoVm.Proofs.StepEffect

/-!
# Resends

A resend names a parent, and the search goes on from the value of the nearest parent slot with that name. The nearest
one is used only if it is the only one that a breadth-first search comes to: a second one makes the resend fail, though
an ordinary send that finds a name twice is told to resend.
-/

namespace ProtoVm

namespace Heap

/-- The first object that owns the name, in the order of a breadth-first search. -/
structure Nearest (heap : Heap) (roots : Roots) (owns : Object → Bool) (start first : ObjectId) : Prop where
  reaches : heap.Reaches roots owns start first
  owned : owns (heap.object first) = true
  least : ∀ id, heap.Reaches roots owns start id → owns (heap.object id) = true →
    id = first ∨ heap.Precedes roots owns start first id

variable {heap : Heap} {roots : Roots} {owns : Object → Bool} {defines : Object → Option Value}
  {start first second : ObjectId} {value : Value}

theorem FirstTwo.nearest (h : heap.FirstTwo roots owns start first second) : heap.Nearest roots owns start first :=
  ⟨h.precedes.reaches.1, h.first_owns, fun _ => h.first_le⟩

/-- What is found is the only object that owns the name. -/
theorem Verdict.nearest (h : heap.Verdict roots owns defines start (.found first value)) :
    heap.Nearest roots owns start first := by
  obtain ⟨hreaches, howned⟩ := (h.1 first).2 rfl
  exact ⟨hreaches, howned, fun id hid hidOwned => .inl ((h.1 id).1 ⟨hid, hidOwned⟩)⟩

end Heap

namespace Exec

variable {ctx : Context} {m m' : Machine} {receiver value : Value} {selector parent : String} {args : List Value}
  {holder second : ObjectId} {fault : Fault}

theorem resolve_of_found
    (h : m.heap.parentSlotLookup ctx.roots (ctx.roots.startOf receiver) parent = .found holder value) :
    resolve ctx receiver selector (some parent) m = lookup ctx value selector m := by
  simp only [resolve, get_bind, h]

theorem resolve_of_ambiguous
    (h : m.heap.parentSlotLookup ctx.roots (ctx.roots.startOf receiver) parent = .ambiguous holder second) :
    resolve ctx receiver selector (some parent) m = .error (.ambiguousSlot parent) m := by
  simp only [resolve, get_bind, h]
  rfl

theorem resolve_of_missing
    (h : m.heap.parentSlotLookup ctx.roots (ctx.roots.startOf receiver) parent = .missing) :
    resolve ctx receiver selector (some parent) m = .error (.missingParent parent) m := by
  simp only [resolve, get_bind, h]
  rfl

theorem lookup_ne_error : lookup ctx value selector m ≠ .error fault m' := by
  obtain ⟨searched, cache, hlookup, -⟩ := lookup_eq ctx value selector m
  rw [hlookup]
  exact nofun

/-- A resend calls no block, so it fails if its search fails. -/
theorem dispatch_of_resolve_error (h : resolve ctx receiver selector (some parent) m = .error fault m') :
    dispatch ctx receiver selector (some parent) args m = .error fault m' := by
  have hdeliver : deliver ctx ⟨receiver, selector, some parent, args⟩ m = .error fault m' := bind_of_error h
  exact hdeliver

end Exec

namespace Session

variable {plain : Prop} {w : Session}

theorem Reachable.parentSlotLookup_verdict (hw : w.Reachable plain) (start : ObjectId) (parent : String) :
    w.heap.Verdict w.roots (Table.parents.owns parent) (Table.parents.entry? parent) start
      (w.heap.parentSlotLookup w.roots start parent) := by
  have hpacked := hw.arises.packed.2.1
  have howns (id : ObjectId) := Table.parents.isSome_entry? (hpacked.packed_object id) parent
  exact ((Heap.walk_explores howns start).result_iff _).1 rfl

/-- A resend whose parent nobody owns fails with this parent. Otherwise there is a nearest object that owns it, and
the resend is a search from the value there exactly if no second object owns it; if one does, the resend fails. -/
theorem resend_eq_lookup_iff (hw : w.Reachable plain) (receiver : Value) (parent selector : String) {m : Machine}
    (hm : m.heap = w.heap) :
    let start := w.roots.startOf receiver
    let owns := Table.parents.owns parent
    let resend := Exec.resolve w.scheduler.context receiver selector (some parent) m
    ((∀ id, w.heap.Reaches w.roots owns start id → owns (w.heap.object id) = false) →
        resend = .error (.missingParent parent) m) ∧
      ((∃ id, w.heap.Reaches w.roots owns start id ∧ owns (w.heap.object id) = true) →
        ∃ first value, w.heap.Nearest w.roots owns start first ∧ (w.heap.object first).parent? parent = some value ∧
          (resend = Exec.lookup w.scheduler.context value selector m ↔
            ∀ id, w.heap.Reaches w.roots owns start id → owns (w.heap.object id) = true → id = first) ∧
          ((∃ id, w.heap.Reaches w.roots owns start id ∧ owns (w.heap.object id) = true ∧ id ≠ first) →
            resend = .error (.ambiguousSlot parent) m)) ∧
      ∀ args fault, resend = .error fault m →
        Exec.dispatch w.scheduler.context receiver selector (some parent) args m = .error fault m := by
  intro start owns resend
  have hverdict := hw.parentSlotLookup_verdict start parent
  have hsearch : m.heap.parentSlotLookup w.roots start parent = w.heap.parentSlotLookup w.roots start parent := by
    rw [hm]
  refine ⟨fun hnone => ?_, fun ⟨id, hid, howned⟩ => ?_, fun _ _ => Exec.dispatch_of_resolve_error⟩
  · have hmissing : w.heap.parentSlotLookup w.roots start parent = .missing := hverdict.unique hnone
    exact Exec.resolve_of_missing (hsearch.trans hmissing)
  · cases hresult : w.heap.parentSlotLookup w.roots start parent with
    | missing =>
      rw [hresult] at hverdict
      exact absurd (howned.symm.trans (hverdict id hid)) nofun
    | found first value =>
      rw [hresult] at hsearch hverdict
      have honly (other : ObjectId) (hother : w.heap.Reaches w.roots owns start other)
          (hotherOwned : owns (w.heap.object other) = true) : other = first :=
        (hverdict.1 other).1 ⟨hother, hotherOwned⟩
      refine ⟨first, value, hverdict.nearest, hverdict.2, ⟨fun _ => honly, fun _ => Exec.resolve_of_found hsearch⟩, ?_⟩
      rintro ⟨other, hother, hotherOwned, hne⟩
      exact absurd (honly other hother hotherOwned) hne
    | ambiguous first second =>
      rw [hresult] at hsearch hverdict
      have hpacked := hw.arises.packed.2.1
      have hfails : resend = .error (.ambiguousSlot parent) m := Exec.resolve_of_ambiguous hsearch
      have hsome := Table.parents.isSome_entry? (hpacked.packed_object first) parent
      rw [hverdict.first_owns] at hsome
      obtain ⟨value, hvalue⟩ := Option.isSome_iff_exists.1 hsome
      refine ⟨first, value, Heap.FirstTwo.nearest hverdict, hvalue, ⟨fun heq => ?_, fun honly => ?_⟩, fun _ => hfails⟩
      · exact absurd (heq.symm.trans hfails) Exec.lookup_ne_error
      · have hsecond := honly second hverdict.precedes.reaches.2 hverdict.second_owns
        exact absurd hsecond.symm hverdict.precedes.ne

/-- The user makes two objects with a slot `x`, each the `super` of another object, and an object that has these two as
parents `a` and `b`. The last object inherits from it. -/
def namedTwice : List Action :=
  let ten : Value := .fixnum ⟨10, by decide⟩
  let twenty : Value := .fixnum ⟨20, by decide⟩
  [.learn ten, .learn twenty, .request .newObject, .request (.addSlot ⟨48, 0⟩ "x" ten), .request .newObject,
    .request (.addSlot ⟨49, 0⟩ "x" twenty), .request .newObject, .request (.addParent ⟨50, 0⟩ "super" (.ref ⟨48, 0⟩)),
    .request .newObject, .request (.addParent ⟨51, 0⟩ "super" (.ref ⟨49, 0⟩)), .request .newObject,
    .request (.addParent ⟨52, 0⟩ "a" (.ref ⟨50, 0⟩)), .request (.addParent ⟨52, 0⟩ "b" (.ref ⟨51, 0⟩)),
    .request .newObject, .request (.addParent ⟨53, 0⟩ "c" (.ref ⟨52, 0⟩))]

/-- A process that sends nothing yet, on the heap of the session. -/
def idle (w : Session) : Machine := { heap := w.heap, process := .start 0 ⟨{}, []⟩ (.ref w.roots.lobby) }

/-- The last object inherits the parent `a` from one object, and a resend to `a` is a search from its value. -/
theorem resend_eq_lookup_enacted :
    ∃ w : Session, w.Reachable True ∧
      w.heap.Nearest w.roots (Table.parents.owns "a") ⟨53, 0⟩ ⟨52, 0⟩ ∧
      (w.heap.object ⟨52, 0⟩).parent? "a" = some (.ref ⟨50, 0⟩) ∧
      Exec.resolve w.scheduler.context (.ref ⟨53, 0⟩) "x" (some "a") w.idle =
        Exec.lookup w.scheduler.context (.ref ⟨50, 0⟩) "x" w.idle := by
  have henacted : ((enact {} namedTwice).any fun w =>
      decide (w.heap.parentSlotLookup w.roots ⟨53, 0⟩ "a" = .found ⟨52, 0⟩ (.ref ⟨50, 0⟩))) = true := by
    decide +kernel
  obtain ⟨w, hw, hcheck⟩ := (Option.any_eq_true _ _).1 henacted
  have hreachable : w.Reachable True := reachable_of_enact hw
  have hverdict := hreachable.parentSlotLookup_verdict ⟨53, 0⟩ "a"
  rw [of_decide_eq_true hcheck] at hverdict
  have howner := (hverdict.1 ⟨52, 0⟩).2 rfl
  obtain ⟨first, value, hnearest, hvalue, hiff, -⟩ :=
    (resend_eq_lookup_iff hreachable (.ref ⟨53, 0⟩) "a" "x" (m := w.idle) rfl).2.1 ⟨⟨52, 0⟩, howner⟩
  obtain rfl : first = ⟨52, 0⟩ := (hverdict.1 first).1 ⟨hnearest.reaches, hnearest.owned⟩
  obtain rfl : value = .ref ⟨50, 0⟩ := Option.some.inj (hvalue.symm.trans hverdict.2)
  exact ⟨w, hreachable, hnearest, hvalue, hiff.2 fun id hid howned => (hverdict.1 id).1 ⟨hid, howned⟩⟩

/-- It inherits the parent `super` from two. The first of them leads to `x`, but a resend to `super` fails. -/
theorem resend_ne_lookup_enacted :
    ∃ w : Session, w.Reachable True ∧
      w.heap.Nearest w.roots (Table.parents.owns "super") ⟨53, 0⟩ ⟨50, 0⟩ ∧
      (w.heap.object ⟨50, 0⟩).parent? "super" = some (.ref ⟨48, 0⟩) ∧
      (∃ searched, Exec.lookup w.scheduler.context (.ref ⟨48, 0⟩) "x" w.idle =
        .ok (.found ⟨48, 0⟩ (.fixnum ⟨10, by decide⟩)) searched) ∧
      Exec.resolve w.scheduler.context (.ref ⟨53, 0⟩) "x" (some "super") w.idle =
        .error (.ambiguousSlot "super") w.idle := by
  have henacted : ((enact {} namedTwice).any fun w => decide (
      w.heap.parentSlotLookup w.roots ⟨53, 0⟩ "super" = .ambiguous ⟨50, 0⟩ ⟨51, 0⟩ ∧
      (w.heap.object ⟨50, 0⟩).parent? "super" = some (.ref ⟨48, 0⟩) ∧
      (w.heap.slotLookup w.roots ⟨48, 0⟩ "x").result = .found ⟨48, 0⟩ (.fixnum ⟨10, by decide⟩))) = true := by
    decide +kernel
  obtain ⟨w, hw, hcheck⟩ := (Option.any_eq_true _ _).1 henacted
  obtain ⟨hsearch, hvalue, hslot⟩ := of_decide_eq_true hcheck
  have hreachable : w.Reachable True := reachable_of_enact hw
  have hverdict := hreachable.parentSlotLookup_verdict ⟨53, 0⟩ "super"
  rw [hsearch] at hverdict
  obtain ⟨searched, cache, hlookup, -⟩ := Exec.lookup_eq w.scheduler.context (.ref ⟨48, 0⟩) "x" w.idle
  refine ⟨w, hreachable, Heap.FirstTwo.nearest hverdict, hvalue, ⟨searched, ?_⟩, Exec.resolve_of_ambiguous hsearch⟩
  exact hslot ▸ hlookup

end Session

end ProtoVm
