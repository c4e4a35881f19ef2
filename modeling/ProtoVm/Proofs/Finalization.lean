import ProtoVm.Proofs.Assembled

/-!
# Closing a unit

To close a unit is to close every unit in it that has only open units around it. A closed unit is not entered, so what
is in it stays as it is. As long as nothing open is added to the pool of a closed unit this makes no difference, and a
unit is closed all through.
-/

namespace ProtoVm

/-- The unit of an object literal. -/
def Literal.unit? : Literal → Option Code
  | .object _ _ code => code
  | _ => none

/-- A literal up to what is in its unit. -/
def Literal.outline : Literal → Literal
  | .object kind params (some _) => .object kind params (some {})
  | l => l

namespace Code

/-- The unit that the pool has at an index. -/
def inner? (code : Code) (index : Nat) : Option Code := code.literals[index]?.bind Literal.unit?

/-- The unit to which a path of pool indices leads. -/
def unitAt (code : Code) : List Nat → Option Code
  | [] => some code
  | index :: path => (code.inner? index).bind (·.unitAt path)
termination_by structural path => path

/-- The unit and all units in it are closed. -/
def Closed (code : Code) : Prop := ∀ path unit, code.unitAt path = some unit → unit.finalized = true

/-- No unit is open inside a closed one. -/
def Tight (code : Code) : Prop := ∀ path unit, code.unitAt path = some unit → unit.finalized = true → unit.Closed

/-- The units around the one at the end of the path are open. -/
def OpenAround (code : Code) (path : List Nat) : Prop :=
  ∀ front back, back ≠ [] → path = front ++ back → ∀ unit, code.unitAt front = some unit → unit.finalized = false

/-- How a unit is closed: it gets four returns, if it was open, and nothing else about it changes. -/
structure Completed (before after : Code) : Prop where
  finalized : after.finalized = true
  bytes : after.bytes.toList =
    before.bytes.toList ++ if before.finalized then [] else List.replicate 4 Opcode.returnTop.byte
  literals : after.literals.map Literal.outline = before.literals.map Literal.outline

/-- The unit and all units in it are closed, once and for all. -/
structure Completes (code : Code) : Prop where
  units (path : List Nat) : Option.Rel Completed (code.unitAt path) (code.finalize.unitAt path)
  idempotent : code.finalize.finalize = code.finalize

variable {code unit : Code} {path : List Nat}

/-! ## Paths -/

theorem unitAt_append (code : Code) (front back : List Nat) :
    code.unitAt (front ++ back) = (code.unitAt front).bind (·.unitAt back) := by
  induction front generalizing code with
  | nil => rfl
  | cons index front ih =>
    show (code.inner? index).bind _ = ((code.inner? index).bind _).bind _
    rw [Option.bind_assoc]
    exact Option.bind_congr fun inner _ => ih inner

theorem unitAt_append_of_some {front back : List Nat} (h : code.unitAt front = some unit) :
    code.unitAt (front ++ back) = unit.unitAt back := by
  rw [unitAt_append, h, Option.bind_some]

theorem Tight.inner (h : code.Tight) {index : Nat} {inner : Code} (hinner : code.inner? index = some inner) :
    inner.Tight := by
  intro path unit hunit
  refine h (index :: path) unit ?_
  show (code.inner? index).bind _ = _
  rw [hinner]
  exact hunit

theorem tight_iff :
    code.Tight ↔
      (code.finalized = true → code.Closed) ∧ ∀ index inner, code.inner? index = some inner → inner.Tight := by
  refine ⟨fun h => ⟨h [] code rfl, fun _ _ => h.inner⟩, fun ⟨hself, hinner⟩ path unit hunit => ?_⟩
  cases path with
  | nil =>
    cases hunit
    exact hself
  | cons index path =>
    obtain ⟨inner, hindex, hpath⟩ := Option.bind_eq_some_iff.1 hunit
    exact hinner index inner hindex path unit hpath

theorem closed_iff :
    code.Closed ↔ code.finalized = true ∧ ∀ index inner, code.inner? index = some inner → inner.Closed := by
  constructor
  · refine fun h => ⟨h [] code rfl, fun index inner hindex path unit hunit => h (index :: path) unit ?_⟩
    show (code.inner? index).bind _ = _
    rw [hindex]
    exact hunit
  · rintro ⟨hself, hinner⟩ path unit hunit
    cases path with
    | nil =>
      cases hunit
      exact hself
    | cons index path =>
      obtain ⟨inner, hindex, hpath⟩ := Option.bind_eq_some_iff.1 hunit
      exact hinner index inner hindex path unit hpath

theorem Closed.tight (h : code.Closed) : code.Tight := by
  intro path unit hunit _ back deeper hdeeper
  refine h (path ++ back) deeper ?_
  rw [unitAt_append_of_some hunit, hdeeper]

theorem openAround_cons_iff {index : Nat} :
    code.OpenAround (index :: path) ↔
      code.finalized = false ∧ ∀ inner, code.inner? index = some inner → inner.OpenAround path := by
  constructor
  · refine fun h => ⟨h [] (index :: path) (List.cons_ne_nil _ _) rfl code rfl, ?_⟩
    rintro inner hinner front back hback rfl unit hunit
    refine h (index :: front) back hback rfl unit ?_
    show (code.inner? index).bind _ = _
    rw [hinner]
    exact hunit
  · rintro ⟨hopen, hinner⟩ front back hback hpath unit hunit
    cases front with
    | nil =>
      cases hunit
      exact hopen
    | cons _ front =>
      obtain ⟨rfl, rfl⟩ := List.cons.inj hpath
      obtain ⟨inner, hindex, hfront⟩ := Option.bind_eq_some_iff.1 hunit
      exact hinner inner hindex front back hback rfl unit hfront

/-! ## One unit -/

theorem unit?_finalize (l : Literal) : l.finalize.unit? = l.unit?.map finalize := by
  cases l with
  | object kind params code => cases code <;> rfl
  | _ => rfl

theorem outline_finalize (l : Literal) : l.finalize.outline = l.outline := by
  cases l with
  | object kind params code => cases code <;> rfl
  | _ => rfl

theorem inner?_finalize (h : code.finalized = false) (index : Nat) :
    code.finalize.inner? index = (code.inner? index).map finalize := by
  rw [finalize_of_open h, inner?, inner?, List.getElem?_map]
  cases code.literals[index]? with
  | none => rfl
  | some l => exact unit?_finalize l

theorem completed_finalize (code : Code) : Completed code code.finalize := by
  refine ⟨finalized_finalize code, ?_, ?_⟩
  · cases hclosed : code.finalized with
    | true => rw [finalize_of_closed hclosed, if_pos rfl, List.append_nil]
    | false =>
      rw [finalize_of_open hclosed, if_neg Bool.false_ne_true, Array.toList_appendList]
      rfl
  · cases hclosed : code.finalized with
    | true => rw [finalize_of_closed hclosed]
    | false =>
      rw [finalize_of_open hclosed, List.map_map]
      exact List.map_congr_left fun l _ => outline_finalize l

/-! ## All units -/

/-- A unit with only open units around it is reached. -/
theorem unitAt_finalize_of_openAround (h : code.OpenAround path) :
    code.finalize.unitAt path = (code.unitAt path).map finalize := by
  induction path generalizing code with
  | nil => rfl
  | cons index path ih =>
    obtain ⟨hopen, hinner⟩ := openAround_cons_iff.1 h
    show (code.finalize.inner? index).bind _ = ((code.inner? index).bind _).map _
    rw [inner?_finalize hopen]
    cases hindex : code.inner? index with
    | none => rfl
    | some inner => exact ih (hinner inner hindex)

/-- A unit inside a closed one stays as it is. -/
theorem unitAt_finalize_of_not_openAround (h : ¬code.OpenAround path) :
    code.finalize.unitAt path = code.unitAt path := by
  induction path generalizing code with
  | nil => exact absurd (fun front back hback hpath => absurd (List.append_eq_nil_iff.1 hpath.symm).2 hback) h
  | cons index path ih =>
    cases hclosed : code.finalized with
    | true => rw [finalize_of_closed hclosed]
    | false =>
      rw [openAround_cons_iff, hclosed] at h
      push Not at h
      obtain ⟨inner, hindex, hinner⟩ := h rfl
      show (code.finalize.inner? index).bind _ = (code.inner? index).bind _
      rw [inner?_finalize hclosed, hindex]
      exact ih hinner

theorem Tight.finalized (h : code.Tight) (hpath : ¬code.OpenAround path) (hunit : code.unitAt path = some unit) :
    unit.finalized = true := by
  unfold OpenAround at hpath
  push Not at hpath
  obtain ⟨front, back, -, rfl, around, haround, hclosed⟩ := hpath
  rw [unitAt_append_of_some haround] at hunit
  exact h front around haround (Bool.not_eq_false _ ▸ hclosed) back unit hunit

theorem Tight.unitAt_finalize (h : code.Tight) (path : List Nat) :
    code.finalize.unitAt path = (code.unitAt path).map finalize := by
  by_cases hpath : code.OpenAround path
  · exact unitAt_finalize_of_openAround hpath
  · rw [unitAt_finalize_of_not_openAround hpath]
    cases hunit : code.unitAt path with
    | none => rfl
    | some unit => rw [Option.map_some, finalize_of_closed (h.finalized hpath hunit)]

theorem rel_map_finalize (found : Option Code) : Option.Rel Completed found (found.map finalize) := by
  cases found with
  | none => exact .none
  | some unit => exact .some (completed_finalize unit)

/-- What keeps a unit from being closed all through is a unit that is open inside a closed one. -/
theorem completes_iff_tight : code.Completes ↔ code.Tight := by
  constructor
  · intro h path unit hunit hclosed back deeper hdeeper
    cases back with
    | nil =>
      cases hdeeper
      exact hclosed
    | cons index back =>
      have hpath : ¬code.OpenAround (path ++ index :: back) := fun hopen => by
        rw [hopen path _ (List.cons_ne_nil _ _) rfl unit hunit] at hclosed
        cases hclosed
      have hrel := h.units (path ++ index :: back)
      rw [unitAt_finalize_of_not_openAround hpath, unitAt_append_of_some hunit, hdeeper] at hrel
      cases hrel with
      | some hcompleted => exact hcompleted.finalized
  · intro h
    refine ⟨fun path => ?_, finalize_of_closed (finalized_finalize code)⟩
    rw [h.unitAt_finalize]
    exact rel_map_finalize _

theorem Tight.closed_finalize (h : code.Tight) : code.finalize.Closed := by
  intro path unit hunit
  rw [h.unitAt_finalize] at hunit
  obtain ⟨before, -, rfl⟩ := Option.map_eq_some_iff.1 hunit
  exact finalized_finalize before

end Code

/-! ## Building -/

/-- The unit of the literal, if it has one, is closed all through. -/
def Literal.Closed (l : Literal) : Prop := ∀ unit, l.unit? = some unit → unit.Closed

namespace Code

/-- The units that are built from new ones by emitting instructions into open units, adding literals whose units are
built like this, and closing. Literals that are added to a closed unit have to be admitted. -/
inductive Built (admits : Literal → Prop) : Code → Prop
  | new : Built admits {}
  | emit {code : Code} (i : Instruction) (h : Built admits code) (hopen : code.finalized = false) :
      Built admits (code.emit i)
  | add {code next : Code} {l : Literal} {index : UInt8} (h : Built admits code)
      (hunit : ∀ unit, l.unit? = some unit → Built admits unit) (hclosed : code.finalized = true → admits l)
      (hadd : code.addLiteral l = .ok (index, next)) : Built admits next
  | finalize {code : Code} (h : Built admits code) : Built admits code.finalize

variable {code next : Code} {l : Literal} {index : UInt8} {admits : Literal → Prop}

/-- Adding a literal leaves the unit as it is or puts the literal at the end of the pool. -/
theorem addLiteral_cases (h : code.addLiteral l = .ok (index, next)) :
    next = code ∧ l.unit? = none ∨ next = { code with literals := code.literals ++ [l] } := by
  unfold addLiteral at h
  split at h
  · rename_i found hfound
    cases h
    cases l with
    | text s => exact .inl ⟨rfl, rfl⟩
    | _ => cases hfound
  · split at h
    · cases h
      exact .inr rfl
    · cases h

theorem Built.push (h : Built admits code) (hunit : ∀ unit, l.unit? = some unit → Built admits unit)
    (hopen : code.finalized = false) (hpush : code.pushLiteral l = .ok next) : Built admits next := by
  obtain ⟨⟨index, added⟩, hadd, hemit⟩ := exists_of_bind_eq_ok hpush
  cases hemit
  have hadded : Built admits added := h.add hunit (fun hclosed => absurd hclosed (by simp [hopen])) hadd
  refine .emit _ hadded ?_
  rcases addLiteral_cases hadd with ⟨rfl, -⟩ | rfl <;> exact hopen

theorem forall_inner?_extend (code : Code) (l : Literal) (P : Code → Prop) :
    (∀ index inner, inner? { code with literals := code.literals ++ [l] } index = some inner → P inner) ↔
      (∀ index inner, code.inner? index = some inner → P inner) ∧ ∀ unit, l.unit? = some unit → P unit := by
  have hfront {index : Nat} (hlt : index < code.literals.length) :
      inner? { code with literals := code.literals ++ [l] } index = code.inner? index := by
    rw [inner?, inner?, List.getElem?_append_left hlt]
  have hend : inner? { code with literals := code.literals ++ [l] } code.literals.length = l.unit? := by
    rw [inner?, List.getElem?_concat_length, Option.bind_some]
  constructor
  · refine fun h => ⟨fun index inner hinner => h index inner ?_, fun unit hunit => h _ unit (hend.trans hunit)⟩
    obtain ⟨found, hfound, -⟩ := Option.bind_eq_some_iff.1 hinner
    rw [hfront (List.getElem?_eq_some_iff.1 hfound).1, hinner]
  · rintro ⟨hcode, hl⟩ index inner hinner
    obtain ⟨found, hfound, -⟩ := Option.bind_eq_some_iff.1 hinner
    have hlt := (List.getElem?_eq_some_iff.1 hfound).1
    rw [List.length_append] at hlt
    rcases Nat.lt_succ_iff_lt_or_eq.1 hlt with hlt | rfl
    · exact hcode index inner (hfront hlt ▸ hinner)
    · exact hl inner (hend ▸ hinner)

theorem tight_extend_iff :
    Tight { code with literals := code.literals ++ [l] } ↔
      code.Tight ∧ (∀ unit, l.unit? = some unit → unit.Tight) ∧ (code.finalized = true → l.Closed) := by
  rw [tight_iff, closed_iff, forall_inner?_extend, forall_inner?_extend, @tight_iff code, closed_iff]
  show (code.finalized = true → code.finalized = true ∧ _ ∧ l.Closed) ∧ _ ↔ _
  tauto

theorem tight_emit_iff (hopen : code.finalized = false) (i : Instruction) : (code.emit i).Tight ↔ code.Tight := by
  have hvacuous {P : Prop} : (code.finalized = true → P) ↔ True := by simp [hopen]
  rw [tight_iff, @tight_iff code]
  show (code.finalized = true → _) ∧ _ ↔ _
  rw [hvacuous, hvacuous]
  exact .rfl

theorem tight_finalize_iff : code.finalize.Tight ↔ code.Tight := by
  refine ⟨fun h path unit hunit hclosed => h path unit ?_ hclosed, fun h => h.closed_finalize.tight⟩
  by_cases hpath : code.OpenAround path
  · rw [unitAt_finalize_of_openAround hpath, hunit, Option.map_some, finalize_of_closed hclosed]
  · rw [unitAt_finalize_of_not_openAround hpath, hunit]

theorem Built.tight (h : Built Literal.Closed code) : code.Tight := by
  induction h with
  | new => exact tight_iff.2 ⟨nofun, fun index inner hinner => by simp [inner?] at hinner⟩
  | emit i _ hopen ih => exact (tight_emit_iff hopen i).2 ih
  | add _ _ hclosed hadd ih ihunit =>
    rcases addLiteral_cases hadd with ⟨rfl, -⟩ | rfl
    · exact ih
    · exact tight_extend_iff.2 ⟨ih, ihunit, hclosed⟩
  | finalize _ ih => exact tight_finalize_iff.2 ih

/-- If no unit is open inside a closed one in the end, none has been at any time. -/
theorem Built.of_tight (h : Built admits code) (htight : code.Tight) : Built Literal.Closed code := by
  induction h with
  | new => exact .new
  | emit i _ hopen ih => exact .emit i (ih ((tight_emit_iff hopen i).1 htight)) hopen
  | add _ _ _ hadd ih ihunit =>
    rcases addLiteral_cases hadd with ⟨rfl, -⟩ | rfl
    · exact ih htight
    · obtain ⟨hcode, hunit, hclosed⟩ := tight_extend_iff.1 htight
      exact .add (ih hcode) (fun unit heq => ihunit unit heq (hunit unit heq)) hclosed hadd
  | finalize _ ih => exact (ih (tight_finalize_iff.1 htight)).finalize

/-- Closing a unit closes all units in it, once and for all, just if it can be built without adding to a closed unit a
literal that is not closed all through. In any case the units that have only open units around them are closed as they
should be, and all others stay as they are. -/
theorem completes_iff_of_built (h : code.Built fun _ => True) :
    (code.Completes ↔ code.Built Literal.Closed) ∧
      ∀ path, (code.OpenAround path → Option.Rel Completed (code.unitAt path) (code.finalize.unitAt path)) ∧
        (¬code.OpenAround path → code.finalize.unitAt path = code.unitAt path) := by
  refine ⟨completes_iff_tight.trans ⟨h.of_tight, Built.tight⟩, fun path => ⟨fun hpath => ?_,
    unitAt_finalize_of_not_openAround⟩⟩
  rw [unitAt_finalize_of_openAround hpath]
  exact rel_map_finalize _

/-- A method that was closed before and a block that was not, side by side. -/
def mixed : List Line :=
  [.push (.object .method [] (some [.pushSelf, .finalize])), .push (.object .block ["x"] (some [.pushNil]))]

theorem completes_iff_of_built_mixed :
    ∃ outer method block : Code, Code.assemble mixed = .ok outer ∧ outer.Built (fun _ => True) ∧
      outer.unitAt [0] = some method ∧ method.finalized = true ∧ outer.unitAt [1] = some block ∧
      block.finalized = false ∧ outer.Completes := by
  let method : Code := (Code.emit {} .pushSelf).finalize
  let block : Code := Code.emit {} (.pushLiteral .nil 0)
  have hmethod {admits : Literal → Prop} : Built admits method := (Built.new.emit _ rfl).finalize
  have hblock {admits : Literal → Prop} : Built admits block := Built.new.emit _ rfl
  obtain ⟨outer, houter, hmethodAt, hblockAt, hbuilt⟩ : ∃ outer, Code.assemble mixed = .ok outer ∧
      outer.unitAt [0] = some method ∧ outer.unitAt [1] = some block ∧ ∀ admits, Built admits outer := by
    refine ⟨_, rfl, rfl, rfl, fun admits => ?_⟩
    have hnew : Built admits {} := .new
    have hfirst := hnew.push (l := .object .method [] (some method))
      (by rintro unit ⟨⟩; exact hmethod) rfl rfl
    exact hfirst.push (l := .object .block ["x"] (some block)) (by rintro unit ⟨⟩; exact hblock) rfl rfl
  exact ⟨outer, method, block, houter, hbuilt _, hmethodAt, rfl, hblockAt, rfl,
    (completes_iff_of_built (hbuilt _)).1.2 (hbuilt _)⟩

/-- A block is added to the pool of a method that was closed before. Closing the unit around the method does not close
the block. -/
theorem not_completes_of_built :
    ∃ outer method block : Code,
      Code.assemble [.push (.object .method [] (some [.finalize, .pool (.object .block [] (some [.pushSelf]))]))] =
        .ok outer ∧
      outer.Built (fun _ => True) ∧ outer.finalized = false ∧ outer.finalize.unitAt [0] = some method ∧
      method.finalized = true ∧ outer.finalize.unitAt [0, 0] = some block ∧ block.finalized = false ∧
      ¬outer.Completes := by
  let block : Code := Code.emit {} .pushSelf
  let method : Code := { Code.finalize {} with literals := [.object .block [] (some block)] }
  have hblock : Built (fun _ => True) block := Built.new.emit _ rfl
  have hadd : (Code.finalize {}).addLiteral (.object .block [] (some block)) = .ok (0, method) := rfl
  have hmethod : Built (fun _ => True) method :=
    Built.new.finalize.add (by rintro unit ⟨⟩; exact hblock) (fun _ => trivial) hadd
  refine ⟨_, method, block, rfl, ?_, rfl, rfl, rfl, rfl, rfl, fun h => ?_⟩
  · exact Built.new.push (l := .object .method [] (some method)) (by rintro unit ⟨⟩; exact hmethod) rfl rfl
  · have hrel := h.units [0, 0]
    cases hrel with
    | some hcompleted => cases hcompleted.finalized

end Code

end ProtoVm
