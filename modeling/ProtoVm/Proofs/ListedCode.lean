import ProtoVm.Proofs.Finalization
import ProtoVm.Proofs.LineText
import ProtoVm.Proofs.Literals

/-!
# What a listing shows

The line of an instruction is to show the literal that the instruction pushes, with the unit of that literal below it. A
listing finds the literal by its index alone. Code that runs goes by the kind first, and nil and the assignment have no
index of their own: their lines show what the pool has at the index in their place.
-/

namespace ProtoVm

/-! ## Literals of an instruction -/

/-- The literal that an instruction pushes: the pool entry of its kind at its index. -/
def Code.pushed? (code : Code) : Instruction → Option Literal
  | .pushLiteral kind index => code.literals[index.toNat]?.filter (·.kind = kind)
  | _ => none

/-- The pool entry at the index of a literal push, whatever its kind. -/
def Code.named? (code : Code) : Instruction → Option Literal
  | .pushLiteral _ index => code.literals[index.toNat]?
  | _ => none

def Literal.caption : Literal → String
  | .int n => toString n
  | .float x => Decimal.text x
  | .text s => Text.quote s
  | .object kind params _ => kind.name ++ " " ++ Text.quoteList params

/-- The lines of an instruction that shows a literal, or none. -/
def Instruction.rows (depth : Nat) (shown? : Option Literal) : Placed → List String
  | (offset, i) =>
    let head := indentation depth ++ Text.offset offset ++ " " ++ i.text
    match shown? with
    | none => [head]
    | some l => (head ++ " ; " ++ l.caption) :: (l.unit?.map (·.lines (depth + 1))).getD []

namespace Code

variable {code unit : Code} {i : Instruction} {kind : LiteralKind} {index : UInt8}

/-- The unit of an object literal that the code pushes. -/
def Pushes (code unit : Code) : Prop :=
  ∃ placed ∈ (Instruction.stream code.bytes 0).1, (code.pushed? placed.2).bind Literal.unit? = some unit

theorem pushed?_eq_some_iff {l : Literal} :
    code.pushed? i = some l ↔ ∃ index, i = .pushLiteral l.kind index ∧ code.literals[index.toNat]? = some l := by
  cases i with
  | pushLiteral kind index =>
    simp only [pushed?, Option.filter_eq_some_iff, decide_eq_true_eq, Instruction.pushLiteral.injEq]
    constructor
    · rintro ⟨hl, rfl⟩
      exact ⟨index, ⟨rfl, rfl⟩, hl⟩
    · rintro ⟨_, ⟨rfl, rfl⟩, hl⟩
      exact ⟨hl, rfl⟩
  | _ => simp [pushed?]

theorem pushed?_eq_none_of_fixed (h : kind = .nil ∨ kind = .assignment) (index : UInt8) :
    code.pushed? (.pushLiteral kind index) = none := by
  rw [Option.eq_none_iff_forall_ne_some]
  intro l hl
  obtain ⟨_, hkind, -⟩ := pushed?_eq_some_iff.1 hl
  obtain ⟨rfl, -⟩ := Instruction.pushLiteral.inj hkind
  cases l <;> simp [Literal.kind] at h

/-- A push by the code finds a literal, unless its kind is one of the two that are not in the pool. -/
theorem Names.pushed?_eq_named? (h : code.Names kind index) (hkind : ¬(kind = .nil ∨ kind = .assignment)) :
    ∃ l, code.pushed? (.pushLiteral kind index) = some l ∧ code.named? (.pushLiteral kind index) = some l := by
  rcases h with h | h | ⟨l, hl, rfl, -⟩
  · exact absurd (.inl h) hkind
  · exact absurd (.inr h) hkind
  · exact ⟨l, pushed?_eq_some_iff.2 ⟨index, rfl, hl⟩, hl⟩

theorem Assembled.named?_eq_pushed?_or (h : code.Assembled) {placed : Placed}
    (hplaced : placed ∈ (Instruction.stream code.bytes 0).1) :
    code.named? placed.2 = code.pushed? placed.2 ∨ code.pushed? placed.2 = none := by
  obtain ⟨offset, i⟩ := placed
  cases i with
  | pushLiteral kind index =>
    by_cases hkind : kind = .nil ∨ kind = .assignment
    · exact .inr (pushed?_eq_none_of_fixed hkind index)
    · obtain ⟨l, hpushed, hnamed⟩ := (h.names hplaced).pushed?_eq_named? hkind
      exact .inl (hnamed.trans hpushed.symm)
  | _ => exact .inl rfl

theorem Assembled.pushes (h : code.Assembled) (hpush : code.Pushes unit) : unit.Assembled := by
  obtain ⟨⟨offset, i⟩, hplaced, hunit⟩ := hpush
  obtain ⟨l, hl, hinner⟩ := Option.bind_eq_some_iff.1 hunit
  obtain ⟨index, rfl, hentry⟩ := pushed?_eq_some_iff.1 hl
  cases l with
  | object kind params inner =>
    obtain rfl : inner = some unit := hinner
    exact h.inner hplaced hentry
  | _ => cases hinner

theorem Assembled.reaches (h : code.Assembled) (hunit : Relation.ReflTransGen Pushes code unit) : unit.Assembled := by
  induction hunit with
  | refl => exact h
  | tail _ hpush ih => exact ih.pushes hpush

end Code

/-! ## Lines -/

theorem Literal.note_eq (depth : Nat) (l : Literal) :
    l.note depth = ⟨l.caption, (l.unit?.map (·.lines (depth + 1))).getD []⟩ := by
  cases l with
  | object kind params code => cases code <;> rfl
  | _ => rfl

theorem literalNotes_eq_map (depth : Nat) (literals : List Literal) :
    literalNotes depth literals = literals.map (·.note depth) := by
  induction literals with
  | nil => rfl
  | cons l rest ih => rw [literalNotes, ih, List.map_cons]

/-- A listing shows what the indices name. -/
theorem Code.line_eq_rows (code : Code) (depth : Nat) (placed : Placed) :
    Instruction.line depth (literalNotes depth code.literals) placed =
      Instruction.rows depth (code.named? placed.2) placed := by
  obtain ⟨offset, i⟩ := placed
  cases i with
  | pushLiteral kind index =>
    simp only [Instruction.line, Instruction.rows, named?, literalNotes_eq_map, List.getElem?_map]
    cases code.literals[index.toNat]? with
    | none => rfl
    | some l => simp only [Option.map_some, Literal.note_eq]
  | _ => rfl

theorem Code.lines_eq_flatMap_named? (code : Code) (hread : (Instruction.stream code.bytes 0).2 = none) (depth : Nat) :
    code.lines depth = (Instruction.stream code.bytes 0).1.flatMap fun placed =>
      Instruction.rows depth (code.named? placed.2) placed := by
  have hrows := List.flatMap_congr fun placed (_ : placed ∈ (Instruction.stream code.bytes 0).1) =>
    code.line_eq_rows depth placed
  obtain ⟨bytes, literals, finalized⟩ := code
  rw [← hrows, lines]
  dsimp only at hread ⊢
  rw [hread]

/-- Joined rows show which rows they are joined from, if two rows for one place are the same or begin differently. -/
theorem flatMap_eq_flatMap_iff {α β : Type} {xs : List α} {f g : α → List β}
    (h : ∀ x ∈ xs, f x = g x ∨ ∃ a b as bs, f x = a :: as ∧ g x = b :: bs ∧ a ≠ b) :
    xs.flatMap f = xs.flatMap g ↔ ∀ x ∈ xs, f x = g x := by
  refine ⟨fun heq => ?_, List.flatMap_congr⟩
  induction xs with
  | nil => exact nofun
  | cons x xs ih =>
    rw [List.forall_mem_cons] at h ⊢
    rw [List.flatMap_cons, List.flatMap_cons] at heq
    rcases h.1 with hx | ⟨a, b, as, bs, hf, hg, hne⟩
    · rw [hx, List.append_cancel_left_eq] at heq
      exact ⟨hx, ih h.2 heq⟩
    · rw [hf, hg] at heq
      exact absurd (List.cons.inj heq).1 hne

theorem Instruction.rows_some_ne (depth : Nat) (l : Literal) (placed : Placed) :
    ∃ a b as bs, rows depth (some l) placed = a :: as ∧ rows depth none placed = b :: bs ∧ a ≠ b := by
  obtain ⟨offset, i⟩ := placed
  refine ⟨_, _, _, _, rfl, rfl, fun heq => ?_⟩
  have hlength := congrArg String.length heq
  simp only [String.length_append] at hlength
  have : " ; ".length = 3 := rfl
  omega

theorem Instruction.rows_eq_rows_iff {shown? pushed? : Option Literal} (h : shown? = pushed? ∨ pushed? = none)
    (depth : Nat) (placed : Placed) :
    (rows depth shown? placed = rows depth pushed? placed ↔ shown? = pushed?) ∧
      (rows depth shown? placed = rows depth pushed? placed ∨
        ∃ a b as bs, rows depth shown? placed = a :: as ∧ rows depth pushed? placed = b :: bs ∧ a ≠ b) := by
  rcases h with rfl | rfl
  · exact ⟨iff_of_true rfl rfl, .inl rfl⟩
  · cases shown? with
    | none => exact ⟨iff_of_true rfl rfl, .inl rfl⟩
    | some l =>
      have hne := rows_some_ne depth l placed
      refine ⟨iff_of_false (fun heq => ?_) (by simp), .inr hne⟩
      obtain ⟨a, b, as, bs, ha, hb, hab⟩ := hne
      rw [ha, hb] at heq
      exact hab (List.cons.inj heq).1

namespace Code

variable {code unit : Code} {i : Instruction} {kind : LiteralKind} {index : UInt8}

/-- The lines that show what an instruction of the code pushes. -/
def rows (code : Code) (depth : Nat) (placed : Placed) : List String :=
  Instruction.rows depth (code.pushed? placed.2) placed

/-- The two literals of a push differ just if it is one of nil or of the assignment and the pool has an entry for it. -/
theorem Names.named?_eq_pushed?_iff (h : code.Names kind index) :
    code.named? (.pushLiteral kind index) = code.pushed? (.pushLiteral kind index) ↔
      (kind = .nil ∨ kind = .assignment → code.literals.length ≤ index.toNat) := by
  by_cases hkind : kind = .nil ∨ kind = .assignment
  · rw [pushed?_eq_none_of_fixed hkind, named?, List.getElem?_eq_none_iff]
    exact ⟨fun hle _ => hle, fun hle => hle hkind⟩
  · obtain ⟨l, hpushed, hnamed⟩ := h.pushed?_eq_named? hkind
    exact iff_of_true (hnamed.trans hpushed.symm) fun h => absurd h hkind

theorem Assembled.lines_eq_flatMap_iff (h : code.Assembled) (depth : Nat) :
    code.lines depth = (Instruction.stream code.bytes 0).1.flatMap (code.rows depth) ↔
      ∀ placed ∈ (Instruction.stream code.bytes 0).1, code.named? placed.2 = code.pushed? placed.2 := by
  have hrows (placed : Placed) (hplaced : placed ∈ (Instruction.stream code.bytes 0).1) :=
    Instruction.rows_eq_rows_iff (h.named?_eq_pushed?_or hplaced) depth placed
  rw [code.lines_eq_flatMap_named? h.readable depth]
  refine (flatMap_eq_flatMap_iff fun placed hplaced => (hrows placed hplaced).2).trans ?_
  exact forall₂_congr fun placed hplaced => (hrows placed hplaced).1

theorem forall_named?_eq_pushed?_iff {instructions : List Instruction}
    (hnames : ∀ kind index, .pushLiteral kind index ∈ instructions → code.Names kind index) :
    (∀ i ∈ instructions, code.named? i = code.pushed? i) ↔
      ∀ kind index, .pushLiteral kind index ∈ instructions → kind = .nil ∨ kind = .assignment →
        code.literals.length ≤ index.toNat := by
  constructor
  · exact fun h kind index hi => (hnames kind index hi).named?_eq_pushed?_iff.1 (h _ hi)
  · intro h i hi
    cases i with
    | pushLiteral kind index => exact (hnames kind index hi).named?_eq_pushed?_iff.2 (h kind index hi)
    | _ => rfl

end Code

/-! ## Execution -/

theorem Instruction.decode_of_mem_place {instructions : List Instruction} {i : Instruction} {bytes : Array UInt8}
    {front back : List UInt8} {offset : Nat} (hi : (offset, i) ∈ place front.length instructions)
    (hbytes : bytes.toList = front ++ (instructions.flatMap encode ++ back)) : decode bytes offset = .ok i := by
  induction instructions generalizing front with
  | nil => cases hi
  | cons first rest ih =>
    rw [List.flatMap_cons, List.append_assoc] at hbytes
    rcases List.mem_cons.1 hi with heq | hi
    · cases heq
      exact decode_encode i hbytes
    · have hrest : (offset, i) ∈ place (front ++ first.encode).length rest := by
        rwa [List.length_append, length_encode]
      exact ih hrest (by rw [hbytes, List.append_assoc])

theorem Heap.template_finalize (site : Site) (kind : ObjectKind) (params : List String) (code : Code) :
    Heap.template site kind params (some code.finalize) = Heap.template site kind params (some code) := by
  unfold Heap.template
  rw [Option.getD_some, Option.getD_some, Code.finalize_of_closed (Code.finalized_finalize code)]

namespace Exec

variable {ctx : Context} {m : Machine} {top : Frame} {callers : List Frame} {kind : LiteralKind} {index : UInt8}

/-- The value of a literal that is written at `site`. -/
def evaluate (ctx : Context) (site : Site) : Literal → Exec Value
  | .int n => match Value.ofInt? n with
    | some value => return value
    | none => throw (.integerOverflow n)
  | .float x => onHeap (ctx.roots.newFloat x)
  | .text s => onHeap (ctx.roots.intern s)
  | .object kind params code => instantiate site kind params code

/-- What a push supplies: the value of a literal, or one of the two objects that are not in the pool. -/
def supply (ctx : Context) (site : Site) (kind : LiteralKind) : Option Literal → Exec Value
  | some l => evaluate ctx site l
  | none => return .ref (if kind = .nil then ctx.roots.nil else ctx.roots.assignment)

/-- It makes no difference whether the unit of a literal was closed before. -/
theorem supply_map_finalize (ctx : Context) (site : Site) (kind : LiteralKind) (pushed? : Option Literal) :
    supply ctx site kind (pushed?.map Literal.finalize) = supply ctx site kind pushed? := by
  cases pushed? with
  | none => rfl
  | some l =>
    cases l with
    | object kind params code =>
      cases code with
      | none => rfl
      | some code =>
        show instantiate site kind params (some code.finalize) = instantiate site kind params (some code)
        unfold instantiate
        rw [Heap.template_finalize]
    | _ => rfl

theorem literal_eq_supply (hframes : m.process.frames = top :: callers) (hnames : top.body.code.Names kind index) :
    literal ctx kind index m =
      supply ctx (top.literalSite index) kind (top.body.code.pushed? (.pushLiteral kind index)) m := by
  rcases hnames with rfl | rfl | ⟨l, hl, rfl, -⟩
  · rw [Code.pushed?_eq_none_of_fixed (.inl rfl)]
    rfl
  · rw [Code.pushed?_eq_none_of_fixed (.inr rfl)]
    rfl
  · have hpushed : top.body.code.pushed? (.pushLiteral l.kind index) = some l :=
      Code.pushed?_eq_some_iff.2 ⟨index, rfl, hl⟩
    have hfound : top.body.code.literal index.toNat = .ok l := Code.literal_eq_ok_iff.2 hl
    rw [hpushed]
    cases l <;>
    · unfold literal
      refine (bind_of_ok (frame_eq hframes)).trans ?_
      dsimp only
      rw [hfound]
      rfl

theorem step_eq_supply (hframes : m.process.frames = top :: callers)
    (hdecode : Instruction.decode top.body.code.bytes top.ip = .ok (.pushLiteral kind index))
    (hnames : top.body.code.Names kind index) :
    ∃ fetched : Machine, fetched.heap = m.heap ∧ fetched.process = m.process.past (.pushLiteral kind index) ∧
      step ctx m = (supply ctx (top.literalSite index) kind (top.body.code.pushed? (.pushLiteral kind index)) >>=
        push) fetched := by
  obtain ⟨fetched, hfetch, -⟩ := Machine.fetch_of_reads ⟨top, callers, hframes, hdecode⟩
  obtain ⟨-, hheap, hprocess⟩ := fetch_past.of_ok hfetch
  have hpast : fetched.process.frames = top.past (.pushLiteral kind index) :: callers := by
    rw [hprocess, Process.past, hframes, List.modifyHead_cons]
  refine ⟨fetched, hheap, hprocess, ?_⟩
  have hliteral : literal ctx kind index fetched =
      supply ctx (top.literalSite index) kind (top.body.code.pushed? (.pushLiteral kind index)) fetched :=
    @literal_eq_supply ctx fetched (top.past (.pushLiteral kind index)) callers kind index hpast hnames
  rw [step_eq, bind_of_ok hfetch]
  show (literal ctx kind index >>= push) fetched = _
  simp only [bind, EStateM.bind, hliteral]

end Exec

namespace Code

variable {code unit : Code} {i : Instruction} {kind : LiteralKind} {index : UInt8}

theorem pushed?_finalize (hopen : code.finalized = false) (i : Instruction) :
    code.finalize.pushed? i = (code.pushed? i).map Literal.finalize := by
  cases i with
  | pushLiteral kind index =>
    rw [finalize_of_open hopen, pushed?, pushed?, List.getElem?_map]
    cases code.literals[index.toNat]? with
    | none => rfl
    | some l =>
      simp only [Option.map_some, Option.filter_some, kind_finalize]
      split <;> rfl
  | _ => rfl

/-- A frame that runs the unit, closed or as it stands, does at a push of the unit what the push shows. -/
theorem step_eq_supply_of_place {ctx : Context} {m : Machine} {top : Frame} {callers : List Frame}
    {instructions : List Instruction} (hbytes : unit.bytes.toList = instructions.flatMap Instruction.encode)
    (hnames : ∀ kind index, .pushLiteral kind index ∈ instructions → unit.Names kind index)
    (hframes : m.process.frames = top :: callers) (hcode : top.body.code = unit ∨ top.body.code = unit.finalize)
    (hi : (top.ip, .pushLiteral kind index) ∈ Instruction.place 0 instructions) :
    ∃ fetched : Machine, fetched.heap = m.heap ∧ fetched.process = m.process.past (.pushLiteral kind index) ∧
      Exec.step ctx m = (Exec.supply ctx (top.literalSite index) kind (unit.pushed? (.pushLiteral kind index)) >>=
        Exec.push) fetched := by
  have hunit : unit.Names kind index := by
    refine hnames kind index ?_
    rw [← Instruction.map_place 0 instructions]
    exact List.mem_map_of_mem hi
  have hdecode {bytes : Array UInt8} (back : List UInt8)
      (hback : bytes.toList = unit.bytes.toList ++ back) :
      Instruction.decode bytes top.ip = .ok (.pushLiteral kind index) :=
    @Instruction.decode_of_mem_place instructions _ bytes [] back _ hi (by rw [hback, hbytes, List.nil_append])
  have hclosed := (completed_finalize unit).bytes
  cases hfinalized : unit.finalized with
  | true =>
    rw [finalize_of_closed hfinalized, or_self] at hcode
    rw [← hcode] at hunit ⊢
    exact Exec.step_eq_supply hframes (hdecode [] (by rw [hcode, List.append_nil])) hunit
  | false =>
    rcases hcode with hcode | hcode
    · rw [← hcode] at hunit ⊢
      exact Exec.step_eq_supply hframes (hdecode [] (by rw [hcode, List.append_nil])) hunit
    · have hrun := hunit.finalize
      rw [← hcode] at hrun hclosed
      have hstep := @Exec.step_eq_supply ctx m top callers kind index hframes (hdecode _ hclosed) hrun
      rwa [hcode, pushed?_finalize hfinalized, Exec.supply_map_finalize] at hstep

/-- Of a unit that is written in checked lines, and of the units that it pushes, at any depth, each instruction has one
line in a listing, and the units of the literals that are pushed stand below their pushes, just if no push of nil or of
the assignment has a pool entry at its index. A literal push that is carried out supplies the literal that is to be
shown, and one of these two objects if there is none. -/
theorem lines_eq_rows_iff {lines : List Line} (hlines : Line.areChecked false lines = true)
    (hcode : Code.assemble lines = .ok code) (hunit : Relation.ReflTransGen Pushes code unit) :
    ∃ instructions : List Instruction,
      unit.bytes.toList = instructions.flatMap Instruction.encode ∧
      Instruction.stream unit.bytes 0 = (Instruction.place 0 instructions, none) ∧
      (∀ depth, unit.lines depth = (Instruction.place 0 instructions).flatMap (unit.rows depth) ↔
        ∀ kind index, .pushLiteral kind index ∈ instructions → kind = .nil ∨ kind = .assignment →
          unit.literals.length ≤ index.toNat) ∧
      (∀ depth, ∀ line ∈ unit.lines depth, Text.OneLine line) ∧
      ∀ kind index, .pushLiteral kind index ∈ instructions →
        (unit.pushed? (.pushLiteral kind index) = none ↔ kind = .nil ∨ kind = .assignment) ∧
        ∀ (ctx : Context) (m : Machine) (top : Frame) (callers : List Frame), m.process.frames = top :: callers →
          (top.body.code = unit ∨ top.body.code = unit.finalize) →
          (top.ip, .pushLiteral kind index) ∈ Instruction.place 0 instructions →
          ∃ fetched : Machine, fetched.heap = m.heap ∧ fetched.process = m.process.past (.pushLiteral kind index) ∧
            Exec.step ctx m = (Exec.supply ctx (top.literalSite index) kind
              (unit.pushed? (.pushLiteral kind index)) >>= Exec.push) fetched := by
  have hassembled : unit.Assembled := (assembled_append lines hlines (.empty false) hcode).reaches hunit
  obtain ⟨instructions, hbytes, hclosed, hnames, hinner⟩ := id hassembled
  have hstream : Instruction.stream unit.bytes 0 = (Instruction.place 0 instructions, none) := by
    rw [← Instruction.stream_encode_all, ← hbytes, Array.toArray_toList]
  refine ⟨instructions, hbytes, hstream, fun depth => ?_, fun depth => oneLine_lines depth unit,
    fun kind index hi => ⟨⟨fun hnone => ?_, fun hkind => pushed?_eq_none_of_fixed hkind index⟩, ?_⟩⟩
  · have hlisted := hassembled.lines_eq_flatMap_iff depth
    rw [hstream] at hlisted
    refine hlisted.trans (Iff.trans ?_ (forall_named?_eq_pushed?_iff hnames))
    have hplaced := List.forall_mem_map (l := Instruction.place 0 instructions) (f := (·.2))
      (P := fun i => unit.named? i = unit.pushed? i)
    rw [Instruction.map_place] at hplaced
    exact hplaced.symm
  · by_contra hkind
    obtain ⟨l, hpushed, -⟩ := (hnames kind index hi).pushed?_eq_named? hkind
    rw [hnone] at hpushed
    cases hpushed
  · intro ctx m top callers hframes htop hplaced
    exact step_eq_supply_of_place hbytes hnames hframes htop hplaced

/-- A method whose unit pushes nil and has no pool, after a text in the pool of the unit around it. -/
def methodLines : List Line := [.push (.text "m"), .push (.object .method ["x"] (some [.pushSelf, .pushNil]))]

theorem lines_eq_rows_iff_method :
    ∃ code method : Code, Line.areChecked false methodLines = true ∧ Code.assemble methodLines = .ok code ∧
      Relation.ReflTransGen Pushes code method ∧
      Instruction.stream method.bytes 0 = ([(0, .pushSelf), (1, .pushLiteral .nil 0)], none) ∧
      method.lines 1 = (Instruction.stream method.bytes 0).1.flatMap (method.rows 1) ∧
      ∀ roots : Roots, ∃ m top fetched, m.process.frames = [top] ∧ top.body.code = method.finalize ∧ top.ip = 1 ∧
        Exec.step ⟨roots, 1⟩ m = Exec.push (.ref roots.nil) fetched := by
  let method : Code := (Code.emit {} .pushSelf).emit (.pushLiteral .nil 0)
  let code : Code :=
    ⟨#[1, 3, 0, 1, 4, 1], [.text "m", .object .method ["x"] (some method)], false⟩
  have hcode : Code.assemble methodLines = .ok code := rfl
  have houter : Instruction.stream code.bytes 0 = ([(0, .pushLiteral .text 0), (3, .pushLiteral .object 1)], none) :=
    Instruction.stream_encode_all [.pushLiteral .text 0, .pushLiteral .object 1]
  have hmethod : Instruction.stream method.bytes 0 = ([(0, .pushSelf), (1, .pushLiteral .nil 0)], none) :=
    Instruction.stream_encode_all [.pushSelf, .pushLiteral .nil 0]
  have hpushes : code.Pushes method := ⟨(3, .pushLiteral .object 1), by simp [houter], rfl⟩
  obtain ⟨instructions, -, hstream, hrows, -, hpush⟩ := lines_eq_rows_iff rfl hcode (.single hpushes)
  have hplaced : Instruction.place 0 instructions = [(0, .pushSelf), (1, .pushLiteral .nil 0)] := by
    rw [hstream] at hmethod
    exact congrArg Prod.fst hmethod
  have hnil : .pushLiteral .nil 0 ∈ instructions := by
    rw [← Instruction.map_place 0 instructions, hplaced]
    exact List.mem_of_mem_getLast? rfl
  refine ⟨code, method, rfl, hcode, .single hpushes, hmethod, ?_, fun roots => ?_⟩
  · rw [hstream]
    exact (hrows 1).2 fun _ index _ _ => Nat.zero_le index.toNat
  · let nil : Value := .ref roots.nil
    let top : Frame := { body := ⟨method.finalize, [0, 1]⟩, ip := 1, activation := nil, receiver := nil }
    let m : Machine := { heap := { limit := 0 }, process := { id := 0, frames := [top] } }
    obtain ⟨fetched, -, -, hstep⟩ := (hpush .nil 0 hnil).2 ⟨roots, 1⟩ m top [] rfl (.inr rfl) (by simp [hplaced, top])
    exact ⟨m, top, fetched, rfl, rfl, rfl, hstep⟩

/-- The line of a push of nil shows the integer that was pushed before it. -/
theorem lines_ne_rows :
    ∃ code : Code, Line.areChecked false [.push (.int 5), .pushNil] = true ∧
      Code.assemble [.push (.int 5), .pushNil] = .ok code ∧
      Instruction.stream code.bytes 0 = ([(0, .pushLiteral .int 0), (3, .pushLiteral .nil 0)], none) ∧
      (∀ ctx m, Exec.literal ctx .nil 0 m = .ok (.ref ctx.roots.nil) m) ∧
      code.lines 0 = ["0000 PUSH_LITERAL Int 0 ; 5", "0003 PUSH_LITERAL Nil 0 ; 5"] ∧
      (Instruction.stream code.bytes 0).1.flatMap (code.rows 0) =
        ["0000 PUSH_LITERAL Int 0 ; 5", "0003 PUSH_LITERAL Nil 0"] ∧
      code.lines 0 ≠ (Instruction.stream code.bytes 0).1.flatMap (code.rows 0) := by
  let code : Code := ⟨#[1, 1, 0, 1, 0, 0], [.int 5], false⟩
  have hstream : Instruction.stream code.bytes 0 = ([(0, .pushLiteral .int 0), (3, .pushLiteral .nil 0)], none) :=
    Instruction.stream_encode_all [.pushLiteral .int 0, .pushLiteral .nil 0]
  have hlines : code.lines 0 = ["0000 PUSH_LITERAL Int 0 ; 5", "0003 PUSH_LITERAL Nil 0 ; 5"] := by
    rw [lines_eq_flatMap_named? code (congrArg Prod.snd hstream), hstream]
    decide +kernel
  have hrows : (Instruction.stream code.bytes 0).1.flatMap (code.rows 0) =
      ["0000 PUSH_LITERAL Int 0 ; 5", "0003 PUSH_LITERAL Nil 0"] := by
    rw [hstream]
    decide +kernel
  refine ⟨code, rfl, rfl, hstream, fun _ _ => rfl, hlines, hrows, ?_⟩
  rw [hlines, hrows]
  decide

end Code

end ProtoVm
