import ProtoVm.Proofs.CachedSearch
import ProtoVm.Proofs.Matching

/-!
# Heaps that mirror each other

The heap of a process that runs on its own mirrors the heap it shares with others in another run: paired
objects match, and the objects that are common to all are never changed. What the other processes do to
the shared heap leaves the mirror intact, as long as each of them changes only objects of its own.
-/

namespace ProtoVm

/-! ## What all processes have in common -/

namespace Heap

/-- The id is the one object for some text. -/
def Interned (heap : Heap) (id : ObjectId) : Prop := ∃ s, heap.strings.lookup s = some id

/-- Ids stay issued, and the tables get new entries for new objects only. -/
structure Grows (heap heap' : Heap) : Prop where
  issued : ∀ id, heap.Issued id → heap'.Issued id
  strings : ∀ s id, heap.strings.lookup s = some id → heap'.strings.lookup s = some id
  strings_new : ∀ s id, heap'.strings.lookup s = some id → heap.strings.lookup s = some id ∨ ¬heap.Issued id
  templates_new : ∀ site id, heap'.templates.lookup site = some id →
    heap.templates.lookup site = some id ∨ ¬heap.Issued id

theorem Grows.refl (heap : Heap) : heap.Grows heap :=
  ⟨fun _ h => h, fun _ _ h => h, fun _ _ => .inl, fun _ _ => .inl⟩

theorem Grows.trans {heap heap' heap'' : Heap} (h : heap.Grows heap') (h' : heap'.Grows heap'') :
    heap.Grows heap'' := by
  refine ⟨fun id hid => h'.issued id (h.issued id hid), fun s id hid => h'.strings s id (h.strings s id hid),
    fun s id hid => ?_, fun site id hid => ?_⟩
  · rcases h'.strings_new s id hid with hid | hid
    · exact h.strings_new s id hid
    · exact .inr fun hissued => hid (h.issued id hissued)
  · rcases h'.templates_new site id hid with hid | hid
    · exact h.templates_new site id hid
    · exact .inr fun hissued => hid (h.issued id hissued)

/-- The tables stay as they are. -/
theorem Grows.of_tables {heap heap' : Heap} (hissued : ∀ id, heap.Issued id → heap'.Issued id)
    (hstrings : heap'.strings = heap.strings) (htemplates : heap'.templates = heap.templates) :
    heap.Grows heap' :=
  ⟨hissued, fun _ _ h => hstrings ▸ h, fun _ _ h => .inl (hstrings ▸ h), fun _ _ h => .inl (htemplates ▸ h)⟩

theorem Adds.grows {heap heap' : Heap} {object : Object} {id : ObjectId} (h : heap.Adds object id heap') :
    heap.Grows heap' := .of_tables h.issued h.strings_eq h.templates_eq

theorem Adds.kept {heap heap' : Heap} {object : Object} {id other : ObjectId} (h : heap.Adds object id heap')
    (hother : heap.Issued other) : heap'.get? other = heap.get? other := by
  refine h.get?_of_ne other ?_
  rintro rfl
  exact h.unissued hother

/-- The heaps differ in their caches and in the numbers to be drawn next at most. -/
structure SameStore (heap heap' : Heap) : Prop where
  cells_eq : heap'.cells = heap.cells
  free_eq : heap'.free = heap.free
  limit_eq : heap'.limit = heap.limit
  strings_eq : heap'.strings = heap.strings
  templates_eq : heap'.templates = heap.templates

theorem SameStore.get?_eq {heap heap' : Heap} (h : heap.SameStore heap') (id : ObjectId) :
    heap'.get? id = heap.get? id := by
  unfold get?
  rw [h.cells_eq]

theorem SameStore.grows {heap heap' : Heap} (h : heap.SameStore heap') : heap.Grows heap' := by
  refine .of_tables (fun id hid => ?_) h.strings_eq h.templates_eq
  rwa [Issued, h.cells_eq]

theorem SameStore.tidy {heap heap' : Heap} (h : heap.SameStore heap') (htidy : heap.Tidy) : heap'.Tidy :=
  ⟨h.free_eq ▸ htidy.free_nodup, h.free_eq ▸ h.cells_eq ▸ htidy.free_empty,
    h.cells_eq ▸ h.limit_eq ▸ htidy.size_le⟩

/-- Looking a name up only changes what is remembered. -/
theorem sameStore_slotLookup (heap : Heap) (roots : Roots) (start : ObjectId) (name : String) :
    heap.SameStore (heap.slotLookup roots start name).heap := by
  unfold slotLookup
  split
  · exact ⟨rfl, rfl, rfl, rfl, rfl⟩
  · rcases heap.parentLookup_heap roots start name with h | ⟨holder, value, -, h⟩ <;> rw [h] <;>
      exact ⟨rfl, rfl, rfl, rfl, rfl⟩

end Heap

/-- The object from which copies of a literal are made, but for the numbers of its shapes. -/
inductive Object.IsTemplate (params : List String) (body : Body) : ObjectKind → Object → Prop
  | plain : IsTemplate params body .plain {}
  | method (id bindings : ShapeId) :
      IsTemplate params body .method { shape := { id, behavior := .method ⟨body, params, false, bindings⟩ } }
  | block (id bindings : ShapeId) :
      IsTemplate params body .block { shape := { id, behavior := .method ⟨body, params, true, bindings⟩ } }

namespace Ground

variable {g : Ground} {heap heap' : Heap}

/-- The object was there at the start or is an interned string. -/
def Shares (g : Ground) (heap : Heap) (id : ObjectId) : Prop := g.base.Issued id ∨ heap.Interned id

/-- The object is shared, or copies of a literal are made from it. -/
def Holds (g : Ground) (heap : Heap) (id : ObjectId) : Prop :=
  g.Shares heap id ∨ ∃ site, heap.templates.lookup site = some id

/-- The one object for a text as it is when it is made. -/
def text (g : Ground) (s : String) : Object :=
  { g.base.object g.roots.stringPrototype with payload := .text s }

/-- What was there at the start is unchanged, and what is made for all processes is as it was made. -/
structure Stocks (g : Ground) (heap : Heap) : Prop where
  tidy : heap.Tidy
  issued : ∀ id, g.Holds heap id → heap.Issued id
  kept : ∀ id, g.base.Issued id → heap.get? id = g.base.get? id
  strings_base : ∀ s id, g.base.strings.lookup s = some id → heap.strings.lookup s = some id
  strings : ∀ s id, heap.strings.lookup s = some id → g.base.strings.lookup s = some id ∨
    ¬g.base.Issued id ∧ heap.get? id = some (g.text s)
  templates : ∀ site id, heap.templates.lookup site = some id → ¬g.Shares heap id ∧
    ∀ (body : Body) index kind params inner, body.Written g.units → site = body.site ++ [index] →
      body.code.literals[index]? = some (.object kind params inner) →
      ∃ object, heap.get? id = some object ∧ object.IsTemplate params ⟨(inner.getD {}).finalize, site⟩ kind

theorem Shares.grows {id : ObjectId} (h : g.Shares heap id) (hg : heap.Grows heap') : g.Shares heap' id :=
  h.imp_right fun ⟨s, hs⟩ => ⟨s, hg.strings s id hs⟩

/-- What was issued before is held only if it was held before. -/
theorem Holds.of_grows {id : ObjectId} (h : g.Holds heap' id) (hg : heap.Grows heap') (hid : heap.Issued id) :
    g.Holds heap id := by
  rcases h with (h | ⟨s, hs⟩) | ⟨site, hsite⟩
  · exact .inl (.inl h)
  · exact .inl (.inr ⟨s, (hg.strings_new s id hs).resolve_right (not_not_intro hid)⟩)
  · exact .inr ⟨site, (hg.templates_new site id hsite).resolve_right (not_not_intro hid)⟩

theorem Holds.of_tables {id : ObjectId} (h : g.Holds heap' id) (hstrings : heap'.strings = heap.strings)
    (htemplates : heap'.templates = heap.templates) : g.Holds heap id := by
  simpa only [Holds, Shares, Heap.Interned, hstrings, htemplates] using h

/-- A change that leaves the tables and everything that is held alone. -/
theorem Stocks.of_kept (hs : g.Stocks heap) (htidy : heap'.Tidy)
    (hissued : ∀ id, heap.Issued id → heap'.Issued id) (hstrings : heap'.strings = heap.strings)
    (htemplates : heap'.templates = heap.templates)
    (hkept : ∀ id, g.Holds heap id → heap'.get? id = heap.get? id) : g.Stocks heap' := by
  refine ⟨htidy, fun id hid => hissued id (hs.issued id (hid.of_tables hstrings htemplates)), fun id hid => ?_,
    fun s id hid => hstrings ▸ hs.strings_base s id hid, fun s id hid => ?_, fun site id hid => ?_⟩
  · rw [hkept id (.inl (.inl hid)), hs.kept id hid]
  · rw [hstrings] at hid
    rw [hkept id (.inl (.inr ⟨s, hid⟩))]
    exact hs.strings s id hid
  · rw [htemplates] at hid
    rw [hkept id (.inr ⟨site, hid⟩)]
    simpa only [Shares, Heap.Interned, hstrings] using hs.templates site id hid

theorem Stocks.sameStore (hs : g.Stocks heap) (h : heap.SameStore heap') : g.Stocks heap' :=
  hs.of_kept (h.tidy hs.tidy) h.grows.issued h.strings_eq h.templates_eq fun id _ => h.get?_eq id

theorem Stocks.adds (hs : g.Stocks heap) {object : Object} {id : ObjectId} (h : heap.Adds object id heap') :
    g.Stocks heap' :=
  hs.of_kept h.tidy h.issued h.strings_eq h.templates_eq fun other hother => h.kept (hs.issued other hother)

/-- Entries for other keys are found as before. -/
theorem lookup_cons_ne {α β : Type} [BEq α] [LawfulBEq α] {table : List (α × β)} {key other : α} {entry : β}
    (h : other ≠ key) : List.lookup other ((key, entry) :: table) = table.lookup other := by
  rw [List.lookup_cons, beq_false_of_ne h]

/-- A text gets its one object. -/
theorem Stocks.intern (hs : g.Stocks heap) {s : String} (hnone : heap.strings.lookup s = none) {id : ObjectId}
    (h : heap.Adds (g.text s) id heap') :
    g.Stocks { heap' with strings := (s, id) :: heap'.strings } ∧
      heap.Grows { heap' with strings := (s, id) :: heap'.strings } := by
  have hself : ((s, id) :: heap'.strings).lookup s = some id := by simp
  have hother {t : String} (ht : t ≠ s) : ((s, id) :: heap'.strings).lookup t = heap.strings.lookup t := by
    rw [lookup_cons_ne ht, h.strings_eq]
  have hbase {x : ObjectId} (hx : g.base.Issued x) : heap.Issued x := hs.issued x (.inl (.inl hx))
  have hcases {t : String} {x : ObjectId} (hx : ((s, id) :: heap'.strings).lookup t = some x) :
      heap.strings.lookup t = some x ∨ t = s ∧ x = id := by
    by_cases ht : t = s
    · subst ht
      rw [hself] at hx
      exact .inr ⟨rfl, (Option.some.inj hx).symm⟩
    · exact .inl (hother ht ▸ hx)
  refine ⟨⟨⟨h.tidy.free_nodup, h.tidy.free_empty, h.tidy.size_le⟩, fun x hx => ?_, fun x hx => ?_, fun t x hx => ?_,
    fun t x hx => ?_, fun site x hx => ?_⟩, h.issued, fun t x hx => ?_, fun t x hx => ?_, fun site x hx => ?_⟩
  · rcases hx with (hx | ⟨t, hx⟩) | ⟨site, hx⟩
    · exact h.issued x (hbase hx)
    · rcases hcases hx with hx | ⟨-, rfl⟩
      · exact h.issued x (hs.issued x (.inl (.inr ⟨t, hx⟩)))
      · exact .of_get? h.get?_self
    · exact h.issued x (hs.issued x (.inr ⟨site, h.templates_eq ▸ hx⟩))
  · exact (h.kept (hbase hx)).trans (hs.kept x hx)
  · have hx := hs.strings_base t x hx
    refine (hother ?_).trans hx
    rintro rfl
    rw [hnone] at hx
    cases hx
  · rcases hcases hx with hx | ⟨rfl, rfl⟩
    · have hissued := hs.issued x (.inl (.inr ⟨t, hx⟩))
      exact (hs.strings t x hx).imp_right fun hnew => ⟨hnew.1, (h.kept hissued).trans hnew.2⟩
    · exact .inr ⟨fun hx => h.unissued (hbase hx), h.get?_self⟩
  · have hx : heap.templates.lookup site = some x := h.templates_eq ▸ hx
    have hissued := hs.issued x (.inr ⟨site, hx⟩)
    obtain ⟨hshares, hform⟩ := hs.templates site x hx
    refine ⟨?_, fun body index kind params inner hw hsite hl => ?_⟩
    · rintro (hx | ⟨t, hx⟩)
      · exact hshares (.inl hx)
      · rcases hcases hx with hx | ⟨-, rfl⟩
        · exact hshares (.inr ⟨t, hx⟩)
        · exact h.unissued hissued
    · obtain ⟨object, hget, htemplate⟩ := hform body index kind params inner hw hsite hl
      exact ⟨object, (h.kept hissued).trans hget, htemplate⟩
  · refine (hother ?_).trans hx
    rintro rfl
    rw [hnone] at hx
    cases hx
  · rcases hcases hx with hx | ⟨-, rfl⟩
    · exact .inl hx
    · exact .inr h.unissued
  · exact .inl (h.templates_eq ▸ hx)

/-- A literal gets the object from which its copies are made. -/
theorem Stocks.template (hs : g.Stocks heap) {body : Body} {index : Nat} {kind : ObjectKind} {params : List String}
    {inner : Option Code} (hw : body.Written g.units)
    (hl : body.code.literals[index]? = some (.object kind params inner)) {object : Object}
    (ho : object.IsTemplate params ⟨(inner.getD {}).finalize, body.site ++ [index]⟩ kind) {id : ObjectId}
    (h : heap.Adds object id heap') :
    g.Stocks { heap' with templates := (body.site ++ [index], id) :: heap'.templates } ∧
      heap.Grows { heap' with templates := (body.site ++ [index], id) :: heap'.templates } := by
  have hself : ((body.site ++ [index], id) :: heap'.templates).lookup (body.site ++ [index]) = some id := by simp
  have hcases {site : Site} {x : ObjectId}
      (hx : ((body.site ++ [index], id) :: heap'.templates).lookup site = some x) :
      heap.templates.lookup site = some x ∨ site = body.site ++ [index] ∧ x = id := by
    by_cases hsite : site = body.site ++ [index]
    · subst hsite
      rw [hself] at hx
      exact .inr ⟨rfl, (Option.some.inj hx).symm⟩
    · rw [lookup_cons_ne hsite, h.templates_eq] at hx
      exact .inl hx
  have hs' := hs.adds h
  refine ⟨⟨⟨h.tidy.free_nodup, h.tidy.free_empty, h.tidy.size_le⟩, fun x hx => ?_, hs'.kept, hs'.strings_base,
    hs'.strings, fun site x hx => ?_⟩, h.issued, fun t x hx => h.strings_eq ▸ hx,
    fun t x hx => .inl (h.strings_eq ▸ hx), fun site x hx => ?_⟩
  · rcases hx with hx | ⟨site, hx⟩
    · exact hs'.issued x (.inl hx)
    · rcases hcases hx with hx | ⟨-, rfl⟩
      · exact h.issued x (hs.issued x (.inr ⟨site, hx⟩))
      · exact .of_get? h.get?_self
  · rcases hcases hx with hx | ⟨rfl, rfl⟩
    · exact hs'.templates site x (h.templates_eq ▸ hx)
    · refine ⟨fun hx => h.unissued (hs.issued x (.inl ?_)), fun body' index' kind' params' inner' hw' hsite hl' => ?_⟩
      · simpa only [Shares, Heap.Interned, h.strings_eq] using hx
      · obtain ⟨hbody, hindex⟩ := List.append_inj' hsite rfl
        obtain rfl : index = index' := by simpa using hindex
        obtain ⟨rfl, rfl, hcode⟩ := hw.literal_eq hw' hbody.symm hl hl'
        exact ⟨object, h.get?_self, hcode ▸ ho⟩
  · rcases hcases hx with hx | ⟨-, rfl⟩
    · exact .inl hx
    · exact .inr h.unissued

end Ground

/-! ## Mirrored heaps -/

/-- `h₀` is the heap of the lone run and `h` that of the shared one. -/
structure Mirror (σ : Setting) (R : Pairing) (h₀ h : Heap) : Prop where
  stocks₀ : σ.Stocks h₀
  stocks : σ.Stocks h
  base : ∀ id, σ.base.Issued id → R.common id id
  own : ∀ a b, R.own a b → ¬σ.Holds h₀ a ∧ ¬σ.Holds h b
  common : ∀ a b, R.common a b → σ.Shares h₀ a ∧ σ.Shares h b
  issued : ∀ a b, R.pairs a b → h₀.Issued a ∧ h.Issued b
  unique : Relator.BiUnique R.pairs
  objects : ∀ a b, R.pairs a b → Option.Rel (Object.Match σ R) (h₀.get? a) (h.get? b)
  strings : ∀ s a, h₀.strings.lookup s = some a → ∃ b, h.strings.lookup s = some b ∧ R.common a b
  strings_back : ∀ s a b, h.strings.lookup s = some b → R.pairs a b → h₀.strings.lookup s = some a

/-- How the shared heap and the pairing may change while the process runs: of the objects there are, only
those of the process itself change, and objects come to it only as new ones. -/
structure Pairing.Passes (R : Pairing) (h : Heap) (R' : Pairing) (h' : Heap) : Prop where
  le : R ≤ R'
  grows : h.Grows h'
  kept : ∀ id, h.Issued id → (∀ a, ¬R.own a id) → h'.get? id = h.get? id
  own_new : ∀ a b, R'.own a b → R.own a b ∨ ¬h.Issued b

theorem Pairing.Passes.refl (R : Pairing) (h : Heap) : R.Passes h R h :=
  ⟨le_rfl, .refl h, fun _ _ _ => rfl, fun _ _ => .inl⟩

theorem Pairing.Passes.trans {R R' R'' : Pairing} {h h' h'' : Heap} (hp : R.Passes h R' h')
    (hp' : R'.Passes h' R'' h'') : R.Passes h R'' h'' := by
  refine ⟨le_trans hp.le hp'.le, hp.grows.trans hp'.grows, fun id hid hnot => ?_, fun a b hab => ?_⟩
  · have hnot' (a : ObjectId) (hown : R'.own a id) : False :=
      (hp.own_new a id hown).elim (hnot a) fun hnew => hnew hid
    rw [hp'.kept id (hp.grows.issued id hid) hnot', hp.kept id hid hnot]
  · rcases hp'.own_new a b hab with hab | hnew
    · exact hp.own_new a b hab
    · exact .inr fun hissued => hnew (hp.grows.issued b hissued)

/-- The processes have no object of their own in common. -/
def Pairing.Apart (R R' : Pairing) : Prop := ∀ a a' b, R.own a b → ¬R'.own a' b

theorem Pairing.Apart.symm {R R' : Pairing} (h : R.Apart R') : R'.Apart R :=
  fun a a' b hown hown' => h a' a b hown' hown

namespace Mirror

variable {σ : Setting} {R R' : Pairing} {h₀ h h₀' h' : Heap} {a b : ObjectId}

theorem object (hm : Mirror σ R h₀ h) (hab : R.pairs a b) : Object.Match σ R (h₀.object a) (h.object b) := by
  have hobject := hm.objects a b hab
  unfold Heap.object
  generalize h₀.get? a = object at hobject
  generalize h.get? b = object' at hobject
  cases hobject with
  | some h => exact h
  | none => exact .empty

theorem root (hm : Mirror σ R h₀ h) {id : ObjectId} (hid : id ∈ σ.roots.ids) : R.pairs id id :=
  .inr (hm.base id (σ.roots_issued id hid))

/-- What is not shared belongs to the process. -/
theorem own_of_pairs (hm : Mirror σ R h₀ h) (hab : R.pairs a b) (hshares : ¬σ.Shares h b) : R.own a b :=
  hab.resolve_right fun hcommon => hshares (hm.common a b hcommon).2

/-- Both heaps change, and the paired objects still match. -/
theorem change (hm : Mirror σ R h₀ h) (hg₀ : h₀.Grows h₀') (hg : h.Grows h') (hs₀ : σ.Stocks h₀')
    (hs : σ.Stocks h') (hobjects : ∀ a b, R.pairs a b → Option.Rel (Object.Match σ R) (h₀'.get? a) (h'.get? b))
    (hstrings : h₀'.strings = h₀.strings) : Mirror σ R h₀' h' := by
  refine ⟨hs₀, hs, hm.base, fun a b hab => ?_, fun a b hab => ?_, fun a b hab => ?_, hm.unique, hobjects,
    fun s a hsa => ?_, fun s a b hsb hab => ?_⟩
  · obtain ⟨hissued₀, hissued⟩ := hm.issued a b (.inl hab)
    exact ⟨fun hholds => (hm.own a b hab).1 (hholds.of_grows hg₀ hissued₀),
      fun hholds => (hm.own a b hab).2 (hholds.of_grows hg hissued)⟩
  · exact ⟨(hm.common a b hab).1.grows hg₀, (hm.common a b hab).2.grows hg⟩
  · exact ⟨hg₀.issued a (hm.issued a b hab).1, hg.issued b (hm.issued a b hab).2⟩
  · obtain ⟨b, hsb, hab⟩ := hm.strings s a (hstrings ▸ hsa)
    exact ⟨b, hg.strings s b hsb, hab⟩
  · rw [hstrings]
    have hissued := (hm.issued a b hab).2
    exact hm.strings_back s a b ((hg.strings_new s b hsb).resolve_right (not_not_intro hissued)) hab

/-- Only the cache or the numbers to be drawn next change. -/
theorem aside (hm : Mirror σ R h₀ h) (hsame₀ : h₀.SameStore h₀') (hsame : h.SameStore h') :
    Mirror σ R h₀' h' ∧ R.Passes h R h' := by
  refine ⟨hm.change hsame₀.grows hsame.grows (hm.stocks₀.sameStore hsame₀) (hm.stocks.sameStore hsame)
    (fun a b hab => ?_) hsame₀.strings_eq, le_rfl, hsame.grows, fun id _ _ => hsame.get?_eq id, fun _ _ => .inl⟩
  rw [hsame₀.get?_eq, hsame.get?_eq]
  exact hm.objects a b hab

/-- Another process goes on, and changes only objects of its own. -/
theorem disturb (hm : Mirror σ R h₀ h) {R₁ R₂ : Pairing} (hp : R₁.Passes h R₂ h') (hs : σ.Stocks h')
    (hown : ∀ x y, R₁.own x y → ¬σ.Holds h y) (hapart : R₁.Apart R) : Mirror σ R h₀ h' ∧ R₂.Apart R := by
  refine ⟨hm.change (.refl h₀) hp.grows hm.stocks₀ hs (fun a b hab => ?_) rfl, fun a a' b hown hown' => ?_⟩
  · have hfree (x : ObjectId) (hx : R₁.own x b) : False := by
      rcases hab with hab | hab
      · exact hapart x a b hx hab
      · exact hown x b hx (.inl (hm.common a b hab).2)
    rw [hp.kept b (hm.issued a b hab).2 hfree]
    exact hm.objects a b hab
  · rcases hp.own_new a b hown with hown | hnew
    · exact hapart a a' b hown hown'
    · exact hnew (hm.issued a' b (.inl hown')).2

theorem unique_insert {pairs pairs' : ObjectId → ObjectId → Prop} (hunique : Relator.BiUnique pairs)
    (hpairs : ∀ x y, pairs' x y → pairs x y ∨ x = a ∧ y = b) (ha : ∀ y, ¬pairs a y) (hb : ∀ x, ¬pairs x b) :
    Relator.BiUnique pairs' := by
  constructor
  · intro x x' y hxy hxy'
    rcases hpairs x y hxy with hxy | ⟨rfl, rfl⟩ <;> rcases hpairs x' y hxy' with hxy' | ⟨rfl, hy⟩
    · exact hunique.1 hxy hxy'
    · exact absurd (hy ▸ hxy) (hb x)
    · exact absurd hxy' (hb x')
    · rfl
  · intro x y y' hxy hxy'
    rcases hpairs x y hxy with hxy | ⟨rfl, rfl⟩ <;> rcases hpairs x y' hxy' with hxy' | ⟨hx, rfl⟩
    · exact hunique.2 hxy hxy'
    · exact absurd (hx ▸ hxy) (ha y)
    · exact absurd hxy' (ha y')
    · rfl

/-- Two objects that nobody knew are paired. -/
theorem pair (hm : Mirror σ R h₀ h) (ha : ∀ y, ¬R.pairs a y) (hb : ∀ x, ¬R.pairs x b) (hissued₀ : h₀.Issued a)
    (hissued : h.Issued b) (hholds₀ : ¬σ.Holds h₀ a) (hholds : ¬σ.Holds h b)
    (hobject : Option.Rel (Object.Match σ R) (h₀.get? a) (h.get? b)) : Mirror σ (R.addOwn a b) h₀ h := by
  have hmono := Object.Match.mono (σ := σ) (R.le_addOwn a b)
  refine ⟨hm.stocks₀, hm.stocks, hm.base, fun x y hxy => ?_, hm.common, fun x y hxy => ?_,
    unique_insert hm.unique (fun _ _ => Pairing.pairs_addOwn) ha hb, fun x y hxy => ?_, hm.strings,
    fun s x y hsy hxy => ?_⟩
  · rcases hxy with hxy | ⟨rfl, rfl⟩
    · exact hm.own x y hxy
    · exact ⟨hholds₀, hholds⟩
  · rcases Pairing.pairs_addOwn hxy with hxy | ⟨rfl, rfl⟩
    · exact hm.issued x y hxy
    · exact ⟨hissued₀, hissued⟩
  · rcases Pairing.pairs_addOwn hxy with hxy | ⟨rfl, rfl⟩
    · exact optionRel_imp hmono (hm.objects x y hxy)
    · exact optionRel_imp hmono hobject
  · rcases Pairing.pairs_addOwn hxy with hxy | ⟨rfl, rfl⟩
    · exact hm.strings_back s x y hsy hxy
    · exact absurd (.inl (.inr ⟨s, hsy⟩)) hholds

theorem not_pairs_left (hm : Mirror σ R h₀ h) (ha : ¬h₀.Issued a) (y : ObjectId) : ¬R.pairs a y :=
  fun hay => ha (hm.issued a y hay).1

theorem not_pairs_right (hm : Mirror σ R h₀ h) (hb : ¬h.Issued b) (x : ObjectId) : ¬R.pairs x b :=
  fun hxb => hb (hm.issued x b hxb).2

/-- Both runs make an object, and the two objects match. -/
theorem allocate (hm : Mirror σ R h₀ h) {object object' : Object} (hadds₀ : h₀.Adds object a h₀')
    (hadds : h.Adds object' b h') (ho : Object.Match σ R object object') :
    Mirror σ (R.addOwn a b) h₀' h' ∧ R.Passes h (R.addOwn a b) h' := by
  have hm' : Mirror σ R h₀' h' := by
    refine hm.change hadds₀.grows hadds.grows (hm.stocks₀.adds hadds₀) (hm.stocks.adds hadds)
      (fun x y hxy => ?_) hadds₀.strings_eq
    obtain ⟨hx, hy⟩ := hm.issued x y hxy
    rw [hadds₀.kept hx, hadds.kept hy]
    exact hm.objects x y hxy
  refine ⟨hm'.pair (hm.not_pairs_left hadds₀.unissued) (hm.not_pairs_right hadds.unissued)
    (.of_get? hadds₀.get?_self) (.of_get? hadds.get?_self) (fun hholds => ?_) (fun hholds => ?_) ?_,
    R.le_addOwn a b, hadds.grows, fun id hid _ => hadds.kept hid, fun x y hxy => ?_⟩
  · exact hadds₀.unissued (hm.stocks₀.issued a (hholds.of_tables hadds₀.strings_eq hadds₀.templates_eq))
  · exact hadds.unissued (hm.stocks.issued b (hholds.of_tables hadds.strings_eq hadds.templates_eq))
  · rw [hadds₀.get?_self, hadds.get?_self]
    exact .some ho
  · rcases hxy with hxy | ⟨-, rfl⟩
    · exact .inl hxy
    · exact .inr hadds.unissued

/-- An object of the process and its counterpart are changed alike. -/
theorem edit (hm : Mirror σ R h₀ h) (hab : R.own a b) (edit₀ edit : Option Object → Option Object)
    (hedit : Option.Rel (Object.Match σ R) (edit₀ (h₀.get? a)) (edit (h.get? b)))
    (hget₀ : ∀ x, h₀'.get? x = if x = a then edit₀ (h₀.get? a) else h₀.get? x)
    (hget : ∀ y, h'.get? y = if y = b then edit (h.get? b) else h.get? y) (htidy₀ : h₀'.Tidy) (htidy : h'.Tidy)
    (hg₀ : h₀.Grows h₀') (hg : h.Grows h') (hstrings₀ : h₀'.strings = h₀.strings) (hstrings : h'.strings = h.strings)
    (htemplates₀ : h₀'.templates = h₀.templates) (htemplates : h'.templates = h.templates) :
    Mirror σ R h₀' h' ∧ R.Passes h R h' := by
  obtain ⟨hholds₀, hholds⟩ := hm.own a b hab
  have hs₀ : σ.Stocks h₀' := by
    refine hm.stocks₀.of_kept htidy₀ hg₀.issued hstrings₀ htemplates₀ fun x hx => ?_
    have hne : x ≠ a := fun heq => hholds₀ (heq ▸ hx)
    rw [hget₀, if_neg hne]
  have hs : σ.Stocks h' := by
    refine hm.stocks.of_kept htidy hg.issued hstrings htemplates fun y hy => ?_
    have hne : y ≠ b := fun heq => hholds (heq ▸ hy)
    rw [hget, if_neg hne]
  refine ⟨hm.change hg₀ hg hs₀ hs (fun x y hxy => ?_) hstrings₀, le_rfl, hg, fun y _ hnot => ?_, fun _ _ => .inl⟩
  · have hiff : x = a ↔ y = b := Relator.rel_eq hm.unique hxy (.inl hab)
    rw [hget₀, hget]
    by_cases hx : x = a
    · rw [if_pos hx, if_pos (hiff.1 hx)]
      exact hedit
    · rw [if_neg hx, if_neg fun hy => hx (hiff.2 hy)]
      exact hm.objects x y hxy
  · rw [hget, if_neg]
    rintro rfl
    exact hnot a hab

theorem rel_map (hm : Mirror σ R h₀ h) (hab : R.pairs a b) {edit₀ edit : Object → Object}
    (hedit : ∀ object object', Object.Match σ R object object' → Object.Match σ R (edit₀ object) (edit object')) :
    Option.Rel (Object.Match σ R) ((h₀.get? a).map edit₀) ((h.get? b).map edit) := by
  have hobject := hm.objects a b hab
  generalize h₀.get? a = object at hobject
  generalize h.get? b = object' at hobject
  cases hobject with
  | some hmatch => exact .some (hedit _ _ hmatch)
  | none => exact .none

theorem update (hm : Mirror σ R h₀ h) (hab : R.own a b) {edit₀ edit : Object → Object}
    (hedit : ∀ object object', Object.Match σ R object object' → Object.Match σ R (edit₀ object) (edit object')) :
    Mirror σ R (h₀.update a edit₀) (h.update b edit) ∧ R.Passes h R (h.update b edit) := by
  have hgrows (heap : Heap) (id : ObjectId) (edit : Object → Object) :
      heap.Grows (heap.update id edit) ∧ (heap.update id edit).strings = heap.strings ∧
        (heap.update id edit).templates = heap.templates := by
    have htables : (heap.update id edit).strings = heap.strings ∧ (heap.update id edit).templates = heap.templates := by
      unfold Heap.update
      split <;> exact ⟨rfl, rfl⟩
    exact ⟨.of_tables (fun _ hother => hother.update id edit) htables.1 htables.2, htables⟩
  obtain ⟨hg₀, hstrings₀, htemplates₀⟩ := hgrows h₀ a edit₀
  obtain ⟨hg, hstrings, htemplates⟩ := hgrows h b edit
  exact hm.edit hab (Option.map edit₀) (Option.map edit) (hm.rel_map (.inl hab) hedit) (h₀.get?_update a · edit₀)
    (h.get?_update b · edit)
    (hm.stocks₀.tidy.update a edit₀) (hm.stocks.tidy.update b edit) hg₀ hg hstrings₀ hstrings htemplates₀ htemplates

/-- A structural edit is a change of the object, and versions and shape numbers are not seen. -/
theorem restructure (hm : Mirror σ R h₀ h) (hab : R.own a b) {edit₀ edit : Object → Object}
    (hedit : ∀ object object', Object.Match σ R object object' → Object.Match σ R (edit₀ object) (edit object')) :
    Mirror σ R (h₀.restructure a edit₀) (h.restructure b edit) ∧ R.Passes h R (h.restructure b edit) := by
  have hstamp (object object' : Object) (hmatch : Object.Match σ R object object') :
      Object.Match σ R ((edit₀ object).stamp h₀.nextShape (h₀.version + 1))
        ((edit object').stamp h.nextShape (h.version + 1)) := (hedit object object' hmatch).stamp _ _ _ _
  have hsame (heap : Heap) (id : ObjectId) (edit : Object → Object) :
      (heap.update id fun object => (edit object).stamp heap.nextShape (heap.version + 1)).SameStore
        (heap.restructure id edit) := ⟨rfl, rfl, rfl, rfl, rfl⟩
  obtain ⟨hm', hp⟩ := hm.update hab hstamp
  obtain ⟨hm'', hp'⟩ := hm'.aside (hsame h₀ a edit₀) (hsame h b edit)
  exact ⟨hm'', hp.trans hp'⟩

theorem release (hm : Mirror σ R h₀ h) (hab : R.own a b) :
    Mirror σ R (h₀.release a) (h.release b) ∧ R.Passes h R (h.release b) := by
  have hgrows (heap : Heap) (id : ObjectId) : heap.Grows (heap.release id) :=
    .of_tables (fun _ hother => hother.release id) (heap.strings_release id) (heap.templates_release id)
  exact hm.edit hab (fun _ => none) (fun _ => none) .none (h₀.get?_release a) (h.get?_release b)
    (hm.stocks₀.tidy.release a) (hm.stocks.tidy.release b) (hgrows h₀ a) (hgrows h b) (h₀.strings_release a)
    (h.strings_release b) (h₀.templates_release a) (h.templates_release b)

theorem releaseAll (hm : Mirror σ R h₀ h) {ids ids' : List ObjectId} (hids : List.Forall₂ R.own ids ids') :
    Mirror σ R (h₀.releaseAll ids) (h.releaseAll ids') ∧ R.Passes h R (h.releaseAll ids') := by
  unfold Heap.releaseAll
  induction hids generalizing h₀ h with
  | nil => exact ⟨hm, .refl R h⟩
  | cons hab _ ih =>
    obtain ⟨hm', hp⟩ := hm.release hab
    obtain ⟨hm'', hp'⟩ := ih hm'
    exact ⟨hm'', hp.trans hp'⟩

/-! ## Objects that are made once for all -/

/-- The text gets its one object in the lone run, and has got it or gets it in the shared run. -/
theorem intern (hm : Mirror σ R h₀ h) {s : String} (hg₀ : h₀.Grows h₀') (hg : h.Grows h') (hs₀ : σ.Stocks h₀')
    (hs : σ.Stocks h') (hkept₀ : ∀ x, h₀.Issued x → h₀'.get? x = h₀.get? x)
    (hkept : ∀ y, h.Issued y → h'.get? y = h.get? y) (ha : ¬h₀.Issued a) (hb : ∀ x, ¬R.pairs x b)
    (hsa : h₀'.strings.lookup s = some a) (hsb : h'.strings.lookup s = some b)
    (hstrings : ∀ t x, h₀'.strings.lookup t = some x → h₀.strings.lookup t = some x ∨ t = s ∧ x = a)
    (hback : ∀ t, h'.strings.lookup t = some b → t = s)
    (hobject₀ : h₀'.get? a = some (σ.text s)) (hobject : h'.get? b = some (σ.text s)) :
    Mirror σ (R.addCommon a b) h₀' h' ∧ R.Passes h (R.addCommon a b) h' := by
  have hmono := Object.Match.mono (σ := σ) (R.le_addCommon a b)
  have htext : Object.Match σ R (σ.text s) (σ.text s) := by
    have hroot : σ.roots.stringPrototype ∈ σ.roots.ids := by simp [Roots.ids]
    have hissued := σ.roots_issued _ hroot
    have hprototype := hm.object (hm.root hroot)
    rw [Heap.object, Heap.object, hm.stocks₀.kept _ hissued, hm.stocks.kept _ hissued] at hprototype
    exact hprototype.withPayload (.text s)
  refine ⟨⟨hs₀, hs, fun id hid => .inl (hm.base id hid), fun x y hxy => ?_, fun x y hxy => ?_, fun x y hxy => ?_,
    unique_insert hm.unique (fun _ _ => Pairing.pairs_addCommon) (hm.not_pairs_left ha) hb, fun x y hxy => ?_,
    fun t x hx => ?_, fun t x y hy hxy => ?_⟩, R.le_addCommon a b, hg, fun y hy _ => hkept y hy, fun _ _ => .inl⟩
  · obtain ⟨hx, hy⟩ := hm.issued x y (.inl hxy)
    exact ⟨fun hholds => (hm.own x y hxy).1 (hholds.of_grows hg₀ hx),
      fun hholds => (hm.own x y hxy).2 (hholds.of_grows hg hy)⟩
  · rcases hxy with hxy | ⟨rfl, rfl⟩
    · exact ⟨(hm.common x y hxy).1.grows hg₀, (hm.common x y hxy).2.grows hg⟩
    · exact ⟨.inr ⟨s, hsa⟩, .inr ⟨s, hsb⟩⟩
  · rcases Pairing.pairs_addCommon hxy with hxy | ⟨rfl, rfl⟩
    · exact ⟨hg₀.issued x (hm.issued x y hxy).1, hg.issued y (hm.issued x y hxy).2⟩
    · exact ⟨.of_get? hobject₀, .of_get? hobject⟩
  · rcases Pairing.pairs_addCommon hxy with hxy | ⟨rfl, rfl⟩
    · obtain ⟨hx, hy⟩ := hm.issued x y hxy
      rw [hkept₀ x hx, hkept y hy]
      exact optionRel_imp hmono (hm.objects x y hxy)
    · rw [hobject₀, hobject]
      exact .some (hmono _ _ htext)
  · rcases hstrings t x hx with hx | ⟨rfl, rfl⟩
    · obtain ⟨y, hy, hxy⟩ := hm.strings t x hx
      exact ⟨y, hg.strings t y hy, .inl hxy⟩
    · exact ⟨b, hsb, .inr ⟨rfl, rfl⟩⟩
  · rcases Pairing.pairs_addCommon hxy with hxy | ⟨rfl, rfl⟩
    · have hissued := (hm.issued x y hxy).2
      have hy := (hg.strings_new t y hy).resolve_right (not_not_intro hissued)
      exact hg₀.strings t x (hm.strings_back t x y hy hxy)
    · exact hback t hy ▸ hsa

/-- The object of a text that is there in the shared heap only: nobody is paired with it yet. -/
theorem interned_alone (hm : Mirror σ R h₀ h) {s : String}
    (hnone : h₀.strings.lookup s = none) (hb : h.strings.lookup s = some b) :
    (∀ x, ¬R.pairs x b) ∧ h.get? b = some (σ.text s) ∧ ∀ t, h.strings.lookup t = some b → t = s := by
  have hunpaired (x : ObjectId) (hx : R.pairs x b) : False := by
    rw [hm.strings_back s x b hb hx] at hnone
    cases hnone
  rcases hm.stocks.strings s b hb with hbase | ⟨hbase, hget⟩
  · rw [hm.stocks₀.strings_base s b hbase] at hnone
    cases hnone
  · refine ⟨hunpaired, hget, fun t ht => ?_⟩
    rcases hm.stocks.strings t b ht with ht | ⟨-, ht⟩
    · exact absurd (σ.strings_issued t b ht) hbase
    · rw [hget] at ht
      simpa [Ground.text, eq_comm] using ht

end Mirror

/-! ## Searches -/

/-- The lookups end in paired objects. -/
inductive Lookup.Match (R : Pairing) : Lookup → Lookup → Prop
  | missing : Match R .missing .missing
  | found {holder holder' : ObjectId} {value value' : Value} (h : R.pairs holder holder')
      (hv : Value.Match R value value') : Match R (.found holder value) (.found holder' value')
  | ambiguous (first second first' second' : ObjectId) : Match R (.ambiguous first second) (.ambiguous first' second')

theorem Lookup.Match.ne_found {R : Pairing} {result result' : Lookup} (h : Lookup.Match R result result')
    (hresult : ∀ first found, result ≠ .found first found) (first : ObjectId) (found : Value) :
    result' ≠ .found first found := by
  cases h with
  | missing => exact nofun
  | found h hv => exact absurd rfl (hresult _ _)
  | ambiguous => exact nofun

theorem rel_enqueue {P : ObjectId → ObjectId → Prop} (hunique : Relator.BiUnique P)
    {visited visited' queue queue' ids ids' : List ObjectId} (hvisited : List.Forall₂ P visited visited')
    (hqueue : List.Forall₂ P queue queue') (hids : List.Forall₂ P ids ids') :
    List.Forall₂ P (Heap.enqueue visited queue ids) (Heap.enqueue visited' queue' ids') := by
  induction hids generalizing queue queue' with
  | nil => exact hqueue
  | @cons id id' ids ids' hid _ ih =>
    have hmem : (id ∈ visited ∨ id ∈ queue) ↔ (id' ∈ visited' ∨ id' ∈ queue') :=
      or_congr (List.rel_mem hunique hid hvisited) (List.rel_mem hunique hid hqueue)
    unfold Heap.enqueue
    by_cases hseen : id ∈ visited ∨ id ∈ queue
    · rw [if_pos hseen, if_pos (hmem.1 hseen)]
      exact ih hqueue
    · rw [if_neg hseen, if_neg fun h => hseen (hmem.2 h)]
      exact ih (List.rel_append hqueue (.cons hid .nil))

namespace Mirror

variable {σ : Setting} {R : Pairing} {h₀ h : Heap} {a b : ObjectId}

theorem startOf (hm : Mirror σ R h₀ h) {value value' : Value} (hv : Value.Match R value value') :
    R.pairs (σ.roots.startOf value) (σ.roots.startOf value') := by
  cases hv with
  | fixnum n => exact hm.root (by simp [Roots.ids, Roots.startOf, Value.toId?])
  | ref h => exact h

theorem neighbours (hm : Mirror σ R h₀ h) (hab : R.pairs a b) :
    List.Forall₂ R.pairs (h₀.neighbours σ.roots a) (h.neighbours σ.roots b) :=
  List.rel_map (fun _ _ hv => hm.startOf hv) (hm.object hab).edges

/-- A search passes paired objects in both heaps and ends in paired ones. -/
theorem walkFrom (hm : Mirror σ R h₀ h) {defines : Object → Option Value}
    (hdefines : ∀ object object', Object.Match σ R object object' →
      Option.Rel (Value.Match R) (defines object) (defines object'))
    {queue queue' visited visited' : List ObjectId} {result result' : Lookup}
    (hqueue : List.Forall₂ R.pairs queue queue') (hvisited : List.Forall₂ R.pairs visited visited')
    (hresult : Lookup.Match R result result') :
    Lookup.Match R (h₀.walkFrom σ.roots defines queue visited result).result
      (h.walkFrom σ.roots defines queue' visited' result').result := by
  fun_induction Heap.walkFrom h₀ σ.roots defines queue visited result generalizing queue' visited' result' with
  | case1 visited result =>
    cases hqueue
    rw [Heap.walkFrom]
    exact hresult
  | case2 next queue visited val first value hdef =>
    obtain ⟨next', rest', hnext, -, rfl⟩ := List.forall₂_cons_left_iff.1 hqueue
    have hdef' := hdefines _ _ (hm.object hnext)
    rw [hdef] at hdef'
    cases hresult with
    | found hfirst hv =>
      cases hval : defines (h.object next') <;> rw [hval] at hdef'
      · cases hdef'
      · rw [Heap.walkFrom_cons_of_second hval]
        exact .ambiguous _ _ _ _
  | case3 next queue visited result value hdef hnew ih =>
    obtain ⟨next', rest', hnext, hrest, rfl⟩ := List.forall₂_cons_left_iff.1 hqueue
    have hdef' := hdefines _ _ (hm.object hnext)
    rw [hdef] at hdef'
    cases hval : defines (h.object next') <;> rw [hval] at hdef' <;> cases hdef'
    rename_i hv
    rw [Heap.walkFrom_cons_of_some hval (hresult.ne_found hnew)]
    exact ih hrest (.cons hnext hvisited) (.found hnext hv)
  | case4 next queue visited result hdef ih =>
    obtain ⟨next', rest', hnext, hrest, rfl⟩ := List.forall₂_cons_left_iff.1 hqueue
    have hdef' := hdefines _ _ (hm.object hnext)
    rw [hdef] at hdef'
    cases hval : defines (h.object next') <;> rw [hval] at hdef' <;> cases hdef'
    rw [Heap.walkFrom_cons_of_none hval]
    exact ih (rel_enqueue hm.unique (.cons hnext hvisited) hrest (hm.neighbours hnext)) (.cons hnext hvisited) hresult

theorem parentSlotLookup (hm : Mirror σ R h₀ h) (hab : R.pairs a b) (name : String) :
    Lookup.Match R (h₀.parentSlotLookup σ.roots a name) (h.parentSlotLookup σ.roots b name) :=
  hm.walkFrom (fun _ _ ho => ho.parent? name) (.cons hab .nil) .nil .missing

theorem nearSlot? (hm : Mirror σ R h₀ h) (hab : R.pairs a b) (name : String) :
    Option.Rel (fun near near' => R.pairs near.1 near'.1 ∧ Value.Match R near.2 near'.2)
      (h₀.nearSlot? σ.roots a name) (h.nearSlot? σ.roots b name) := by
  have hobject := hm.object hab
  have hslot := hobject.slot? name
  have hscope := hobject.scope
  unfold Heap.nearSlot?
  generalize (h₀.object a).slot? name = slot at hslot
  generalize (h.object b).slot? name = slot' at hslot
  cases hslot with
  | some hv => exact .some ⟨hab, hv⟩
  | none =>
    generalize (h₀.object a).scope = scope at hscope
    generalize (h.object b).scope = scope' at hscope
    cases hscope with
    | none => exact .none
    | some hv =>
      have hstart := hm.startOf hv
      have hslot := (hm.object hstart).slot? name
      simp only [Option.bind_eq_bind, Option.bind_some, Option.pure_def]
      generalize (h₀.object (σ.roots.startOf _)).slot? name = slot at hslot
      generalize (h.object (σ.roots.startOf _)).slot? name = slot' at hslot
      cases hslot with
      | some hv => exact .some ⟨hstart, hv⟩
      | none => exact .none

theorem plainLookup (hm : Mirror σ R h₀ h) (hab : R.pairs a b) (name : String) :
    Lookup.Match R (h₀.plainLookup σ.roots a name) (h.plainLookup σ.roots b name) := by
  have hnear := hm.nearSlot? hab name
  unfold Heap.plainLookup
  generalize h₀.nearSlot? σ.roots a name = near at hnear
  generalize h.nearSlot? σ.roots b name = near' at hnear
  cases hnear with
  | some h => exact .found h.1 h.2
  | none => exact hm.walkFrom (fun _ _ ho => ho.slot? name) (.cons hab .nil) .nil .missing

end Mirror

end ProtoVm
