import ProtoVm.Machine.Step

/-!
# Operations that can fail

What holds after an operation, whether it ends with a result or with a fault, and how this follows
from what holds after its parts.
-/

namespace ProtoVm

/-- From `s` the operation gives a result with `Q` or fails with `E`. -/
def Ends {ε σ α : Type} (x : EStateM ε σ α) (s : σ) (Q : α → σ → Prop) (E : ε → σ → Prop) : Prop :=
  match x s with
  | .ok a s' => Q a s'
  | .error e s' => E e s'

section

variable {ε σ α β : Type} {x : EStateM ε σ α} {s : σ} {Q Q' : α → σ → Prop} {E E' : ε → σ → Prop}

theorem Ends.mono (h : Ends x s Q E) (hok : ∀ a s', Q a s' → Q' a s')
    (herror : ∀ e s', E e s' → E' e s') : Ends x s Q' E' := by
  unfold Ends at h ⊢
  split at h
  · exact hok _ _ h
  · exact herror _ _ h

theorem Ends.of_ok {a : α} {s' : σ} (h : Ends x s Q E) (hx : x s = .ok a s') : Q a s' := by
  unfold Ends at h
  rwa [hx] at h

theorem Ends.of_error {e : ε} {s' : σ} (h : Ends x s Q E) (hx : x s = .error e s') : E e s' := by
  unfold Ends at h
  rwa [hx] at h

theorem ends_iff : Ends x s Q E ↔
    (∀ a s', x s = .ok a s' → Q a s') ∧ ∀ e s', x s = .error e s' → E e s' := by
  unfold Ends
  cases x s <;> simp

@[simp] theorem ends_pure {a : α} : Ends (pure a) s Q E ↔ Q a s := .rfl

@[simp] theorem ends_throw {e : ε} : Ends (throw e) s Q E ↔ E e s := .rfl

@[simp] theorem ends_bind {f : α → EStateM ε σ β} {Q : β → σ → Prop} :
    Ends (x >>= f) s Q E ↔ Ends x s (fun a s' => Ends (f a) s' Q E) E := by
  unfold Ends
  simp only [bind, EStateM.bind]
  cases x s <;> rfl

@[simp] theorem ends_map {f : α → β} {Q : β → σ → Prop} :
    Ends (f <$> x) s Q E ↔ Ends x s (fun a s' => Q (f a) s') E := by
  unfold Ends
  simp only [Functor.map, EStateM.map]
  cases x s <;> rfl

@[simp] theorem ends_get {Q : σ → σ → Prop} : Ends get s Q E ↔ Q s s := .rfl

@[simp] theorem ends_modify {f : σ → σ} {Q : PUnit → σ → Prop} : Ends (modify f) s Q E ↔ Q ⟨⟩ (f s) := .rfl

@[simp] theorem ends_modifyGet {f : σ → α × σ} : Ends (modifyGet f) s Q E ↔ Q (f s).1 (f s).2 := .rfl

theorem get_bind (f : σ → EStateM ε σ α) (s : σ) : (get >>= f) s = f s s := rfl

theorem bind_of_ok {f : α → EStateM ε σ β} {a : α} {s' : σ} (h : x s = .ok a s') :
    (x >>= f) s = f a s' := by
  simp only [bind, EStateM.bind, h]

theorem bind_of_error {f : α → EStateM ε σ β} {e : ε} {s' : σ} (h : x s = .error e s') :
    (x >>= f) s = .error e s' := by
  simp only [bind, EStateM.bind, h]

end

theorem ends_liftExcept {σ α : Type} {x : Except Fault α} {s : σ} {Q : α → σ → Prop}
    {E : Fault → σ → Prop} :
    Ends (liftExcept x : EStateM Fault σ α) s Q E ↔
      (∀ a, x = .ok a → Q a s) ∧ ∀ e, x = .error e → E e s := by
  cases x with
  | ok a => simp [liftExcept]
  | error e => simp [liftExcept]

end ProtoVm
