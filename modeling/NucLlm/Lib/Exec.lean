import Mathlib.Tactic.TypeStar

/-!
# Stateful computations that may fail

A computation returns an outcome and a state, and a failure keeps the state it
happened in.  `wp` is the condition under which the outcome and the final state
satisfy a postcondition, with one postcondition for success and one for
failure; its rules follow the way a computation is put together.
-/

namespace NucLlm

/-- A computation over states `σ` with failures `ε`. -/
def Exec (ε σ α : Type) := σ → Except ε α × σ

namespace Exec

variable {ε σ α β : Type}

protected def pure (a : α) : Exec ε σ α := fun s ↦ (.ok a, s)

protected def bind (m : Exec ε σ α) (f : α → Exec ε σ β) : Exec ε σ β := fun s ↦
  match m s with
  | (.ok a, s') => f a s'
  | (.error e, s') => (.error e, s')

instance : Monad (Exec ε σ) where
  pure := Exec.pure
  bind := Exec.bind

def fail (e : ε) : Exec ε σ α := fun s ↦ (.error e, s)

def get : Exec ε σ σ := fun s ↦ (.ok s, s)

def modify (f : σ → σ) : Exec ε σ Unit := fun s ↦ (.ok (), f s)

/-- The value of an option, or a failure. -/
def ofOption (e : ε) : Option α → Exec ε σ α
  | none => fail e
  | some a => pure a

/-- `try: m finally: ...`, where the last part only changes the state. -/
def tryFinally (m : Exec ε σ α) (f : σ → σ) : Exec ε σ α := fun s ↦
  match m s with
  | (outcome, s') => (outcome, f s')

theorem bind_assoc {γ : Type} (m : Exec ε σ α) (f : α → Exec ε σ β) (g : β → Exec ε σ γ) :
    m >>= f >>= g = m >>= fun a ↦ f a >>= g := by
  funext s
  change Exec.bind (Exec.bind m f) g s = Exec.bind m (fun a ↦ Exec.bind (f a) g) s
  unfold Exec.bind
  rcases m s with ⟨_ | _, _⟩ <;> rfl

theorem bind_ok {m : Exec ε σ α} {f : α → Exec ε σ β} {s s' : σ} {a : α}
    (h : m s = (.ok a, s')) : (m >>= f) s = f a s' := by
  change Exec.bind m f s = _
  unfold Exec.bind
  rw [h]

theorem bind_error {m : Exec ε σ α} {f : α → Exec ε σ β} {s s' : σ} {e : ε}
    (h : m s = (.error e, s')) : (m >>= f) s = (.error e, s') := by
  change Exec.bind m f s = _
  unfold Exec.bind
  rw [h]

theorem pure_bind (a : α) (f : α → Exec ε σ β) : pure a >>= f = f a := rfl

theorem bind_pure (m : Exec ε σ α) : m >>= pure = m := by
  funext s
  change Exec.bind m Exec.pure s = m s
  unfold Exec.bind
  rcases m s with ⟨_ | _, _⟩ <;> rfl

/-- The outcome and the final state satisfy the postcondition that applies. -/
def wp (m : Exec ε σ α) (Q : α → σ → Prop) (E : ε → σ → Prop) (s : σ) : Prop :=
  match m s with
  | (.ok a, s') => Q a s'
  | (.error e, s') => E e s'

variable {Q : α → σ → Prop} {E : ε → σ → Prop} {s : σ}

@[simp] theorem wp_pure (a : α) : wp (pure a : Exec ε σ α) Q E s ↔ Q a s := Iff.rfl

@[simp] theorem wp_fail (e : ε) : wp (fail e : Exec ε σ α) Q E s ↔ E e s := Iff.rfl

@[simp] theorem wp_get {Q : σ → σ → Prop} : wp (get : Exec ε σ σ) Q E s ↔ Q s s := Iff.rfl

@[simp] theorem wp_modify {Q : Unit → σ → Prop} (f : σ → σ) :
    wp (modify f : Exec ε σ Unit) Q E s ↔ Q () (f s) := Iff.rfl

@[simp] theorem wp_bind {Q : β → σ → Prop} (m : Exec ε σ α) (f : α → Exec ε σ β) :
    wp (m >>= f) Q E s ↔ wp m (fun a s' ↦ wp (f a) Q E s') E s := by
  change (match Exec.bind m f s with | (.ok a, s') => _ | (.error e, s') => _) ↔ _
  unfold wp Exec.bind
  rcases m s with ⟨_ | _, _⟩ <;> exact Iff.rfl

@[simp] theorem wp_tryFinally (m : Exec ε σ α) (f : σ → σ) :
    wp (tryFinally m f) Q E s ↔ wp m (fun a s' ↦ Q a (f s')) (fun e s' ↦ E e (f s')) s := by
  unfold wp tryFinally
  rcases m s with ⟨_ | _, _⟩ <;> exact Iff.rfl

@[simp] theorem wp_ofOption (e : ε) (o : Option α) :
    wp (ofOption e o : Exec ε σ α) Q E s ↔
      (o = none → E e s) ∧ ∀ a, o = some a → Q a s := by
  cases o with
  | none => simp [ofOption]
  | some a => simp [ofOption]

theorem wp_cases {m : Exec ε σ α} (h : wp m Q E s) :
    (∃ a s', m s = (.ok a, s') ∧ Q a s') ∨ ∃ e s', m s = (.error e, s') ∧ E e s' := by
  unfold wp at h
  split at h
  · rename_i a s' heq
    exact .inl ⟨a, s', heq, h⟩
  · rename_i e s' heq
    exact .inr ⟨e, s', heq, h⟩

theorem wp_mono {m : Exec ε σ α} {Q' : α → σ → Prop} {E' : ε → σ → Prop}
    (h : wp m Q E s) (hQ : ∀ a s', Q a s' → Q' a s') (hE : ∀ e s', E e s' → E' e s') :
    wp m Q' E' s := by
  unfold wp at *
  split at h
  · exact hQ _ _ h
  · exact hE _ _ h

theorem wp_and {m : Exec ε σ α} {Q' : α → σ → Prop} {E' : ε → σ → Prop}
    (h : wp m Q E s) (h' : wp m Q' E' s) :
    wp m (fun a s' ↦ Q a s' ∧ Q' a s') (fun e s' ↦ E e s' ∧ E' e s') s := by
  unfold wp at *
  split at h <;> simp_all

theorem wp_true (m : Exec ε σ α) : m.wp (fun _ _ ↦ True) (fun _ _ ↦ True) s := by
  unfold wp
  split <;> trivial

theorem wp_bind_of {P : α → σ → Prop} {Q : β → σ → Prop} {m : Exec ε σ α} {f : α → Exec ε σ β}
    (hm : wp m P E s) (hf : ∀ a s', P a s' → wp (f a) Q E s') : wp (m >>= f) Q E s := by
  rw [wp_bind]
  exact wp_mono hm hf fun _ _ h ↦ h

/-- A computation whose outcomes all lead to a state that satisfies `I`. -/
def Ensures (m : Exec ε σ α) (I : σ → Prop) (s : σ) : Prop :=
  wp m (fun _ ↦ I) (fun _ ↦ I) s

theorem Ensures.state {m : Exec ε σ α} {I : σ → Prop} (h : m.Ensures I s) : I (m s).2 := by
  unfold Ensures wp at h
  split at h <;> simp_all

/-- A computation that preserves `I`, whatever its outcome. -/
def Preserves (m : Exec ε σ α) (I : σ → Prop) : Prop :=
  ∀ s, I s → m.Ensures I s

theorem Preserves.wp {m : Exec ε σ α} {I : σ → Prop} (hm : m.Preserves I) (h : I s)
    (hE : ∀ e s', I s' → E e s') : m.wp (fun _ ↦ I) E s :=
  wp_mono (hm s h) (fun _ _ h' ↦ h') hE

theorem preserves_pure (a : α) (I : σ → Prop) : (pure a : Exec ε σ α).Preserves I :=
  fun _ h ↦ h

theorem preserves_fail (e : ε) (I : σ → Prop) : (fail e : Exec ε σ α).Preserves I :=
  fun _ h ↦ h

theorem preserves_get (I : σ → Prop) : (get : Exec ε σ σ).Preserves I :=
  fun _ h ↦ h

theorem preserves_ofOption (e : ε) (o : Option α) (I : σ → Prop) :
    (ofOption e o : Exec ε σ α).Preserves I := by
  cases o with
  | none => exact preserves_fail e I
  | some a => exact preserves_pure a I

theorem preserves_modify {f : σ → σ} {I : σ → Prop} (h : ∀ s, I s → I (f s)) :
    (modify f : Exec ε σ Unit).Preserves I :=
  h

theorem Preserves.bind {m : Exec ε σ α} {f : α → Exec ε σ β} {I : σ → Prop}
    (hm : m.Preserves I) (hf : ∀ a, (f a).Preserves I) : (m >>= f).Preserves I := by
  intro s h
  unfold Ensures
  rw [wp_bind]
  exact wp_mono (hm s h) (fun a s' h' ↦ hf a s' h') (fun _ _ h' ↦ h')

/-- A computation that succeeds in every state, with a value that satisfies `P`. -/
def Yields (m : Exec ε σ α) (P : α → Prop) : Prop :=
  ∀ s, m.wp (fun a _ ↦ P a) (fun _ _ ↦ False) s

variable {P : α → Prop}

theorem yields_pure {a : α} (h : P a) : (pure a : Exec ε σ α).Yields P :=
  fun _ ↦ h

theorem yields_ofOption (e : ε) {o : Option α} {a : α} (ho : o = some a) (h : P a) :
    (ofOption e o : Exec ε σ α).Yields P := by
  subst ho
  exact yields_pure h

theorem Yields.bind {m : Exec ε σ α} {f : α → Exec ε σ β} {R : β → Prop}
    (hm : m.Yields P) (hf : ∀ a, P a → (f a).Yields R) : (m >>= f).Yields R := by
  intro s
  rw [wp_bind]
  exact wp_mono (hm s) (fun a s' h ↦ hf a h s') fun _ _ h ↦ h

theorem Yields.mono {m : Exec ε σ α} {R : α → Prop} (hm : m.Yields P)
    (h : ∀ a, P a → R a) : m.Yields R :=
  fun s ↦ wp_mono (hm s) (fun a _ ha ↦ h a ha) fun _ _ h ↦ h

theorem Yields.eq_ok {m : Exec ε σ α} (hm : m.Yields P) (s : σ) :
    ∃ a s', m s = (.ok a, s') ∧ P a := by
  have h := hm s
  unfold Exec.wp at h
  split at h
  · rename_i a s' heq
    exact ⟨a, s', heq, h⟩
  · exact h.elim

/-- A computation that returns a value that satisfies `P` or fails with what satisfies `R`. -/
def Gives (m : Exec ε σ α) (P : α → Prop) (R : ε → Prop) : Prop :=
  ∀ s, m.wp (fun a _ ↦ P a) (fun e _ ↦ R e) s

/-- A computation that returns, if it does, a value that satisfies `P`. -/
abbrev Returns (m : Exec ε σ α) (P : α → Prop) : Prop :=
  m.Gives P fun _ ↦ True

variable {R : ε → Prop}

theorem gives_pure {a : α} (h : P a) : (pure a : Exec ε σ α).Gives P R :=
  fun _ ↦ h

theorem gives_fail {e : ε} (h : R e) : (fail e : Exec ε σ α).Gives P R :=
  fun _ ↦ h

theorem gives_get : (get : Exec ε σ σ).Gives (fun _ ↦ True) R :=
  fun _ ↦ trivial

theorem gives_modify (f : σ → σ) : (modify f : Exec ε σ Unit).Gives (fun _ ↦ True) R :=
  fun _ ↦ trivial

theorem Gives.bind {m : Exec ε σ α} {f : α → Exec ε σ β} {Q : β → Prop}
    (hm : m.Gives P R) (hf : ∀ a, P a → (f a).Gives Q R) : (m >>= f).Gives Q R := by
  intro s
  rw [wp_bind]
  exact wp_mono (hm s) (fun a s' h ↦ hf a h s') fun _ _ h ↦ h

theorem Gives.tryFinally {m : Exec ε σ α} {f : σ → σ} (hm : m.Gives P R) :
    (Exec.tryFinally m f).Gives P R := by
  intro s
  rw [wp_tryFinally]
  exact hm s

theorem Gives.mono {m : Exec ε σ α} {Q : α → Prop} (hm : m.Gives P R)
    (h : ∀ a, P a → Q a) : m.Gives Q R :=
  fun s ↦ wp_mono (hm s) (fun a _ ha ↦ h a ha) fun _ _ h ↦ h

/-- Less is said of the failures. -/
theorem Gives.weaken {m : Exec ε σ α} {S : ε → Prop} (hm : m.Gives P R)
    (h : ∀ e, R e → S e) : m.Gives P S :=
  fun s ↦ wp_mono (hm s) (fun _ _ ha ↦ ha) fun e _ he ↦ h e he

theorem Yields.gives {m : Exec ε σ α} (hm : m.Yields P) : m.Gives P R :=
  fun s ↦ wp_mono (hm s) (fun _ _ h ↦ h) fun _ _ h ↦ h.elim

theorem Gives.of_ok {m : Exec ε σ α} (hm : m.Gives P R) {s : σ} {a : α}
    (h : (m s).1 = .ok a) : P a := by
  have hs := hm s
  unfold Exec.wp at hs
  split at hs
  · rename_i b s' heq
    rw [heq] at h
    exact Except.ok.inj h ▸ hs
  · rename_i e s' heq
    rw [heq] at h
    contradiction

theorem Gives.of_error {m : Exec ε σ α} (hm : m.Gives P R) {s : σ} {e : ε}
    (h : (m s).1 = .error e) : R e := by
  have hs := hm s
  unfold Exec.wp at hs
  split at hs
  · rename_i a s' heq
    rw [heq] at h
    contradiction
  · rename_i e' s' heq
    rw [heq] at h
    exact Except.error.inj h ▸ hs

theorem returns_any (m : Exec ε σ α) : m.Returns fun _ ↦ True := by
  intro s
  unfold Exec.wp
  split <;> trivial

/-- Whatever comes before. -/
theorem Returns.after {m : Exec ε σ α} {f : α → Exec ε σ β} {Q : β → Prop}
    (hf : ∀ a, (f a).Returns Q) : (m >>= f).Returns Q :=
  (returns_any m).bind fun a _ ↦ hf a

end Exec

end NucLlm
