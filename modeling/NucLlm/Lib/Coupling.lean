import NucLlm.Lib.Exec

/-!
# Two computations side by side

The computation on the left may be cut short, the one on the right never is.
Where both end, they end alike; where the left one is cut, the right one goes
on from a state that matches the one left behind.
-/

namespace NucLlm.Exec

variable {ε σ α β : Type}

/-- What a coupling is about: `rel` relates the states of both sides, `grows`
says how the right one moves on, `cut` which failures cut the left one, and
`admits` which final states of the right one are considered. -/
structure Coupling (ε σ : Type) where
  rel : σ → σ → Prop
  grows : σ → σ → Prop
  cut : ε → Prop
  admits : σ → Prop
  refl : ∀ s, grows s s
  trans : ∀ {s t u}, grows s t → grows t u → grows s u
  admits_of : ∀ {s t}, grows s t → admits t → admits s

variable (C : Coupling ε σ)

/-- How two outcomes go together. -/
def Coupling.Outcome (Q : α → α → σ → σ → Prop) :
    Except ε α × σ → Except ε α × σ → Prop
  | (.ok a, s₁), (r, s₂) => ∃ b, r = .ok b ∧ Q a b s₁ s₂
  | (.error e, s₁), (r, s₂) =>
      (C.cut e ∧ ∃ s, C.rel s₁ s ∧ C.grows s s₂) ∨ (r = .error e ∧ C.rel s₁ s₂)

/-- From states related by `P`, both sides end with values and states related
by `Q`. -/
structure Coupled (P : σ → σ → Prop) (m₁ m₂ : Exec ε σ α) (Q : α → α → σ → σ → Prop) :
    Prop where
  grows : ∀ s, C.grows s (m₂ s).2
  outcome : ∀ s₁ s₂, P s₁ s₂ → C.admits (m₂ s₂).2 → C.Outcome Q (m₁ s₁) (m₂ s₂)

/-- Equal values in related states. -/
def Coupling.Same (a b : α) (s₁ s₂ : σ) : Prop := a = b ∧ C.rel s₁ s₂

variable {C} {P : σ → σ → Prop} {Q : α → α → σ → σ → Prop} {m₁ m₂ : Exec ε σ α}

theorem coupled_pure {a b : α} (h : ∀ s₁ s₂, P s₁ s₂ → Q a b s₁ s₂) :
    Coupled C P (pure a) (pure b) Q where
  grows := C.refl
  outcome := fun s₁ s₂ hP _ ↦ ⟨b, rfl, h s₁ s₂ hP⟩

theorem coupled_same (a : α) : Coupled C C.rel (pure a) (pure a) C.Same :=
  coupled_pure fun _ _ h ↦ ⟨rfl, h⟩

theorem coupled_fail (e : ε) : Coupled C C.rel (fail e) (fail e) Q where
  grows := C.refl
  outcome := fun _ _ h _ ↦ Or.inr ⟨rfl, h⟩

theorem coupled_get {Q : σ → σ → σ → σ → Prop} (h : ∀ s₁ s₂, P s₁ s₂ → Q s₁ s₂ s₁ s₂) :
    Coupled C P get get Q where
  grows := C.refl
  outcome := fun s₁ s₂ hP _ ↦ ⟨s₂, rfl, h s₁ s₂ hP⟩

theorem coupled_ofOption (e : ε) (o : Option α) :
    Coupled C C.rel (ofOption e o) (ofOption e o) C.Same := by
  cases o with
  | none => exact coupled_fail e
  | some a => exact coupled_same a

theorem Coupled.bind {R : β → β → σ → σ → Prop} {f₁ f₂ : α → Exec ε σ β}
    (hm : Coupled C P m₁ m₂ Q) (hf : ∀ a b, Coupled C (Q a b) (f₁ a) (f₂ b) R) :
    Coupled C P (m₁ >>= f₁) (m₂ >>= f₂) R := by
  have hright : ∀ s, C.grows (m₂ s).2 ((m₂ >>= f₂) s).2 := by
    intro s
    change C.grows (m₂ s).2 (Exec.bind m₂ f₂ s).2
    unfold Exec.bind
    rcases m₂ s with ⟨_ | b, s'⟩
    · exact C.refl s'
    · exact (hf b b).grows s'
  constructor
  · exact fun s ↦ C.trans (hm.grows s) (hright s)
  · intro s₁ s₂ hP hadmits
    have houtcome := hm.outcome s₁ s₂ hP (C.admits_of (hright s₂) hadmits)
    have hgrows := hright s₂
    change C.admits (Exec.bind m₂ f₂ s₂).2 at hadmits
    change C.grows (m₂ s₂).2 (Exec.bind m₂ f₂ s₂).2 at hgrows
    change C.Outcome R (Exec.bind m₁ f₁ s₁) (Exec.bind m₂ f₂ s₂)
    unfold Exec.bind at hadmits hgrows ⊢
    generalize m₁ s₁ = r₁ at houtcome ⊢
    generalize m₂ s₂ = r₂ at houtcome hadmits hgrows ⊢
    obtain ⟨e | a, s₁'⟩ := r₁
    · obtain ⟨r, s₂'⟩ := r₂
      rcases houtcome with ⟨hcut, s, hrel, hs⟩ | ⟨rfl, hrel⟩
      · exact Or.inl ⟨hcut, s, hrel, C.trans hs hgrows⟩
      · exact Or.inr ⟨rfl, hrel⟩
    · obtain ⟨r, s₂'⟩ := r₂
      obtain ⟨b, rfl, hQ⟩ := houtcome
      exact (hf a b).outcome s₁' s₂' hQ hadmits

theorem Coupled.mono {P' : σ → σ → Prop} {Q' : α → α → σ → σ → Prop}
    (h : Coupled C P m₁ m₂ Q) (hP : ∀ s₁ s₂, P' s₁ s₂ → P s₁ s₂)
    (hQ : ∀ a b s₁ s₂, Q a b s₁ s₂ → Q' a b s₁ s₂) : Coupled C P' m₁ m₂ Q' where
  grows := h.grows
  outcome := by
    intro s₁ s₂ hP' hadmits
    have houtcome := h.outcome s₁ s₂ (hP s₁ s₂ hP') hadmits
    generalize m₁ s₁ = r₁ at houtcome ⊢
    generalize m₂ s₂ = r₂ at houtcome ⊢
    obtain ⟨e | a, s₁'⟩ := r₁
    · exact houtcome
    · obtain ⟨b, hr, hab⟩ := houtcome
      exact ⟨b, hr, hQ a b _ _ hab⟩

/-- A computation that hands on equal values. -/
theorem Coupled.bind_same {R : β → β → σ → σ → Prop} {f₁ f₂ : α → Exec ε σ β}
    (hm : Coupled C P m₁ m₂ C.Same) (hf : ∀ a, Coupled C C.rel (f₁ a) (f₂ a) R) :
    Coupled C P (m₁ >>= f₁) (m₂ >>= f₂) R := by
  refine hm.bind fun a b ↦ ⟨(hf b).grows, ?_⟩
  rintro s₁ s₂ ⟨rfl, hrel⟩ hadmits
  exact (hf a).outcome s₁ s₂ hrel hadmits

/-- A fact about the states that both computations are run from. -/
theorem coupled_of {p : Prop} (hgrows : ∀ s, C.grows s (m₂ s).2)
    (hP : ∀ s₁ s₂, P s₁ s₂ → C.admits s₂ → p) (h : p → Coupled C P m₁ m₂ Q) :
    Coupled C P m₁ m₂ Q where
  grows := hgrows
  outcome := by
    intro s₁ s₂ hs hadmits
    have hp := hP s₁ s₂ hs (C.admits_of (hgrows s₂) hadmits)
    exact (h hp).outcome s₁ s₂ hs hadmits

end NucLlm.Exec
