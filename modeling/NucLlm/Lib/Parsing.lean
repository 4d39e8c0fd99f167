import NucLlm.Lib.Exec
import Mathlib.Data.List.Basic

/-!
# Predictive parsers over a token stream

`Yields` is a logic of parsers that speaks of tokens only: whatever else is in
the state, a parser that succeeds on these tokens returns and leaves what the
postcondition admits.  Languages relate token lists to trees.  A parser is
sound for a language if what it consumes derives what it returns, and
determined by it if, on a list that derives a tree, it can return nothing but
that tree.  The two loops of a recursive descent parser, over left associative
operators and over separated items, come with the languages they parse.
-/

namespace NucLlm.Parsing

variable {σ τ ε α β : Type}

/-- The tokens a state has left, and how one of them is consumed. -/
structure TokenStream (σ τ : Type) where
  toks : σ → List τ
  advance : σ → σ
  toks_advance : ∀ s, toks (advance s) = (toks s).tail

/-! ## Parsers and their tokens -/

section Yields

variable (S : TokenStream σ τ)

def Yields (m : Exec ε σ α) (ts : List τ) (Q : α → List τ → Prop) : Prop :=
  ∀ s, S.toks s = ts → m.wp (fun a s' ↦ Q a (S.toks s')) (fun _ _ ↦ True) s

variable {S} {ts : List τ} {Q : α → List τ → Prop}

theorem Yields.pure {a : α} (h : Q a ts) : Yields S (pure a : Exec ε σ α) ts Q := by
  rintro s rfl
  exact h

theorem Yields.fail {e : ε} : Yields S (Exec.fail e : Exec ε σ α) ts Q := fun _ _ ↦ trivial

theorem Yields.bind {P : α → List τ → Prop} {Q : β → List τ → Prop} {m : Exec ε σ α}
    {f : α → Exec ε σ β} (hm : Yields S m ts P) (hf : ∀ a ts', P a ts' → Yields S (f a) ts' Q) :
    Yields S (m >>= f) ts Q := fun s hs ↦
  Exec.wp_bind_of (hm s hs) fun a s' ha ↦ hf a _ ha s' rfl

theorem Yields.mono {Q' : α → List τ → Prop} {m : Exec ε σ α} (h : Yields S m ts Q)
    (hQ : ∀ a ts', Q a ts' → Q' a ts') : Yields S m ts Q' := fun s hs ↦
  Exec.wp_mono (h s hs) (fun a _ ↦ hQ a _) fun _ _ h ↦ h

theorem Yields.get {f : σ → Exec ε σ α} (h : ∀ s, S.toks s = ts → Yields S (f s) ts Q) :
    Yields S (Exec.get >>= f) ts Q := by
  intro s hs
  rw [Exec.wp_bind, Exec.wp_get]
  exact h s hs s hs

/-- A change of the state that leaves the tokens alone. -/
theorem Yields.modify {f : σ → σ} {k : Unit → Exec ε σ α}
    (hf : ∀ s, S.toks (f s) = S.toks s) (h : Yields S (k ()) ts Q) :
    Yields S (Exec.modify f >>= k) ts Q := by
  rintro s rfl
  rw [Exec.wp_bind, Exec.wp_modify]
  exact h (f s) (hf s)

theorem Yields.advance {k : Unit → Exec ε σ α} (h : Yields S (k ()) ts.tail Q) :
    Yields S (Exec.modify S.advance >>= k) ts Q := by
  rintro s rfl
  rw [Exec.wp_bind, Exec.wp_modify]
  exact h (S.advance s) (S.toks_advance s)

theorem Yields.tryFinally {m : Exec ε σ α} {f : σ → σ} (hf : ∀ s, S.toks (f s) = S.toks s)
    (h : Yields S m ts Q) : Yields S (Exec.tryFinally m f) ts Q := by
  intro s hs
  rw [Exec.wp_tryFinally]
  refine Exec.wp_mono (h s hs) ?_ fun _ _ h ↦ h
  intro a s' ha
  rwa [hf]

end Yields

/-! ## Loops -/

section Loops

variable (S : TokenStream σ τ) (stuck : ε)

/-- Operands joined by left associative operators, after the first. -/
def leftLoop (operand : Exec ε σ α) (op : τ → Option (α → α → α)) : ℕ → α → Exec ε σ α
  | 0, _ => Exec.fail stuck
  | k + 1, left => do
      let s ← Exec.get
      match (S.toks s).head?.bind op with
      | none => pure left
      | some f => do
          Exec.modify S.advance
          let right ← operand
          leftLoop operand op k (f left right)

/-- Items up to the first that no comma follows; an item sees those before it. -/
def sepLoop (item : List α → Exec ε σ α) (comma : τ → Bool) : ℕ → List α → Exec ε σ (List α)
  | 0, _ => Exec.fail stuck
  | k + 1, done => do
      let a ← item done
      let s ← Exec.get
      if (S.toks s).head?.any comma then do
        Exec.modify S.advance
        sepLoop item comma k (done ++ [a])
      else pure (done ++ [a])

variable {S} {stuck} {P : α → Prop}

theorem leftLoop_returns {operand : Exec ε σ α} {op : τ → Option (α → α → α)}
    (hoperand : operand.Returns P) (hop : ∀ t f a b, op t = some f → P a → P b → P (f a b))
    (k : ℕ) :
    ∀ left, P left → (leftLoop S stuck operand op k left).Returns P := by
  induction k with
  | zero => exact fun _ _ ↦ Exec.gives_fail trivial
  | succ k ih =>
      intro left hleft
      apply Exec.Returns.after
      intro s
      cases hs : (S.toks s).head?.bind op with
      | none => exact Exec.gives_pure hleft
      | some f =>
          obtain ⟨t, _, hf⟩ := Option.bind_eq_some_iff.mp hs
          apply Exec.Returns.after
          intro _
          apply hoperand.bind
          intro right hright
          exact ih _ (hop t f left right hf hleft hright)

theorem sepLoop_returns {item : List α → Exec ε σ α} {comma : τ → Bool}
    (hitem : ∀ done, (item done).Returns P) (k : ℕ) :
    ∀ done, (∀ a ∈ done, P a) →
      (sepLoop S stuck item comma k done).Returns fun as ↦ ∀ a ∈ as, P a := by
  induction k with
  | zero => exact fun _ _ ↦ Exec.gives_fail trivial
  | succ k ih =>
      intro done hdone
      apply (hitem done).bind
      intro a ha
      have hall : ∀ b ∈ done ++ [a], P b := by
        intro b hb
        rcases List.mem_append.mp hb with hb | hb
        · exact hdone b hb
        · exact List.mem_singleton.mp hb ▸ ha
      apply Exec.Returns.after
      intro s
      split
      · apply Exec.Returns.after
        intro _
        exact ih _ hall
      · exact Exec.gives_pure hall

end Loops

/-! ## Languages -/

/-- A language: which token lists derive which trees. -/
abbrev Lang (τ β : Type) := List τ → β → Prop

/-- An operand with any number of suffixes, each applied to what is before it. -/
inductive Chain (operand : Lang τ α) (suffix : Lang τ (α → α)) : Lang τ α where
  | operand {ts : List τ} {a : α} (h : operand ts a) : Chain operand suffix ts a
  | extend {ts ts' : List τ} {a : α} {f : α → α} (h : Chain operand suffix ts a)
      (hsuffix : suffix ts' f) : Chain operand suffix (ts ++ ts') (f a)

/-- A chain read from the left, after its operand. -/
inductive ChainTail (suffix : Lang τ (α → α)) : α → Lang τ α where
  | done (a : α) : ChainTail suffix a [] a
  | more {ts ts' : List τ} {a b : α} {f : α → α} (hsuffix : suffix ts f)
      (hrest : ChainTail suffix (f a) ts' b) : ChainTail suffix a (ts ++ ts') b

/-- An infix operator with its right operand. -/
inductive Infix (operand : Lang τ α) (op : τ → Option (α → α → α)) : Lang τ (α → α) where
  | mk {t : τ} {ts : List τ} {f : α → α → α} {right : α} (hop : op t = some f)
      (hright : operand ts right) : Infix operand op (t :: ts) fun left ↦ f left right

/-- Left associative operators over operands. -/
abbrev LeftAssoc (operand : Lang τ α) (op : τ → Option (α → α → α)) : Lang τ α :=
  Chain operand (Infix operand op)

/-- One item or more, with a comma between any two. -/
inductive SepBy (item : Lang τ α) (comma : τ → Bool) : Lang τ (List α) where
  | single {ts : List τ} {a : α} (h : item ts a) : SepBy item comma ts [a]
  | cons {ts ts' : List τ} {t : τ} {a : α} {as : List α} (h : item ts a) (hcomma : comma t = true)
      (hrest : SepBy item comma ts' as) : SepBy item comma (ts ++ t :: ts') (a :: as)

theorem ChainTail.snoc {suffix : Lang τ (α → α)} {a b : α} {f : α → α} {ts ts' : List τ}
    (h : ChainTail suffix a ts b) (hsuffix : suffix ts' f) :
    ChainTail suffix a (ts ++ ts') (f b) := by
  induction h with
  | done a =>
      have hmore := ChainTail.more hsuffix (.done (f a))
      rwa [List.append_nil] at hmore
  | more hsuffix' _ ih =>
      rw [List.append_assoc]
      exact .more hsuffix' ih

theorem Chain.unroll {operand : Lang τ α} {suffix : Lang τ (α → α)} {ts : List τ} {b : α}
    (h : Chain operand suffix ts b) :
    ∃ ts₁ ts₂ a, ts = ts₁ ++ ts₂ ∧ operand ts₁ a ∧ ChainTail suffix a ts₂ b := by
  induction h with
  | @operand ts a h => exact ⟨ts, [], a, (List.append_nil ts).symm, h, .done a⟩
  | extend _ hsuffix ih =>
      obtain ⟨ts₁, ts₂, a, rfl, ha, htail⟩ := ih
      exact ⟨ts₁, _, a, List.append_assoc .., ha, htail.snoc hsuffix⟩

/-- A chain begins with a token that its operand begins with. -/
theorem Chain.head {operand : Lang τ α} {suffix : Lang τ (α → α)} {p : τ → Prop}
    (hoperand : ∀ {ts a}, operand ts a → ∃ t ts', ts = t :: ts' ∧ p t) {ts : List τ} {a : α}
    (h : Chain operand suffix ts a) : ∃ t ts', ts = t :: ts' ∧ p t := by
  induction h with
  | operand h => exact hoperand h
  | extend _ _ ih =>
      obtain ⟨t, ts', rfl, ht⟩ := ih
      exact ⟨t, _, rfl, ht⟩

/-! ## Soundness -/

section Sound

variable (S : TokenStream σ τ)

/-- What the parser consumes derives what it returns, seen through `view`. -/
def Sound (view : α → β) (p : Exec ε σ α) (L : Lang τ β) : Prop :=
  ∀ ts, Yields S p ts fun a rest ↦ ∃ used, ts = used ++ rest ∧ L used (view a)

variable {S} {stuck : ε}

theorem leftLoop_sound {view : α → α} {operand : Exec ε σ α} {L : Lang τ α}
    {op : τ → Option (α → α → α)} (hoperand : Sound S view operand L)
    (hview : ∀ t f a b, op t = some f → view (f a b) = f (view a) (view b)) (k : ℕ) :
    ∀ left before ts, LeftAssoc L op before (view left) →
      Yields S (leftLoop S stuck operand op k left) ts fun a rest ↦
        ∃ used, ts = used ++ rest ∧ LeftAssoc L op (before ++ used) (view a) := by
  induction k with
  | zero => exact fun _ _ _ _ ↦ Yields.fail
  | succ k ih =>
      intro left before ts hleft
      refine Yields.get fun s hs ↦ ?_
      rw [hs]
      cases hop : ts.head?.bind op with
      | none => exact Yields.pure ⟨[], rfl, by rwa [List.append_nil]⟩
      | some f =>
          obtain ⟨t, ht, hf⟩ := Option.bind_eq_some_iff.mp hop
          obtain ⟨ts, rfl⟩ := List.head?_eq_some_iff.mp ht
          refine Yields.advance ?_
          refine Yields.bind (hoperand ts) ?_
          rintro right rest ⟨used, rfl, hright⟩
          have hnext : LeftAssoc L op (before ++ t :: used) (view (f left right)) := by
            rw [hview t f left right hf]
            exact Chain.extend (f := fun left ↦ f left (view right)) hleft (.mk hf hright)
          refine Yields.mono (ih _ _ rest hnext) ?_
          rintro a rest' ⟨used', rfl, ha⟩
          refine ⟨t :: (used ++ used'), by simp, ?_⟩
          rwa [List.append_assoc, List.cons_append] at ha

/-- The items derive, and what each of them adds to keeps `I`. -/
theorem sepLoop_sound {view : α → β} {item : List α → Exec ε σ α} {L : Lang τ β}
    {comma : τ → Bool} {I : List α → Prop}
    (hitem : ∀ done ts, I done → Yields S (item done) ts fun a rest ↦
      (∃ used, ts = used ++ rest ∧ L used (view a)) ∧ I (done ++ [a])) (k : ℕ) :
    ∀ done ts, I done → Yields S (sepLoop S stuck item comma k done) ts fun as rest ↦
      ∃ used new, ts = used ++ rest ∧ as = done ++ new ∧ SepBy L comma used (new.map view) ∧
        I as := by
  induction k with
  | zero => exact fun _ _ _ ↦ Yields.fail
  | succ k ih =>
      intro done ts hdone
      refine Yields.bind (hitem done ts hdone) ?_
      rintro a rest ⟨⟨used, rfl, ha⟩, hadd⟩
      refine Yields.get fun s hs ↦ ?_
      rw [hs]
      cases hcomma : rest.head?.any comma with
      | false => exact Yields.pure ⟨used, [a], rfl, rfl, .single ha, hadd⟩
      | true =>
          obtain ⟨t, ht, hcomma⟩ := (Option.any_eq_true ..).mp hcomma
          obtain ⟨rest, rfl⟩ := List.head?_eq_some_iff.mp ht
          refine Yields.advance ?_
          refine Yields.mono (ih (done ++ [a]) rest hadd) ?_
          rintro as rest' ⟨used', new, rfl, rfl, hnew, has⟩
          exact ⟨used ++ t :: used', a :: new, by simp, by simp, .cons ha hcomma hnew, has⟩

end Sound

/-! ## Determinism -/

section Determined

variable (S : TokenStream σ τ)

/-- On a list that derives `b`, followed by what `follow` admits, the parser
returns nothing but `b` and leaves the rest. -/
def Determined (view : α → β) (p : Exec ε σ α) (L : Lang τ β) (follow : List τ → Prop) : Prop :=
  ∀ ts rest b, L ts b → follow rest →
    Yields S p (ts ++ rest) fun a rest' ↦ view a = b ∧ rest' = rest

variable {S} {stuck : ε}

/-- No operator of the level stands at the head. -/
def NoOp (op : τ → Option (α → α → α)) (rest : List τ) : Prop := rest.head?.bind op = none

theorem leftLoop_determined {view : α → α} {operand : Exec ε σ α} {L : Lang τ α}
    {op : τ → Option (α → α → α)} {follow : List τ → Prop}
    (hoperand : Determined S view operand L follow)
    (hview : ∀ t f a b, op t = some f → view (f a b) = f (view a) (view b))
    (hfollow : ∀ t ts, op t ≠ none → follow (t :: ts)) {rest : List τ} (hrest : follow rest)
    (hnoop : NoOp op rest) (k : ℕ) :
    ∀ left ts b, ChainTail (Infix L op) (view left) ts b →
      Yields S (leftLoop S stuck operand op k left) (ts ++ rest) fun a rest' ↦
        view a = b ∧ rest' = rest := by
  induction k with
  | zero => exact fun _ _ _ _ ↦ Yields.fail
  | succ k ih =>
      intro left ts b htail
      refine Yields.get fun s hs ↦ ?_
      rw [hs]
      generalize hleft : view left = left' at htail
      cases htail with
      | done =>
          rw [List.nil_append, hnoop]
          exact Yields.pure ⟨hleft, rfl⟩
      | @more _ ts' _ _ _ hsuffix htail =>
          cases hsuffix with
          | @mk t ts f right hop hright =>
              rw [List.append_assoc, List.cons_append, List.head?_cons, Option.bind_some, hop]
              have hnext : follow (ts' ++ rest) := by
                cases htail with
                | done => exact hrest
                | more hsuffix' _ =>
                    cases hsuffix' with
                    | mk hop' _ => exact hfollow _ _ (by simp [hop'])
              refine Yields.advance ?_
              refine Yields.bind (hoperand ts (ts' ++ rest) right hright hnext) ?_
              rintro a _ ⟨rfl, rfl⟩
              refine ih (f left a) ts' b ?_
              rw [hview t f left a hop, hleft]
              exact htail

theorem leftAssoc_determined {view : α → α} {operand : Exec ε σ α} {L : Lang τ α}
    {op : τ → Option (α → α → α)} {follow : List τ → Prop}
    (hoperand : Determined S view operand L follow)
    (hview : ∀ t f a b, op t = some f → view (f a b) = f (view a) (view b))
    (hfollow : ∀ t ts, op t ≠ none → follow (t :: ts)) (k : ℕ) :
    Determined S view (operand >>= leftLoop S stuck operand op k) (LeftAssoc L op)
      fun rest ↦ follow rest ∧ NoOp op rest := by
  rintro ts rest b h ⟨hrest, hnoop⟩
  obtain ⟨ts₁, ts₂, a, rfl, ha, htail⟩ := h.unroll
  have hnext : follow (ts₂ ++ rest) := by
    cases htail with
    | done => exact hrest
    | more hsuffix _ =>
        cases hsuffix with
        | mk hop _ => exact hfollow _ _ (by simp [hop])
  rw [List.append_assoc]
  refine Yields.bind (hoperand ts₁ (ts₂ ++ rest) a ha hnext) ?_
  rintro left _ ⟨rfl, rfl⟩
  exact leftLoop_determined hoperand hview hfollow hrest hnoop k left ts₂ b htail

theorem sepLoop_determined {view : α → β} {item : List α → Exec ε σ α} {L : Lang τ β}
    {comma : τ → Bool} {follow : List τ → Prop}
    (hitem : ∀ done, Determined S view (item done) L follow)
    (hfollow : ∀ t ts, comma t = true → follow (t :: ts)) {rest : List τ} (hrest : follow rest)
    (hcomma : rest.head?.any comma = false) (k : ℕ) :
    ∀ done ts bs, SepBy L comma ts bs →
      Yields S (sepLoop S stuck item comma k done) (ts ++ rest) fun as rest' ↦
        as.map view = done.map view ++ bs ∧ rest' = rest := by
  induction k with
  | zero => exact fun _ _ _ _ ↦ Yields.fail
  | succ k ih =>
      intro done ts bs hsep
      cases hsep with
      | @single ts a h =>
          refine Yields.bind (hitem done ts rest a h hrest) ?_
          rintro a _ ⟨rfl, rfl⟩
          refine Yields.get fun s hs ↦ ?_
          rw [hs, hcomma]
          exact Yields.pure ⟨by simp, rfl⟩
      | @cons ts ts' t a as h hc hsep =>
          rw [List.append_assoc, List.cons_append]
          refine Yields.bind (hitem done ts _ a h (hfollow t _ hc)) ?_
          rintro a _ ⟨rfl, rfl⟩
          refine Yields.get fun s hs ↦ ?_
          rw [hs, List.head?_cons, Option.any_some, hc]
          refine Yields.advance ?_
          refine Yields.mono (ih (done ++ [a]) ts' as hsep) ?_
          rintro as' _ ⟨has, rfl⟩
          exact ⟨by simp [has], rfl⟩

end Determined

end NucLlm.Parsing
