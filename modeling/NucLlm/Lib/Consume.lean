import NucLlm.Lib.Exec
import NucLlm.Lib.Loop

/-!
# Computations that consume

`Consumes` says that a computation keeps an invariant, how much of a measure of
the state its value stands for, and what holds of the state in which it fails.
A loop each of whose passes consumes something ends.
-/

namespace NucLlm.Exec

variable {ε σ ι α β : Type}

/-- The loop, for a bounded number of passes. -/
def loop (stuck : ε) (body : ι → Exec ε σ (Pass ι β)) : ℕ → ι → Exec ε σ β
  | 0, _ => fail stuck
  | n + 1, a => do
      match ← body a with
      | .again a' => loop stuck body n a'
      | .done b => pure b

/-- What an invariant, a condition for failures and a measure are. -/
structure Discipline (ε σ : Type) where
  invariant : σ → Prop
  failure : ε → σ → Prop
  measure : σ → ℕ

variable (D : Discipline ε σ)

/-- `Q` holds of the value and of an amount that has been consumed. -/
def Consumes (m : Exec ε σ α) (Q : α → ℕ → Prop) : Prop :=
  ∀ s, D.invariant s → m.wp
    (fun a s' ↦ D.invariant s' ∧ ∃ k, D.measure s' + k ≤ D.measure s ∧ Q a k) D.failure s

/-- The same for a value of no matter. -/
abbrev Reads (least : ℕ) (m : Exec ε σ α) : Prop := Consumes D m fun _ k ↦ least ≤ k

variable {D} {P : α → ℕ → Prop} {Q : β → ℕ → Prop}

theorem consumes_pure {a : α} (h : P a 0) : Consumes D (pure a) P :=
  fun _ hs ↦ ⟨hs, 0, le_rfl, h⟩

theorem consumes_fail {e : ε} (h : ∀ s, D.invariant s → D.failure e s) :
    Consumes D (fail e : Exec ε σ α) P :=
  fun s hs ↦ h s hs

theorem Consumes.mono {P' : α → ℕ → Prop} {m : Exec ε σ α} (hm : Consumes D m P)
    (h : ∀ a k, P a k → P' a k) : Consumes D m P' := by
  intro s hs
  refine wp_mono (hm s hs) ?_ fun _ _ hfail ↦ hfail
  rintro a s' ⟨hinv, k, hk, ha⟩
  exact ⟨hinv, k, hk, h a k ha⟩

theorem Consumes.bind {m : Exec ε σ α} {f : α → Exec ε σ β} (hm : Consumes D m P)
    (hf : ∀ a k, P a k → Consumes D (f a) fun b j ↦ Q b (k + j)) : Consumes D (m >>= f) Q := by
  intro s hs
  refine wp_bind_of (hm s hs) ?_
  rintro a s' ⟨hinv, k, hk, ha⟩
  refine wp_mono (hf a k ha s' hinv) ?_ fun _ _ hfail ↦ hfail
  rintro b s'' ⟨hinv', j, hj, hb⟩
  exact ⟨hinv', k + j, by omega, hb⟩

theorem consumes_get {f : σ → Exec ε σ β}
    (h : ∀ s, D.invariant s → (f s).wp
      (fun b s' ↦ D.invariant s' ∧ ∃ k, D.measure s' + k ≤ D.measure s ∧ Q b k) D.failure s) :
    Consumes D (get >>= f) Q := by
  intro s hs
  rw [wp_bind, wp_get]
  exact h s hs

/-! ## Amounts only -/

theorem reads_pure (a : α) : Reads D 0 (pure a) := consumes_pure le_rfl

theorem Consumes.reads {least : ℕ} {m : Exec ε σ α} (hm : Consumes D m P)
    (h : ∀ a k, P a k → least ≤ k) : Reads D least m :=
  hm.mono h

/-- What has been consumed before counts. -/
theorem Reads.bind {least more : ℕ} {m : Exec ε σ α} {f : α → Exec ε σ β} (hm : Reads D least m)
    (hf : ∀ a, Reads D more (f a)) : Reads D (least + more) (m >>= f) := by
  refine Consumes.bind hm fun a k hk ↦ (hf a).mono ?_
  intro b j hj
  exact Nat.add_le_add hk hj

theorem Reads.of_le {least more : ℕ} {m : Exec ε σ α} (hm : Reads D more m) (h : least ≤ more) :
    Reads D least m :=
  hm.mono fun _ _ hk ↦ h.trans hk

/-- Something, and then anything. -/
theorem Reads.then {least : ℕ} {m : Exec ε σ α} {f : α → Exec ε σ β} (hm : Reads D least m)
    (hf : ∀ a, Reads D 0 (f a)) : Reads D least (m >>= f) :=
  hm.bind hf

/-- Anything, and then something. -/
theorem Reads.before {least : ℕ} {m : Exec ε σ α} {f : α → Exec ε σ β} (hm : Reads D 0 m)
    (hf : ∀ a, Reads D least (f a)) : Reads D least (m >>= f) :=
  (hm.bind hf).of_le (Nat.zero_add least).ge

theorem Reads.any {least : ℕ} {m : Exec ε σ α} {f : α → Exec ε σ β} (hm : Reads D least m)
    (hf : ∀ a, Reads D 0 (f a)) : Reads D 0 (m >>= f) :=
  (hm.then hf).of_le (Nat.zero_le least)

/-- The same with what is known of the first value. -/
theorem Consumes.any {m : Exec ε σ α} {f : α → Exec ε σ β} (hm : Consumes D m P)
    (hf : ∀ a k, P a k → Reads D 0 (f a)) : Reads D 0 (m >>= f) :=
  hm.bind fun a k ha ↦ (hf a k ha).mono fun _ _ _ ↦ Nat.zero_le _

/-! ## Loops -/

/-- A pass of a loop: it goes on only if it consumes. -/
def Proceeds (P : ι → Prop) (Q : β → Prop) : Pass ι β → ℕ → Prop
  | .again a, k => P a ∧ 0 < k
  | .done b, _ => Q b

theorem loop_consumes {stuck : ε} {body : ι → Exec ε σ (Pass ι β)} {P : ι → Prop} {Q : β → Prop}
    (hbody : ∀ a, P a → Consumes D (body a) (Proceeds P Q)) {n : ℕ} {a : ι} {s : σ} (ha : P a)
    (hs : D.invariant s) (hn : D.measure s < n) :
    (loop stuck body n a).wp
      (fun b s' ↦ D.invariant s' ∧ ∃ k, D.measure s' + k ≤ D.measure s ∧ Q b) D.failure s := by
  induction n generalizing a s with
  | zero => contradiction
  | succ n ih =>
      refine wp_bind_of (hbody a ha s hs) ?_
      rintro r s' ⟨hinv, k, hk, hr⟩
      cases r with
      | done b => exact ⟨hinv, k, hk, hr⟩
      | again a' =>
          obtain ⟨ha', hpos⟩ := hr
          refine wp_mono (ih ha' hinv (by omega)) ?_ fun _ _ hfail ↦ hfail
          rintro b s'' ⟨hinv', j, hj, hb⟩
          exact ⟨hinv', j, by omega, hb⟩

end NucLlm.Exec
