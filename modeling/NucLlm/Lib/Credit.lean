import NucLlm.Lib.Exec
import Mathlib.Algebra.Order.Monoid.Canonical.Defs

/-!
# Computations that draw on a credit

A condition on the state speaks of a credit that is left.  A computation draws
at most `d` of it if it leaves the rest, whatever the rest is; in a sequence the
amounts add up.
-/

namespace NucLlm.Exec

variable {ε σ α β A : Type} [AddCommMonoid A] [PartialOrder A] [CanonicallyOrderedAdd A]

/-- More credit is as good, and where a computation fails only `E` is left of it. -/
structure Credit (P : A → σ → Prop) (E : σ → Prop) : Prop where
  less : ∀ x y s, x ≤ y → P y s → P x s
  fails : ∀ x s, P x s → E s

/-- From a credit of `d` and any rest the computation comes to that rest. -/
def Draws (m : Exec ε σ α) (d : A) (P : A → σ → Prop) (E : σ → Prop) : Prop :=
  ∀ rest s, P (d + rest) s → m.wp (fun _ ↦ P rest) (fun _ ↦ E) s

variable {P : A → σ → Prop} {E : σ → Prop} {m : Exec ε σ α} {f : α → Exec ε σ β} {d e : A}

theorem draws_pure (hP : Credit P E) (a : α) (d : A) : (pure a : Exec ε σ α).Draws d P E :=
  fun rest s h ↦ hP.less rest (d + rest) s le_add_self h

omit [CanonicallyOrderedAdd A] in
theorem draws_fail (hP : Credit P E) (e : ε) (d : A) : (fail e : Exec ε σ α).Draws d P E :=
  fun rest s h ↦ hP.fails (d + rest) s h

theorem draws_of_preserves (hP : Credit P E) (hm : ∀ x, m.Preserves (P x)) (d : A) :
    m.Draws d P E := by
  intro rest s h
  have hrest := hP.less rest (d + rest) s le_add_self h
  exact (hm rest).wp hrest fun _ s' h' ↦ hP.fails rest s' h'

theorem draws_ofOption (hP : Credit P E) (e : ε) (o : Option α) (d : A) :
    (ofOption e o : Exec ε σ α).Draws d P E :=
  draws_of_preserves hP (fun x ↦ preserves_ofOption e o (P x)) d

theorem Draws.mono (hP : Credit P E) (hm : m.Draws d P E) (hle : d ≤ e) : m.Draws e P E := by
  intro rest s h
  exact hm rest s (hP.less (d + rest) (e + rest) s (add_le_add_left hle rest) h)

omit [PartialOrder A] [CanonicallyOrderedAdd A] in
theorem Draws.bind (hm : m.Draws d P E) (hf : ∀ a, (f a).Draws e P E) :
    (m >>= f).Draws (d + e) P E := by
  intro rest s h
  rw [add_assoc] at h
  exact wp_bind_of (hm (e + rest) s h) fun a s' h' ↦ hf a rest s' h'

omit [PartialOrder A] [CanonicallyOrderedAdd A] in
/-- What comes first draws nothing. -/
theorem Draws.after (hm : m.Draws 0 P E) (hf : ∀ a, (f a).Draws e P E) :
    (m >>= f).Draws e P E := by
  have h := hm.bind hf
  rwa [zero_add] at h

omit [PartialOrder A] [CanonicallyOrderedAdd A] in
/-- What comes last draws nothing. -/
theorem Draws.then (hm : m.Draws d P E) (hf : ∀ a, (f a).Draws 0 P E) :
    (m >>= f).Draws d P E := by
  have h := hm.bind hf
  rwa [add_zero] at h

end NucLlm.Exec
