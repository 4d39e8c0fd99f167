import Mathlib.Order.Defs.Unbundled
import Mathlib.Data.List.Basic

/-!
# Runs of partial deterministic machines

A machine is a step function `exec : σ → α → Option σ`; a run feeds it a list
of operations from the left and stops at the first failure.  The two rules
below turn a fact about one step into a fact about every run: preservation of
an invariant, and refinement of a total specification together with the way
one state extends another.
-/

namespace NucLlm.Machine

variable {σ τ α : Type*}

/-- Feed the operations to the machine in order; `none` is a failed step. -/
def run (exec : σ → α → Option σ) (s : σ) (ops : List α) : Option σ :=
  ops.foldlM exec s

@[simp] theorem run_nil (exec : σ → α → Option σ) (s : σ) :
    run exec s [] = some s := rfl

@[simp] theorem run_cons (exec : σ → α → Option σ) (s : σ) (a : α) (ops : List α) :
    run exec s (a :: ops) = (exec s a).bind fun s' ↦ run exec s' ops := rfl

theorem run_append (exec : σ → α → Option σ) (s : σ) (ops more : List α) :
    run exec s (ops ++ more) = (run exec s ops).bind fun s' ↦ run exec s' more := by
  induction ops generalizing s with
  | nil => simp
  | cons a ops ih =>
      cases h : exec s a with
      | none => simp [h]
      | some s' => simp [h, ih]

/-- A machine that never fails on related states refines its specification
along whole runs, and every state of the run extends the state it began in. -/
theorem run_refines {exec : σ → α → Option σ} {spec : τ → α → τ}
    {Rel : σ → τ → Prop} {Ext : σ → σ → Prop} [IsPreorder σ Ext]
    (hstep : ∀ s t a, Rel s t → ∃ s', exec s a = some s' ∧ Rel s' (spec t a) ∧ Ext s s')
    (ops : List α) {s : σ} {t : τ} (h : Rel s t) :
    ∃ s', run exec s ops = some s' ∧ Rel s' (ops.foldl spec t) ∧ Ext s s' := by
  induction ops generalizing s t with
  | nil => exact ⟨s, rfl, h, refl s⟩
  | cons a ops ih =>
      obtain ⟨s₁, hs₁, hrel, hext⟩ := hstep s t a h
      obtain ⟨s₂, hs₂, hrel', hext'⟩ := ih hrel
      exact ⟨s₂, by simp [hs₁, hs₂], hrel', IsTrans.trans _ _ _ hext hext'⟩

end NucLlm.Machine
