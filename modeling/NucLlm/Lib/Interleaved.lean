import Mathlib.Data.List.Basic

/-!
# Interleaved events

Where each event changes one part of a state, a run over interleaved events is, part by part, the
run over the events of the part.
-/

namespace NucLlm.Interleaved

variable {S E K : Type*} {V : K → Type*} [DecidableEq K]
  {step : S → E → Option S} {key : E → Option K} {view : (k : K) → S → V k}
  {stepAt : (k : K) → V k → E → Option (V k)}

/-- The events of one part, in their order. -/
def project (key : E → Option K) (k : K) (events : List E) : List E :=
  events.filter fun e ↦ key e = some k

@[simp] theorem project_nil (k : K) : project key k [] = [] := rfl

theorem project_cons_self {e : E} {k : K} (h : key e = some k) (events : List E) :
    project key k (e :: events) = e :: project key k events := by
  simp [project, h]

theorem project_cons_ne {e : E} {k : K} (h : key e ≠ some k) (events : List E) :
    project key k (e :: events) = project key k events := by
  simp [project, h]

/-- A step changes the part that its event is about, and no other. -/
structure Local (step : S → E → Option S) (key : E → Option K) (view : (k : K) → S → V k)
    (stepAt : (k : K) → V k → E → Option (V k)) : Prop where
  idle : ∀ s e, key e = none → ∃ s', step s e = some s' ∧ ∀ k, view k s' = view k s
  moves : ∀ s e k v, key e = some k → stepAt k (view k s) e = some v →
    ∃ s', step s e = some s' ∧ view k s' = v ∧ ∀ k', k' ≠ k → view k' s' = view k' s

/-- The whole run is defined where the run of every part is, and shows what these come to. -/
theorem Local.run (h : Local step key view stepAt) (events : List E) (s : S) (v : (k : K) → V k)
    (hparts : ∀ k, (project key k events).foldlM (stepAt k) (view k s) = some (v k)) :
    ∃ s', events.foldlM step s = some s' ∧ ∀ k, view k s' = v k := by
  induction events generalizing s with
  | nil => exact ⟨s, rfl, fun k ↦ Option.some.inj (hparts k)⟩
  | cons e events ih =>
      cases hkey : key e with
      | none =>
          obtain ⟨s', hstep, hview⟩ := h.idle s e hkey
          have hparts' :
            ∀ k, (project key k events).foldlM (stepAt k) (view k s') = some (v k) := by
            intro k
            have hk := hparts k
            rw [project_cons_ne (by simp [hkey])] at hk
            rw [hview, hk]
          obtain ⟨s'', hrun, hend⟩ := ih s' hparts'
          refine ⟨s'', ?_, hend⟩
          rw [List.foldlM_cons, hstep]
          exact hrun
      | some k =>
          have hk := hparts k
          rw [project_cons_self hkey, List.foldlM_cons] at hk
          obtain ⟨w, hw, hrest⟩ := Option.bind_eq_some_iff.mp hk
          obtain ⟨s', hstep, hself, hothers⟩ := h.moves s e k w hkey hw
          have hparts' : ∀ k', (project key k' events).foldlM (stepAt k') (view k' s') =
              some (v k') := by
            intro k'
            by_cases hk' : k' = k
            · subst hk'
              rw [hself, hrest]
            · have hother := hparts k'
              rw [project_cons_ne (by rw [hkey]; exact fun heq ↦ hk' (Option.some.inj heq).symm)]
                at hother
              rw [hothers k' hk', hother]
          obtain ⟨s'', hrun, hend⟩ := ih s' hparts'
          refine ⟨s'', ?_, hend⟩
          rw [List.foldlM_cons, hstep]
          exact hrun

end NucLlm.Interleaved
