import Mathlib.Algebra.BigOperators.Group.List.Basic
import Mathlib.Algebra.Order.BigOperators.Group.List
import Mathlib.Algebra.Order.Group.Nat
import Mathlib.Logic.Relation
import Mathlib.Algebra.GroupWithZero.Nat

/-!
# Loops with an explicit stack

A `while` loop is the repetition of its body, and the body either goes on or
leaves with a result.  Where the loop walks a graph whose edges go down in
rank, the paths below a vertex bound the passes it takes.
-/

namespace NucLlm

/-! ## Loops -/

/-- One pass of a loop. -/
inductive Pass (σ β : Type) where
  | again (s : σ)
  | done (b : β)

/-- The loop, for a bounded number of passes. -/
def whileLoop {σ β : Type} (body : σ → Pass σ β) : ℕ → σ → Option β
  | 0, _ => none
  | n + 1, s =>
      match body s with
      | .again s' => whileLoop body n s'
      | .done b => some b

section Loops

variable {σ β : Type} {body : σ → Pass σ β}

/-- The loop goes from one state to the other. -/
abbrev Passes (body : σ → Pass σ β) : σ → σ → Prop :=
  Relation.ReflTransGen fun s s' ↦ body s = .again s'

theorem Passes.step {s s' s'' : σ} (h : body s = .again s') (hrest : Passes body s' s'') :
    Passes body s s'' :=
  Relation.ReflTransGen.head h hrest

theorem Passes.trans {s s' s'' : σ} (h : Passes body s s') (h' : Passes body s' s'') :
    Passes body s s'' :=
  Relation.ReflTransGen.trans h h'

/-- A loop whose measure drops with every pass leaves the state it gets to. -/
theorem whileLoop_of_passes {μ : σ → ℕ} (hμ : ∀ s s', body s = .again s' → μ s' < μ s) {s s' : σ}
    {b : β} (h : Passes body s s') (hdone : body s' = .done b) {n : ℕ} (hn : μ s < n) :
    whileLoop body n s = some b := by
  induction h using Relation.ReflTransGen.head_induction_on generalizing n with
  | refl =>
      obtain ⟨n, rfl⟩ : ∃ k, n = k + 1 := ⟨n - 1, by omega⟩
      simp [whileLoop, hdone]
  | head hstep _ ih =>
      obtain ⟨n, rfl⟩ : ∃ k, n = k + 1 := ⟨n - 1, by omega⟩
      have hdrop := hμ _ _ hstep
      simp only [whileLoop, hstep]
      exact ih (by omega)

/-- A loop whose measure drops with every pass ends, and what it keeps holds at its end. -/
theorem whileLoop_ends (μ : σ → ℕ) (I : σ → Prop) {Q : β → Prop}
    (hstep : ∀ s s', I s → body s = .again s' → I s' ∧ μ s' < μ s)
    (hdone : ∀ s b, I s → body s = .done b → Q b) {n : ℕ} {s : σ} (h : I s) (hn : μ s < n) :
    ∃ b, whileLoop body n s = some b ∧ Q b := by
  induction n generalizing s with
  | zero => contradiction
  | succ n ih =>
      cases hbody : body s with
      | done b => exact ⟨b, by simp [whileLoop, hbody], hdone s b h hbody⟩
      | again s' =>
          obtain ⟨h', hdrop⟩ := hstep s s' h hbody
          obtain ⟨b, hb, hQ⟩ := ih h' (by omega)
          exact ⟨b, by simpa [whileLoop, hbody] using hb, hQ⟩

end Loops

/-! ## Ranked graphs -/

/-- A graph whose edges go down in rank. -/
structure Ranked (α : Type) where
  next : α → List α
  rank : α → ℕ
  rank_next : ∀ a, ∀ b ∈ next a, rank b < rank a

namespace Ranked

variable {α : Type} (G : Ranked α)

def Edge (a b : α) : Prop := b ∈ G.next a

abbrev Reach : α → α → Prop := Relation.ReflTransGen G.Edge

/-- Induction along the edges. -/
theorem induction {P : α → Prop} (step : ∀ a, (∀ b ∈ G.next a, P b) → P a) (a : α) : P a := by
  have hrank : ∀ n a, G.rank a < n → P a := by
    intro n
    induction n with
    | zero => exact fun a h ↦ absurd h (Nat.not_lt_zero _)
    | succ n ih =>
        intro a ha
        apply step
        intro b hb
        apply ih
        exact Nat.lt_of_lt_of_le (G.rank_next a b hb) (Nat.le_of_lt_succ ha)
  exact hrank _ a (Nat.lt_succ_self _)

variable {β : Type} (f : α → List β → β)

/-- A recursive function on the vertices, at most `k` calls deep. -/
def recurseWithin : ℕ → α → β
  | 0, a => f a []
  | k + 1, a => f a ((G.next a).map (recurseWithin k))

/-- The recursive function that makes `f` of a vertex and its values at the next vertices. -/
def recurse (a : α) : β := G.recurseWithin f (G.rank a) a

variable {G}

theorem next_eq_nil {a : α} (h : G.rank a = 0) : G.next a = [] := by
  apply List.eq_nil_iff_forall_not_mem.mpr
  intro b hb
  have hlt := G.rank_next a b hb
  omega

theorem recurseWithin_eq {k j : ℕ} {a : α} (hk : G.rank a ≤ k) (hj : G.rank a ≤ j) :
    G.recurseWithin f k a = G.recurseWithin f j a := by
  induction k generalizing j a with
  | zero =>
      have hnone : G.next a = [] := next_eq_nil (Nat.le_zero.mp hk)
      cases j with
      | zero => rfl
      | succ j => simp [recurseWithin, hnone]
  | succ k ih =>
      cases j with
      | zero =>
          have hnone : G.next a = [] := next_eq_nil (Nat.le_zero.mp hj)
          simp [recurseWithin, hnone]
      | succ j =>
          have hmap : (G.next a).map (G.recurseWithin f k) =
            (G.next a).map (G.recurseWithin f j) := by
            apply List.map_congr_left
            intro b hb
            have hlt := G.rank_next a b hb
            exact ih (by omega) (by omega)
          simp only [recurseWithin, hmap]

theorem recurse_eq (a : α) : G.recurse f a = f a ((G.next a).map (G.recurse f)) := by
  unfold recurse
  rw [recurseWithin_eq f le_rfl (Nat.le_succ (G.rank a)), recurseWithin]
  congr 1
  apply List.map_congr_left
  intro b hb
  exact recurseWithin_eq f (G.rank_next a b hb).le le_rfl

/-! ### What lies below a vertex -/

variable (G)

/-- `base` for each path from a vertex. -/
def paths (base : ℕ) (a : α) : ℕ := G.recurse (fun _ below ↦ base + below.sum) a

/-- The vertices below a vertex, each after those it leads to, the last of these first. -/
def postorder (a : α) : List α := G.recurse (fun a below ↦ below.reverse.flatten ++ [a]) a

variable {G}

theorem paths_eq (base : ℕ) (a : α) :
    G.paths base a = base + ((G.next a).map (G.paths base)).sum :=
  recurse_eq _ a

theorem postorder_eq (a : α) :
    G.postorder a = (G.next a).reverse.flatMap G.postorder ++ [a] := by
  unfold postorder
  rw [recurse_eq, List.flatMap_def, List.map_reverse]

theorem mem_postorder {a b : α} : b ∈ G.postorder a ↔ G.Reach a b := by
  induction a using G.induction with
  | step a ih =>
      rw [postorder_eq, List.mem_append, List.mem_flatMap, List.mem_singleton]
      constructor
      · rintro (⟨c, hc, hb⟩ | rfl)
        · rw [List.mem_reverse] at hc
          exact .head hc ((ih c hc).mp hb)
        · exact .refl
      · intro h
        rcases Relation.ReflTransGen.cases_head h with rfl | ⟨c, hc, hb⟩
        · exact .inr rfl
        · exact .inl ⟨c, List.mem_reverse.mpr hc, (ih c hc).mpr hb⟩

end Ranked

end NucLlm
