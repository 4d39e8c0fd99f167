import Mathlib.Data.List.Nodup
import NucLlm.Lib.Loop

/-!
# Walks over a ranked graph

The pre-order walk with an explicit stack lists each vertex that can be
reached, once, with the depth it was met at.  The breadth-first search with a
queue looks for one that satisfies a test.
-/

namespace NucLlm.Ranked

variable {α : Type} [DecidableEq α]

/-! ## The walk -/

/-- The stack, its top first, and the vertices listed so far, all with depths. -/
structure WalkState (α : Type) where
  stack : List (α × ℕ)
  out : List (α × ℕ)

def visited (s : WalkState α) (a : α) : Bool := s.out.any fun p ↦ decide (p.1 = a)

def walkBody (G : Ranked α) (s : WalkState α) : Pass (WalkState α) (List (α × ℕ)) :=
  match s.stack with
  | [] => .done s.out
  | (a, depth) :: stack =>
      if visited s a then .again { s with stack := stack }
      else .again ⟨(G.next a).map (fun b ↦ (b, depth + 1)) ++ stack, s.out ++ [(a, depth)]⟩

/-- The vertices that can be reached, in pre-order. -/
def walk (G : Ranked α) (root : α) : List (α × ℕ) :=
  (whileLoop G.walkBody (G.paths 1 root + 1) ⟨[(root, 0)], []⟩).getD []

theorem visited_iff {s : WalkState α} {a : α} : visited s a = true ↔ a ∈ s.out.map Prod.fst := by
  simp [visited]

variable {G : Ranked α} {root : α}

/-- The vertex is listed or waits on the stack. -/
def Met (s : WalkState α) (a : α) : Prop := a ∈ s.out.map Prod.fst ∨ a ∈ s.stack.map Prod.fst

omit [DecidableEq α] in
theorem met_visit {next : List α} {a b : α} {depth : ℕ} {stack out : List (α × ℕ)} :
    Met ⟨next.map (fun c ↦ (c, depth + 1)) ++ stack, out ++ [(a, depth)]⟩ b ↔
      b ∈ next ∨ Met ⟨(a, depth) :: stack, out⟩ b := by
  have hnext : (next.map fun c ↦ (c, depth + 1)).map Prod.fst = next := by
    rw [List.map_map]
    exact List.map_id next
  simp only [Met, List.map_append, hnext, List.map_cons, List.map_nil, List.mem_append,
    List.mem_cons, List.not_mem_nil, or_false]
  tauto

omit [DecidableEq α] in
theorem met_drop {a b : α} {depth : ℕ} {stack out : List (α × ℕ)} (ha : a ∈ out.map Prod.fst) :
    Met ⟨stack, out⟩ b ↔ Met ⟨(a, depth) :: stack, out⟩ b := by
  simp only [Met, List.map_cons, List.mem_cons]
  constructor
  · tauto
  · rintro (h | rfl | h)
    · exact .inl h
    · exact .inl ha
    · exact .inr h

/-- What a walk from a root keeps. -/
structure Walking (G : Ranked α) (root : α) (s : WalkState α) : Prop where
  reached : ∀ a, Met s a → G.Reach root a
  started : Met s root
  next_met : ∀ a ∈ s.out.map Prod.fst, ∀ b ∈ G.next a, Met s b
  nodup : (s.out.map Prod.fst).Nodup

omit [DecidableEq α] in
theorem walking_start : Walking G root ⟨[(root, 0)], []⟩ where
  reached a ha := by
    obtain rfl : a = root := by simpa [Met] using ha
    exact .refl
  started := by simp [Met]
  next_met a ha := by simp at ha
  nodup := List.nodup_nil

/-- The number of the paths below the vertices on the stack. -/
def pending (G : Ranked α) (s : WalkState α) : ℕ := (s.stack.map fun p ↦ G.paths 1 p.1).sum

omit [DecidableEq α] in
theorem pending_visit (a : α) (depth : ℕ) (stack out : List (α × ℕ)) :
    G.pending ⟨(G.next a).map (fun b ↦ (b, depth + 1)) ++ stack, out⟩ <
      G.pending ⟨(a, depth) :: stack, out⟩ := by
  have hbelow : ((G.next a).map fun b ↦ (b, depth + 1)).map (fun p ↦ G.paths 1 p.1) =
      (G.next a).map (G.paths 1) := by
    rw [List.map_map]
    rfl
  have hpaths := paths_eq (G := G) 1 a
  simp only [pending, List.map_append, List.sum_append, List.map_cons, List.sum_cons, hbelow]
  omega

theorem walkBody_listed {a : α} {depth : ℕ} {stack out : List (α × ℕ)} (h : a ∈ out.map Prod.fst) :
    G.walkBody ⟨(a, depth) :: stack, out⟩ = .again ⟨stack, out⟩ := by
  have hvisited : visited ⟨(a, depth) :: stack, out⟩ a = true := visited_iff.mpr h
  simp [walkBody, hvisited]

theorem walkBody_fresh {a : α} {depth : ℕ} {stack out : List (α × ℕ)} (h : a ∉ out.map Prod.fst) :
    G.walkBody ⟨(a, depth) :: stack, out⟩ =
      .again ⟨(G.next a).map (fun b ↦ (b, depth + 1)) ++ stack, out ++ [(a, depth)]⟩ := by
  have hvisited : visited ⟨(a, depth) :: stack, out⟩ a = false := by
    rw [← Bool.not_eq_true, visited_iff]
    exact h
  simp [walkBody, hvisited]

theorem pending_step (s s' : WalkState α) (hbody : G.walkBody s = .again s') :
    G.pending s' < G.pending s := by
  obtain ⟨stack, out⟩ := s
  cases stack with
  | nil => simp [walkBody] at hbody
  | cons top stack =>
      obtain ⟨a, depth⟩ := top
      by_cases hlisted : a ∈ out.map Prod.fst
      · rw [walkBody_listed hlisted, Pass.again.injEq] at hbody
        subst hbody
        have hpos := paths_eq (G := G) 1 a
        simp only [pending, List.map_cons, List.sum_cons]
        omega
      · rw [walkBody_fresh hlisted, Pass.again.injEq] at hbody
        subst hbody
        exact pending_visit a depth stack out

theorem Walking.step {s s' : WalkState α} (h : Walking G root s)
    (hbody : G.walkBody s = .again s') :
    Walking G root s' := by
  obtain ⟨stack, out⟩ := s
  cases stack with
  | nil => simp [walkBody] at hbody
  | cons top stack =>
      obtain ⟨a, depth⟩ := top
      by_cases hlisted : a ∈ out.map Prod.fst
      · -- The vertex is listed already, so dropping it from the stack loses nothing.
        rw [walkBody_listed hlisted, Pass.again.injEq] at hbody
        subst hbody
        constructor
        · exact fun b hb ↦ h.reached b ((met_drop hlisted).mp hb)
        · exact (met_drop hlisted).mpr h.started
        · exact fun b hb c hc ↦ (met_drop hlisted).mpr (h.next_met b hb c hc)
        · exact h.nodup
      · rw [walkBody_fresh hlisted, Pass.again.injEq] at hbody
        subst hbody
        have hroot : G.Reach root a := h.reached a (.inr (by simp))
        constructor
        · intro b hb
          rcases met_visit.mp hb with hnext | hmet
          · exact hroot.tail hnext
          · exact h.reached b hmet
        · exact met_visit.mpr (.inr h.started)
        · intro b hb c hc
          apply met_visit.mpr
          simp only [List.map_append, List.map_cons, List.map_nil, List.mem_append,
            List.mem_singleton] at hb
          rcases hb with hb | rfl
          · exact .inr (h.next_met b hb c hc)
          · exact .inl hc
        · change ((out ++ [(a, depth)]).map Prod.fst).Nodup
          rw [List.map_append]
          apply List.Nodup.append h.nodup (List.nodup_singleton a)
          simpa using hlisted

/-- A walk that has come to its end. -/
structure Walked (G : Ranked α) (root : α) (out : List (α × ℕ)) : Prop where
  mem_iff : ∀ a, a ∈ out.map Prod.fst ↔ G.Reach root a
  nodup : (out.map Prod.fst).Nodup

theorem Walking.done {s : WalkState α} {out : List (α × ℕ)} (h : Walking G root s)
    (hbody : G.walkBody s = .done out) : Walked G root out := by
  obtain ⟨stack, out'⟩ := s
  cases stack with
  | cons top stack =>
      simp only [walkBody] at hbody
      split at hbody <;> contradiction
  | nil =>
      simp only [walkBody, Pass.done.injEq] at hbody
      subst hbody
      have hmet : ∀ a, Met ⟨[], out'⟩ a ↔ a ∈ out'.map Prod.fst := by simp [Met]
      constructor
      · intro a
        rw [← hmet a]
        constructor
        · exact h.reached a
        · intro ha
          induction ha with
          | refl => exact h.started
          | tail _ hedge ih => exact h.next_met _ ((hmet _).mp ih) _ hedge
      · exact h.nodup

theorem walked (G : Ranked α) (root : α) : Walked G root (G.walk root) := by
  obtain ⟨out, hout, h⟩ := whileLoop_ends G.pending (Walking G root) (Q := Walked G root)
    (fun s s' hs hbody ↦ ⟨hs.step hbody, pending_step s s' hbody⟩)
    (fun s b hs hbody ↦ hs.done hbody)
    (walking_start : Walking G root ⟨[(root, 0)], []⟩) (n := G.paths 1 root + 1) (by simp [pending])
  rw [walk, hout]
  exact h

/-- A walk lists what can be reached. -/
theorem mem_walk {a : α} : a ∈ (G.walk root).map Prod.fst ↔ G.Reach root a :=
  (walked G root).mem_iff a

/-- A walk lists no vertex twice. -/
theorem walk_nodup : ((G.walk root).map Prod.fst).Nodup := (walked G root).nodup

/-! ### The recursive walk -/

/-- List a vertex, and after it what the walks from the next ones list, unless it is listed. -/
def visit (a : α) (below : List (ℕ → List (α × ℕ) → List (α × ℕ))) (depth : ℕ)
    (out : List (α × ℕ)) : List (α × ℕ) :=
  if a ∈ out.map Prod.fst then out
  else below.foldl (fun out walk ↦ walk (depth + 1) out) (out ++ [(a, depth)])

/-- The recursive walk from a vertex at a depth, behind what is listed. -/
def preorder (G : Ranked α) : α → ℕ → List (α × ℕ) → List (α × ℕ) := G.recurse visit

/-- The recursive walks from vertices at a depth, one after the other. -/
def preorders (G : Ranked α) (depth : ℕ) (as : List α) (out : List (α × ℕ)) : List (α × ℕ) :=
  as.foldl (fun out a ↦ G.preorder a depth out) out

theorem preorder_eq (a : α) (depth : ℕ) (out : List (α × ℕ)) :
    G.preorder a depth out =
      if a ∈ out.map Prod.fst then out
      else G.preorders (depth + 1) (G.next a) (out ++ [(a, depth)]) := by
  rw [preorder, recurse_eq, visit, List.foldl_map]
  rfl

theorem passes_preorder (a : α) (depth : ℕ) (stack out : List (α × ℕ)) :
    Passes G.walkBody ⟨(a, depth) :: stack, out⟩ ⟨stack, G.preorder a depth out⟩ := by
  induction a using G.induction generalizing depth stack out with
  | step a ih =>
      have hbelow : ∀ bs, (∀ b ∈ bs, b ∈ G.next a) → ∀ out,
          Passes G.walkBody ⟨bs.map (fun b ↦ (b, depth + 1)) ++ stack, out⟩
            ⟨stack, G.preorders (depth + 1) bs out⟩ := by
        intro bs hbs
        induction bs with
        | nil => exact fun out ↦ .refl
        | cons b bs ihs =>
            intro out
            apply Passes.trans (ih b (hbs b List.mem_cons_self) (depth + 1) _ out)
            exact ihs (fun c hc ↦ hbs c (List.mem_cons_of_mem b hc)) _
      rw [preorder_eq]
      by_cases hlisted : a ∈ out.map Prod.fst
      · rw [if_pos hlisted]
        exact Passes.step (walkBody_listed hlisted) .refl
      · rw [if_neg hlisted]
        exact Passes.step (walkBody_fresh hlisted) (hbelow _ (fun b hb ↦ hb) _)

/-- The walk with a stack is the recursive one. -/
theorem walk_eq_preorder (G : Ranked α) (root : α) : G.walk root = G.preorder root 0 [] := by
  have hwalk : whileLoop G.walkBody (G.paths 1 root + 1) ⟨[(root, 0)], []⟩ =
      some (G.preorder root 0 []) :=
    whileLoop_of_passes (μ := G.pending) pending_step (passes_preorder root 0 [] []) rfl
      (by simp [pending])
  rw [walk, hwalk]
  rfl

/-! ## The search -/

/-- The queue, and the vertices that have failed the test. -/
structure SearchState (α : Type) where
  queue : List α
  seen : List α

def searchBody (G : Ranked α) (p : α → Bool) (s : SearchState α) :
    Pass (SearchState α) (Option α) :=
  match s.queue with
  | [] => .done none
  | a :: queue =>
      if a ∈ s.seen then .again { s with queue := queue }
      else if p a then .done (some a)
      else .again ⟨queue ++ G.next a, s.seen ++ [a]⟩

/-- The first vertex that passes the test, the nearest ones first. -/
def search (G : Ranked α) (p : α → Bool) (root : α) : Option α :=
  (whileLoop (G.searchBody p) (G.paths 1 root + 1) ⟨[root], []⟩).getD none

variable {p : α → Bool}

/-- What a search from a root keeps. -/
structure Searching (G : Ranked α) (p : α → Bool) (root : α) (s : SearchState α) : Prop where
  reached : ∀ a, a ∈ s.seen ∨ a ∈ s.queue → G.Reach root a
  started : root ∈ s.seen ∨ root ∈ s.queue
  next_met : ∀ a ∈ s.seen, ∀ b ∈ G.next a, b ∈ s.seen ∨ b ∈ s.queue
  failed : ∀ a ∈ s.seen, p a = false

/-- The number of the paths below the vertices in the queue. -/
def queued (G : Ranked α) (s : SearchState α) : ℕ := (s.queue.map (G.paths 1)).sum

theorem Searching.step {s s' : SearchState α} (h : Searching G p root s)
    (hbody : G.searchBody p s = .again s') :
    Searching G p root s' ∧ G.queued s' < G.queued s := by
  obtain ⟨queue, seen⟩ := s
  cases queue with
  | nil => simp [searchBody] at hbody
  | cons a queue =>
      have hpaths := paths_eq (G := G) 1 a
      have hroot : G.Reach root a := h.reached a (.inr List.mem_cons_self)
      by_cases hseen : a ∈ seen
      · simp only [searchBody, hseen, if_true, Pass.again.injEq] at hbody
        subst hbody
        have hkeep : ∀ b, b ∈ seen ∨ b ∈ a :: queue → b ∈ seen ∨ b ∈ queue := by
          rintro b (hb | hb)
          · exact .inl hb
          · rcases List.mem_cons.mp hb with rfl | hb
            · exact .inl hseen
            · exact .inr hb
        constructor
        · constructor
          · exact fun b hb ↦ h.reached b (hb.imp_right (List.mem_cons_of_mem a))
          · exact hkeep _ h.started
          · exact fun b hb c hc ↦ hkeep _ (h.next_met b hb c hc)
          · exact h.failed
        · simp only [queued, List.map_cons, List.sum_cons]
          omega
      · by_cases hp : p a = true
        · simp [searchBody, hseen, hp] at hbody
        · simp only [searchBody, hseen, hp, Bool.false_eq_true, if_false, Pass.again.injEq] at hbody
          subst hbody
          have hgrow : ∀ b, b ∈ seen ∨ b ∈ a :: queue →
              b ∈ seen ++ [a] ∨ b ∈ queue ++ G.next a := by
            intro b hb
            simp only [List.mem_cons, List.mem_append, List.not_mem_nil, or_false] at hb ⊢
            tauto
          constructor
          · constructor
            · intro b hb
              simp only [List.mem_append, List.mem_singleton] at hb
              rcases hb with (hb | rfl) | hb | hb
              · exact h.reached b (.inl hb)
              · exact hroot
              · exact h.reached b (.inr (List.mem_cons_of_mem a hb))
              · exact hroot.tail hb
            · exact hgrow _ h.started
            · intro b hb c hc
              rcases List.mem_append.mp hb with hb | hb
              · exact hgrow _ (h.next_met b hb c hc)
              · obtain rfl := List.mem_singleton.mp hb
                exact .inr (List.mem_append_right _ hc)
            · intro b hb
              rcases List.mem_append.mp hb with hb | hb
              · exact h.failed b hb
              · obtain rfl := List.mem_singleton.mp hb
                simpa using hp
          · simp only [queued, List.map_cons, List.sum_cons, List.map_append, List.sum_append]
            omega

/-- The outcome of a search. -/
structure Searched (G : Ranked α) (p : α → Bool) (root : α) (found : Option α) : Prop where
  reach : ∀ a, found = some a → G.Reach root a
  passes : ∀ a, found = some a → p a = true
  absent : found = none → ∀ a, G.Reach root a → p a = false

theorem Searching.done {s : SearchState α} {found : Option α} (h : Searching G p root s)
    (hbody : G.searchBody p s = .done found) : Searched G p root found := by
  obtain ⟨queue, seen⟩ := s
  cases queue with
  | nil =>
      simp only [searchBody, Pass.done.injEq] at hbody
      subst hbody
      constructor
      · simp
      · simp
      · intro _ a ha
        apply h.failed
        induction ha with
        | refl => exact h.started.resolve_right List.not_mem_nil
        | tail _ hedge ih => exact (h.next_met _ ih _ hedge).resolve_right List.not_mem_nil
  | cons a queue =>
      by_cases hseen : a ∈ seen
      · simp [searchBody, hseen] at hbody
      · by_cases hp : p a = true
        · simp only [searchBody, hseen, hp, if_false, if_true, Pass.done.injEq] at hbody
          subst hbody
          constructor
          · rintro b ⟨rfl⟩
            exact h.reached a (.inr List.mem_cons_self)
          · rintro b ⟨rfl⟩
            exact hp
          · simp
        · simp [searchBody, hseen, hp] at hbody

omit [DecidableEq α] in
theorem searching_start : Searching G p root ⟨[root], []⟩ := by
  constructor
  · intro a ha
    obtain rfl : a = root := by simpa using ha
    exact .refl
  · simp
  · simp
  · simp

theorem searched (G : Ranked α) (p : α → Bool) (root : α) :
    Searched G p root (G.search p root) := by
  obtain ⟨found, hfound, h⟩ := whileLoop_ends G.queued (Searching G p root)
    (Q := Searched G p root) (fun s s' hs hbody ↦ hs.step hbody)
    (fun s b hs hbody ↦ hs.done hbody) searching_start (n := G.paths 1 root + 1) (by simp [queued])
  rw [search, hfound]
  exact h

/-! ### The nearest vertex -/

/-- A path of the length leads from the one vertex to the other. -/
def ReachIn (G : Ranked α) : ℕ → α → α → Prop
  | 0, a, b => a = b
  | n + 1, a, b => ∃ c, ReachIn G n a c ∧ G.Edge c b

/-- The queue is what is left of one level, and behind it the next level as far as it is known. -/
structure Levelled (G : Ranked α) (root : α) (n : ℕ) (near far : List α) (s : SearchState α) :
    Prop where
  queue_eq : s.queue = near ++ far
  near_reach : ∀ a ∈ near, G.ReachIn n root a
  far_reach : ∀ a ∈ far, G.ReachIn (n + 1) root a
  lower_seen : ∀ m < n, ∀ a, G.ReachIn m root a → a ∈ s.seen
  level_met : ∀ a, G.ReachIn n root a → a ∈ s.seen ∨ a ∈ near

omit [DecidableEq α] in
/-- Once a level is through, the next one is known. -/
theorem Levelled.next {n : ℕ} {far : List α} {s : SearchState α} (h : Levelled G root n [] far s)
    (hsearching : Searching G p root s) : Levelled G root (n + 1) far [] s := by
  have hseen : ∀ a, G.ReachIn n root a → a ∈ s.seen := fun a ha ↦
    (h.level_met a ha).resolve_right List.not_mem_nil
  constructor
  · rw [h.queue_eq, List.nil_append, List.append_nil]
  · exact h.far_reach
  · intro a ha
    contradiction
  · intro m hm a ha
    rcases Nat.lt_succ_iff_lt_or_eq.mp hm with hm | rfl
    · exact h.lower_seen m hm a ha
    · exact hseen a ha
  · rintro a ⟨b, hb, hedge⟩
    have hmet := hsearching.next_met b (hseen b hb) a hedge
    rw [h.queue_eq, List.nil_append] at hmet
    exact hmet

omit [DecidableEq α] in
/-- The first in the queue is of the level that the search is at. -/
theorem Levelled.front {n : ℕ} {a : α} {near far queue seen : List α}
    (h : Levelled G root n near far ⟨a :: queue, seen⟩)
    (hsearching : Searching G p root ⟨a :: queue, seen⟩) :
    ∃ n near far, Levelled G root n (a :: near) far ⟨a :: queue, seen⟩ := by
  cases near with
  | cons b near =>
      obtain rfl : a = b := by simpa using congrArg List.head? h.queue_eq
      exact ⟨n, near, far, h⟩
  | nil =>
      have hfar : far = a :: queue := by simpa using h.queue_eq.symm
      exact ⟨n + 1, queue, [], hfar ▸ h.next hsearching⟩

theorem Levelled.step {n : ℕ} {near far : List α} {s s' : SearchState α}
    (h : Levelled G root n near far s) (hsearching : Searching G p root s)
    (hbody : G.searchBody p s = .again s') : ∃ n near far, Levelled G root n near far s' := by
  obtain ⟨queue, seen⟩ := s
  cases queue with
  | nil => simp [searchBody] at hbody
  | cons a queue =>
      obtain ⟨n, near, far, h⟩ := h.front hsearching
      have hqueue : queue = near ++ far := by simpa using h.queue_eq
      by_cases hseen : a ∈ seen
      · simp only [searchBody, hseen, if_true, Pass.again.injEq] at hbody
        subst hbody
        refine ⟨n, near, far, hqueue, ?_, h.far_reach, h.lower_seen, ?_⟩
        · exact fun b hb ↦ h.near_reach b (List.mem_cons_of_mem a hb)
        · intro b hb
          rcases h.level_met b hb with hb | hb
          · exact .inl hb
          · rcases List.mem_cons.mp hb with rfl | hb
            · exact .inl hseen
            · exact .inr hb
      · by_cases hp : p a = true
        · simp [searchBody, hseen, hp] at hbody
        · simp only [searchBody, hseen, hp, Bool.false_eq_true, if_false, Pass.again.injEq] at hbody
          subst hbody
          have hlevel := h.near_reach a List.mem_cons_self
          refine ⟨n, near, far ++ G.next a, ?_, ?_, ?_, ?_, ?_⟩
          · simp [hqueue]
          · exact fun b hb ↦ h.near_reach b (List.mem_cons_of_mem a hb)
          · intro b hb
            rcases List.mem_append.mp hb with hb | hb
            · exact h.far_reach b hb
            · exact ⟨a, hlevel, hb⟩
          · exact fun m hm b hb ↦ List.mem_append_left _ (h.lower_seen m hm b hb)
          · intro b hb
            rcases h.level_met b hb with hb | hb
            · exact .inl (List.mem_append_left _ hb)
            · rcases List.mem_cons.mp hb with rfl | hb
              · exact .inl (by simp)
              · exact .inr hb

/-- No vertex that passes the test is nearer than the one found. -/
def Nearest (G : Ranked α) (p : α → Bool) (root : α) (found : Option α) : Prop :=
  ∀ a, found = some a → ∃ n, G.ReachIn n root a ∧ ∀ m b, G.ReachIn m root b → p b = true → n ≤ m

theorem Levelled.done {n : ℕ} {near far : List α} {s : SearchState α} {found : Option α}
    (h : Levelled G root n near far s) (hsearching : Searching G p root s)
    (hbody : G.searchBody p s = .done found) : Nearest G p root found := by
  obtain ⟨queue, seen⟩ := s
  cases queue with
  | nil =>
      obtain rfl : found = none := by simpa [searchBody] using hbody.symm
      intro a ha
      contradiction
  | cons a queue =>
      obtain ⟨n, near, far, h⟩ := h.front hsearching
      by_cases hseen : a ∈ seen
      · simp [searchBody, hseen] at hbody
      · by_cases hp : p a = true
        · obtain rfl : found = some a := by simpa [searchBody, hseen, hp] using hbody.symm
          rintro b ⟨rfl⟩
          refine ⟨n, h.near_reach a List.mem_cons_self, ?_⟩
          -- A nearer vertex has been seen, so it has failed the test.
          intro m b hb hpass
          by_contra hnearer
          have hfailed := hsearching.failed b (h.lower_seen m (Nat.not_le.mp hnearer) b hb)
          rw [hpass] at hfailed
          contradiction
        · simp [searchBody, hseen, hp] at hbody

theorem search_nearest (G : Ranked α) (p : α → Bool) (root : α) :
    Nearest G p root (G.search p root) := by
  have hstart : Levelled G root 0 [root] [] ⟨[root], []⟩ := by
    constructor
    · rfl
    · intro a ha
      exact (List.mem_singleton.mp ha).symm
    · intro a ha
      contradiction
    · intro m hm
      contradiction
    · intro a ha
      exact .inr (List.mem_singleton.mpr ha.symm)
  obtain ⟨found, hfound, h⟩ := whileLoop_ends G.queued
    (fun s ↦ Searching G p root s ∧ ∃ n near far, Levelled G root n near far s)
    (Q := Nearest G p root)
    (fun s s' ⟨hsearching, _, _, _, h⟩ hbody ↦
      ⟨⟨(hsearching.step hbody).1, h.step hsearching hbody⟩, (hsearching.step hbody).2⟩)
    (fun s b ⟨hsearching, _, _, _, h⟩ hbody ↦ h.done hsearching hbody)
    ⟨searching_start, 0, [root], [], hstart⟩ (n := G.paths 1 root + 1) (by simp [queued])
  rw [search, hfound]
  exact h

end NucLlm.Ranked
