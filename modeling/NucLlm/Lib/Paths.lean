import NucLlm.Lib.Loop

/-!
# Paths by breadth

A search by breadth remembers, for each vertex that it finds, the one that it
found it from.  The path to a target is read back along these.
-/

namespace NucLlm.Ranked

variable {α : Type} (G : Ranked α)

/-- A path from one vertex to another. -/
structure Path (root target : α) (path : List α) : Prop where
  head : path.head? = some root
  last : path.getLast? = some target
  edges : path.IsChain G.Edge

/-- What is still to be visited, and what was found, the newest first and each
vertex with the one that it was found from. -/
structure Trace (α : Type) where
  queue : List α
  trail : List (α × Option α)

namespace Trace

def found (s : Trace α) : List α := s.trail.map Prod.fst

variable [DecidableEq α]

/-- A vertex is met from another. -/
def meet (up : α) (s : Trace α) (a : α) : Trace α :=
  if a ∈ s.found then s else ⟨s.queue ++ [a], (a, some up) :: s.trail⟩

end Trace

variable [DecidableEq α]

/-- The path that leads to `a :: path`. -/
def back : List (α × Option α) → α → List α → List α
  | [], a, path => a :: path
  | (b, up) :: trail, a, path =>
      if b = a then
        match up with
        | none => a :: path
        | some c => back trail c (a :: path)
      else back trail a path

def traceBody (target : α) (s : Trace α) : Pass (Trace α) (Option (List α)) :=
  match s.queue with
  | [] => .done none
  | a :: queue =>
      if a = target then .done (some (back s.trail a []))
      else .again ((G.next a).foldl (Trace.meet a) ⟨queue, s.trail⟩)

/-- The path that the search finds. -/
def pathTo (root target : α) : Option (List α) :=
  (whileLoop (G.traceBody target) (G.paths 1 root + 1) ⟨[root], [(root, none)]⟩).getD none

/-! ## Trails -/

/-- Every vertex was found from one before it, along an edge, but for the root. -/
def Linked (root : α) : List (α × Option α) → Prop
  | [] => True
  | (a, none) :: trail => a = root ∧ Linked root trail
  | (a, some up) :: trail => a ∈ G.next up ∧ up ∈ trail.map Prod.fst ∧ Linked root trail

variable {G}

omit [DecidableEq α] in
theorem Linked.tail {root : α} {e : α × Option α} {trail : List (α × Option α)}
    (h : G.Linked root (e :: trail)) : G.Linked root trail := by
  obtain ⟨a, up⟩ := e
  cases up with
  | none => exact h.2
  | some up => exact h.2.2

theorem back_path {root a : α} {trail : List (α × Option α)} (h : G.Linked root trail)
    (ha : a ∈ trail.map Prod.fst) {path : List α} (hpath : (a :: path).IsChain G.Edge) :
    (back trail a path).head? = some root ∧ (back trail a path).IsChain G.Edge ∧
      (a :: path) <:+ back trail a path := by
  induction trail generalizing a path with
  | nil => contradiction
  | cons e trail ih =>
      obtain ⟨b, up⟩ := e
      unfold back
      split
      · rename_i hb
        obtain rfl := hb
        cases up with
        | none =>
            obtain rfl := h.1
            exact ⟨rfl, hpath, List.suffix_rfl⟩
        | some c =>
            obtain ⟨hedge, hc, hlinked⟩ := h
            obtain ⟨hhead, hchain, hsuffix⟩ := ih hlinked hc (hpath.cons_cons hedge)
            exact ⟨hhead, hchain, (List.suffix_cons c _).trans hsuffix⟩
      · rename_i hb
        refine ih h.tail ?_ hpath
        exact (List.mem_cons.mp ha).resolve_left (Ne.symm hb)

theorem back_path_single {root a : α} {trail : List (α × Option α)} (h : G.Linked root trail)
    (ha : a ∈ trail.map Prod.fst) : G.Path root a (back trail a []) := by
  obtain ⟨hhead, hchain, before, hbefore⟩ := back_path h ha (.singleton a)
  refine ⟨hhead, ?_, hchain⟩
  rw [← hbefore, List.getLast?_concat]

/-! ## The search -/

/-- The vertices `as` have been met from a vertex that was found. -/
structure Traced (G : Ranked α) (root : α) (as : List α) (s s' : Trace α) : Prop where
  queue : ∃ new, s'.queue = s.queue ++ new ∧ new.Sublist as ∧
    (∀ a ∈ s'.found, a ∈ s.found ∨ a ∈ new) ∧ ∀ a ∈ new, a ∈ s'.found
  grows : ∀ a ∈ s.found, a ∈ s'.found
  covers : ∀ a ∈ as, a ∈ s'.found
  linked : G.Linked root s'.trail

theorem traced_foldl {root up : α} {as : List α} (has : ∀ a ∈ as, a ∈ G.next up) {s : Trace α}
    (hup : up ∈ s.found) (h : G.Linked root s.trail) :
    Traced G root as s (as.foldl (Trace.meet up) s) := by
  induction as generalizing s with
  | nil => exact ⟨⟨[], by simp⟩, fun a ha ↦ ha, by simp, h⟩
  | cons a as ih =>
      obtain ⟨ha, has⟩ := List.forall_mem_cons.mp has
      rw [List.foldl_cons, Trace.meet]
      split
      · rename_i hknown
        obtain ⟨⟨new, hqueue, hnew, hfound, hnewFound⟩, hgrows, hcovers, hlinked⟩ := ih has hup h
        exact ⟨⟨new, hqueue, hnew.cons a, hfound, hnewFound⟩, hgrows,
          List.forall_mem_cons.mpr ⟨hgrows a hknown, hcovers⟩, hlinked⟩
      · have hmet : Trace.found ⟨s.queue ++ [a], (a, some up) :: s.trail⟩ = a :: s.found := rfl
        obtain ⟨⟨new, hqueue, hnew, hfound, hnewFound⟩, hgrows, hcovers, hlinked⟩ :=
          ih (s := ⟨s.queue ++ [a], (a, some up) :: s.trail⟩) has
            (List.mem_cons_of_mem a hup) ⟨ha, hup, h⟩
        have hself := hgrows a List.mem_cons_self
        refine ⟨⟨a :: new, ?_, hnew.cons_cons a, ?_, List.forall_mem_cons.mpr ⟨hself, hnewFound⟩⟩,
          fun b hb ↦ hgrows b (List.mem_cons_of_mem a hb),
          List.forall_mem_cons.mpr ⟨hself, hcovers⟩, hlinked⟩
        · rw [hqueue, List.append_assoc]
          rfl
        · intro b hb
          rcases hfound b hb with hmem | hmem
          · rw [hmet] at hmem
            rcases List.mem_cons.mp hmem with rfl | hmem
            · exact .inr List.mem_cons_self
            · exact .inl hmem
          · exact .inr (List.mem_cons_of_mem a hmem)

/-- What has been found is linked to the root, and leads to what is still to be
visited or has not the target among it. -/
structure Tracing (G : Ranked α) (root target : α) (s : Trace α) : Prop where
  start : root ∈ s.found
  queued : ∀ a ∈ s.queue, a ∈ s.found
  linked : G.Linked root s.trail
  closed : ∀ a ∈ s.found, a ∈ s.queue ∨ a ≠ target ∧ ∀ b ∈ G.next a, b ∈ s.found

theorem Tracing.again {root target : α} {s s' : Trace α} (h : Tracing G root target s)
    (hbody : G.traceBody target s = .again s') :
    Tracing G root target s' ∧
      (s'.queue.map (G.paths 1)).sum < (s.queue.map (G.paths 1)).sum := by
  obtain ⟨queue, trail⟩ := s
  unfold traceBody at hbody
  cases queue with
  | nil => contradiction
  | cons a queue =>
      dsimp only at hbody
      split at hbody
      · contradiction
      · rename_i hne
        obtain rfl := Pass.again.inj hbody
        have ha : a ∈ Trace.found ⟨queue, trail⟩ := h.queued a List.mem_cons_self
        have hmet := traced_foldl (fun b hb ↦ hb) ha h.linked (s := ⟨queue, trail⟩)
        generalize (G.next a).foldl (Trace.meet a) ⟨queue, trail⟩ = s' at hmet
        obtain ⟨⟨new, hqueue, hnew, hfound, hnewFound⟩, hgrows, hcovers, hlinked⟩ := hmet
        refine ⟨⟨hgrows root h.start, ?_, hlinked, ?_⟩, ?_⟩
        · intro b hb
          rw [hqueue] at hb
          rcases List.mem_append.mp hb with hb | hb
          · exact hgrows b (h.queued b (List.mem_cons_of_mem a hb))
          · exact hnewFound b hb
        · intro b hb
          rw [hqueue]
          rcases hfound b hb with hold | hfresh
          · rcases h.closed b hold with hmem | ⟨htarget, hnext⟩
            · rcases List.mem_cons.mp hmem with rfl | hmem
              · exact .inr ⟨hne, hcovers⟩
              · exact .inl (List.mem_append_left new hmem)
            · exact .inr ⟨htarget, fun c hc ↦ hgrows c (hnext c hc)⟩
          · exact .inl (List.mem_append_right queue hfresh)
        · have hsum : (new.map (G.paths 1)).sum ≤ ((G.next a).map (G.paths 1)).sum :=
            List.Sublist.sum_le_sum (hnew.map _) fun _ _ ↦ Nat.zero_le _
          have hpaths := G.paths_eq 1 a
          rw [hqueue]
          simp only [List.map_append, List.map_cons, List.sum_append, List.sum_cons]
          omega

/-- The search finds a path if there is one. -/
theorem pathTo_path {root target : α} (h : G.Reach root target) :
    ∃ path, G.pathTo root target = some path ∧ G.Path root target path := by
  have hstart : Tracing G root target ⟨[root], [(root, none)]⟩ := by
    constructor
    · exact List.mem_singleton_self root
    · exact fun a ha ↦ ha
    · exact ⟨rfl, trivial⟩
    · exact fun a ha ↦ .inl ha
  have hdone : ∀ s r, Tracing G root target s → G.traceBody target s = .done r →
      ∃ path, r = some path ∧ G.Path root target path := by
    intro s r hs hbody
    obtain ⟨queue, trail⟩ := s
    unfold traceBody at hbody
    cases queue with
    | nil =>
        have hall : ∀ a, G.Reach root a → a ∈ Trace.found ⟨[], trail⟩ := by
          intro a ha
          induction ha with
          | refl => exact hs.start
          | tail _ hedge ih =>
              exact ((hs.closed _ ih).resolve_left List.not_mem_nil).2 _ hedge
        exact absurd rfl ((hs.closed target (hall target h)).resolve_left List.not_mem_nil).1
    | cons a queue =>
        dsimp only at hbody
        split at hbody
        · rename_i heq
          obtain rfl := heq
          exact ⟨_, (Pass.done.inj hbody).symm,
            back_path_single hs.linked (hs.queued a List.mem_cons_self)⟩
        · contradiction
  obtain ⟨r, hr, path, rfl, hpath⟩ :=
    whileLoop_ends (fun s : Trace α ↦ (s.queue.map (G.paths 1)).sum)
      (Tracing G root target) (fun _ _ hs ↦ hs.again) hdone hstart
      (n := G.paths 1 root + 1) (by simp)
  refine ⟨path, ?_, hpath⟩
  unfold pathTo
  rw [hr]
  rfl

end NucLlm.Ranked
