import Mathlib.Algebra.BigOperators.Group.List.Basic
import Mathlib.Data.List.Basic
import Mathlib.Algebra.GroupWithZero.Nat

/-!
# Trees and places

A place leads from the root of a tree to a node.  A node is changed at its place, and changing it
back gives the tree back.  The breadth-first walk lists every place.
-/

namespace NucLlm

inductive Tree (α : Type) where
  | node (data : α) (children : List (Tree α))

abbrev Place := List ℕ

namespace Tree

variable {α : Type}

def data : Tree α → α
  | node a _ => a

def children : Tree α → List (Tree α)
  | node _ cs => cs

def get : Tree α → Place → Option (Tree α)
  | t, [] => some t
  | t, i :: p => t.children[i]?.bind fun c ↦ c.get p

/-- The node at a place is changed. -/
def modifyAt (f : Tree α → Tree α) : Place → Tree α → Tree α
  | [], t => f t
  | i :: p, node a cs => node a (cs.modify i (modifyAt f p))

mutual

def size : Tree α → ℕ
  | node _ cs => sizes cs + 1

def sizes : List (Tree α) → ℕ
  | [] => 0
  | c :: cs => c.size + sizes cs

end

@[simp] theorem get_nil (t : Tree α) : t.get [] = some t := by
  cases t
  rfl

@[simp] theorem get_cons (t : Tree α) (i : ℕ) (p : Place) :
    t.get (i :: p) = t.children[i]?.bind fun c ↦ c.get p := by
  cases t
  rfl

theorem get_append (t : Tree α) (p q : Place) :
    t.get (p ++ q) = (t.get p).bind fun c ↦ c.get q := by
  induction p generalizing t with
  | nil => simp
  | cons i p ih =>
    rw [List.cons_append, get_cons, get_cons]
    cases t.children[i]? with
    | none => rfl
    | some c => exact ih c

theorem get_child (t : Tree α) (p : Place) (i : ℕ) :
    t.get (p ++ [i]) = (t.get p).bind fun c ↦ c.children[i]? := by
  rw [get_append]
  cases t.get p with
  | none => rfl
  | some c => simp

/-- A change that is taken back at its node is taken back in the tree. -/
theorem modifyAt_modifyAt {f g : Tree α → Tree α} {t n : Tree α} {p : Place}
    (hn : t.get p = some n) (h : g (f n) = n) : modifyAt g p (modifyAt f p t) = t := by
  induction p generalizing t with
  | nil =>
    rw [get_nil, Option.some.injEq] at hn
    subst hn
    exact h
  | cons i p ih =>
    obtain ⟨a, cs⟩ := t
    rw [get_cons] at hn
    obtain ⟨c, hc, hcn⟩ := Option.bind_eq_some_iff.mp hn
    have hback := ih hcn
    change node a ((cs.modify i (modifyAt f p)).modify i (modifyAt g p)) = node a cs
    congr 1
    apply List.ext_getElem?
    intro j
    rw [List.getElem?_modify, List.getElem?_modify]
    by_cases hij : i = j
    · subst hij
      have hc' : cs[i]? = some c := hc
      simp [hc', hback]
    · simp [hij]

/-- The places of the children of a node. -/
def childPlaces (t : Tree α) (p : Place) : List Place :=
  match t.get p with
  | none => []
  | some n => (List.range n.children.length).map fun i ↦ p ++ [i]

/-- `ast.walk`: a node that is taken from the queue puts its children at the end of it. -/
def walkFrom (t : Tree α) : ℕ → List Place → List Place
  | 0, _ => []
  | _ + 1, [] => []
  | fuel + 1, p :: queue => p :: t.walkFrom fuel (queue ++ t.childPlaces p)

def walk (t : Tree α) : List Place := t.walkFrom t.size [[]]

/-- The size of the subtree at a place. -/
def sizeAt (t : Tree α) (p : Place) : ℕ := ((t.get p).map size).getD 0

theorem size_pos (t : Tree α) : 0 < t.size := by
  obtain ⟨a, cs⟩ := t
  rw [size]
  exact Nat.succ_pos _

theorem sum_sizes (cs : List (Tree α)) :
    ((List.range cs.length).map fun i ↦ ((cs[i]?).map size).getD 0).sum = sizes cs := by
  induction cs with
  | nil => rfl
  | cons c cs ih =>
    rw [List.length_cons, List.range_succ_eq_map, List.map_cons, List.map_map, List.sum_cons, sizes,
      ← ih]
    rfl

theorem sum_childPlaces {t n : Tree α} {p : Place} (h : t.get p = some n) :
    ((t.childPlaces p).map t.sizeAt).sum + 1 = n.size := by
  unfold childPlaces
  rw [h]
  dsimp only
  have hsize (i : ℕ) : t.sizeAt (p ++ [i]) = ((n.children[i]?).map size).getD 0 := by
    unfold sizeAt
    rw [get_child, h]
    rfl
  rw [List.map_map]
  have hmap : t.sizeAt ∘ (fun i ↦ p ++ [i]) = fun i ↦ ((n.children[i]?).map size).getD 0 :=
    funext hsize
  rw [hmap, sum_sizes]
  obtain ⟨a, cs⟩ := n
  rw [size]
  rfl

theorem mem_childPlaces {t : Tree α} {p q : Place} :
    q ∈ t.childPlaces p ↔ ∃ i, q = p ++ [i] ∧ (t.get q).isSome := by
  unfold childPlaces
  cases h : t.get p with
  | none =>
    simp only [List.not_mem_nil, false_iff, not_exists, not_and]
    rintro i rfl
    rw [get_child, h]
    simp
  | some n =>
    simp only [List.mem_map, List.mem_range]
    constructor
    · rintro ⟨i, hi, rfl⟩
      refine ⟨i, rfl, ?_⟩
      rw [get_child, h]
      simpa using hi
    · rintro ⟨i, rfl, hi⟩
      rw [get_child, h] at hi
      exact ⟨i, by simpa using hi, rfl⟩

/-- A place below another one is below one of its children, or is the same. -/
theorem prefix_iff {t : Tree α} {p q : Place} (hp : (t.get p).isSome) :
    q <+: p ↔ p = q ∨ ∃ q' ∈ t.childPlaces q, q' <+: p := by
  constructor
  · rintro ⟨r, rfl⟩
    cases r with
    | nil => exact .inl (List.append_nil q)
    | cons i r =>
      rw [List.append_cons] at hp ⊢
      refine .inr ⟨q ++ [i], mem_childPlaces.mpr ⟨i, rfl, ?_⟩, List.prefix_append _ _⟩
      rw [get_append] at hp
      exact Option.isSome_of_isSome_bind hp
  · rintro (rfl | ⟨q', hq', hprefix⟩)
    · exact List.prefix_rfl
    · obtain ⟨i, rfl, -⟩ := mem_childPlaces.mp hq'
      exact (List.prefix_append q [i]).trans hprefix

theorem mem_walkFrom {t : Tree α} (fuel : ℕ) {queue : List Place}
    (hqueue : ∀ q ∈ queue, (t.get q).isSome) (hfuel : (queue.map t.sizeAt).sum ≤ fuel) (p : Place) :
    p ∈ t.walkFrom fuel queue ↔ (t.get p).isSome ∧ ∃ q ∈ queue, q <+: p := by
  induction fuel generalizing queue with
  | zero =>
    cases queue with
    | nil => simp [walkFrom]
    | cons q queue =>
      obtain ⟨n, hn⟩ := Option.isSome_iff_exists.mp (hqueue q List.mem_cons_self)
      have hpos := n.size_pos
      rw [List.map_cons, List.sum_cons, sizeAt, hn, Option.map_some, Option.getD_some] at hfuel
      omega
  | succ fuel ih =>
    cases queue with
    | nil => simp [walkFrom]
    | cons q queue =>
      obtain ⟨n, hn⟩ := Option.isSome_iff_exists.mp (hqueue q List.mem_cons_self)
      have hsum := sum_childPlaces hn
      rw [List.map_cons, List.sum_cons, sizeAt, hn, Option.map_some, Option.getD_some] at hfuel
      have hqueue' : ∀ r ∈ queue ++ t.childPlaces q, (t.get r).isSome := by
        intro r hr
        rcases List.mem_append.mp hr with hr | hr
        · exact hqueue r (List.mem_cons_of_mem _ hr)
        · obtain ⟨-, -, hsome⟩ := mem_childPlaces.mp hr
          exact hsome
      have hfuel' : ((queue ++ t.childPlaces q).map t.sizeAt).sum ≤ fuel := by
        rw [List.map_append, List.sum_append]
        omega
      rw [walkFrom, List.mem_cons, ih hqueue' hfuel']
      constructor
      · rintro (rfl | ⟨hp, r, hr, hprefix⟩)
        · exact ⟨hqueue p List.mem_cons_self, p, List.mem_cons_self, List.prefix_rfl⟩
        · refine ⟨hp, ?_⟩
          rcases List.mem_append.mp hr with hr | hr
          · exact ⟨r, List.mem_cons_of_mem _ hr, hprefix⟩
          · exact ⟨q, List.mem_cons_self, (prefix_iff hp).mpr (.inr ⟨r, hr, hprefix⟩)⟩
      · rintro ⟨hp, r, hr, hprefix⟩
        rcases List.mem_cons.mp hr with rfl | hr
        · rcases (prefix_iff hp).mp hprefix with rfl | ⟨r', hr', hprefix'⟩
          · exact .inl rfl
          · exact .inr ⟨hp, r', List.mem_append_right _ hr', hprefix'⟩
        · exact .inr ⟨hp, r, List.mem_append_left _ hr, hprefix⟩

/-- The walk lists the places of the tree. -/
theorem mem_walk {t : Tree α} {p : Place} : p ∈ t.walk ↔ (t.get p).isSome := by
  unfold walk
  have hroot : ∀ q ∈ [([] : Place)], (t.get q).isSome := by
    intro q hq
    rw [List.mem_singleton.mp hq, get_nil]
    rfl
  have hfuel : ([([] : Place)].map t.sizeAt).sum ≤ t.size := by
    simp [sizeAt]
  rw [mem_walkFrom _ hroot hfuel]
  simp

end Tree

end NucLlm
