import Mathlib.Data.Set.Card

/-!
# AVL trees with cached heights and sizes

Insertion into a binary search tree whose nodes store their height and size,
followed by at most one rotation on the way up.  The lemmas go through the
in-order list: rotations keep it, insertion inserts into it, and a lookup reads
it.
-/

namespace NucLlm

/-- A binary tree; every node stores the height and size of its subtree. -/
inductive AvlTree (κ β : Type*) where
  | nil
  | node (key : κ) (val : β) (left right : AvlTree κ β) (height size : ℕ)
deriving DecidableEq, Repr

namespace AvlTree

variable {κ β : Type*}

/-- The stored height. -/
def ht : AvlTree κ β → ℕ
  | nil => 0
  | node _ _ _ _ h _ => h

/-- The stored size. -/
def sz : AvlTree κ β → ℕ
  | nil => 0
  | node _ _ _ _ _ s => s

@[simp] theorem ht_nil : (nil : AvlTree κ β).ht = 0 := rfl

@[simp] theorem ht_node (k : κ) (v : β) (l r : AvlTree κ β) (h s : ℕ) :
    (node k v l r h s).ht = h := rfl

@[simp] theorem sz_nil : (nil : AvlTree κ β).sz = 0 := rfl

@[simp] theorem sz_node (k : κ) (v : β) (l r : AvlTree κ β) (h s : ℕ) :
    (node k v l r h s).sz = s := rfl

/-- A node with height and size computed from its children. -/
def mk (k : κ) (v : β) (l r : AvlTree κ β) : AvlTree κ β :=
  node k v l r (1 + max l.ht r.ht) (1 + l.sz + r.sz)

@[simp] theorem ht_mk (k : κ) (v : β) (l r : AvlTree κ β) :
    (mk k v l r).ht = 1 + max l.ht r.ht := rfl

def rotateLeft : AvlTree κ β → AvlTree κ β
  | node k v l (node rk rv rl rr _ _) _ _ => mk rk rv (mk k v l rl) rr
  | t => t

def rotateRight : AvlTree κ β → AvlTree κ β
  | node k v (node lk lv ll lr _ _) r _ _ => mk lk lv ll (mk k v lr r)
  | t => t

/-- Height difference of the children of the root. -/
def balance : AvlTree κ β → ℤ
  | nil => 0
  | node _ _ l r _ _ => (l.ht : ℤ) - r.ht

@[simp] theorem balance_node (k : κ) (v : β) (l r : AvlTree κ β) (h s : ℕ) :
    (node k v l r h s).balance = (l.ht : ℤ) - r.ht := rfl

@[simp] theorem balance_mk (k : κ) (v : β) (l r : AvlTree κ β) :
    (mk k v l r).balance = (l.ht : ℤ) - r.ht := rfl

/-- The node `k v l r` with a height difference of two removed by a single or a
double rotation. -/
def rebalance (k : κ) (v : β) (l r : AvlTree κ β) : AvlTree κ β :=
  if 1 < (l.ht : ℤ) - r.ht then
    if l.balance < 0 then rotateRight (mk k v l.rotateLeft r) else rotateRight (mk k v l r)
  else if (l.ht : ℤ) - r.ht < -1 then
    if 0 < r.balance then rotateLeft (mk k v l r.rotateRight) else rotateLeft (mk k v l r)
  else mk k v l r

/-- Insertion; the flag says whether the key is new. -/
def insert [LinearOrder κ] (k : κ) (v : β) : AvlTree κ β → AvlTree κ β × Bool
  | nil => (mk k v nil nil, true)
  | node key val l r _ _ =>
      if k = key then (mk k v l r, false)
      else if k < key then (insert k v l).map (rebalance key val · r) id
      else (insert k v r).map (rebalance key val l ·) id

def lookup [LinearOrder κ] (k : κ) : AvlTree κ β → Option β
  | nil => none
  | node key val l r _ _ =>
      if k = key then some val else if k < key then lookup k l else lookup k r

/-- The in-order list of bindings. -/
def toList : AvlTree κ β → List (κ × β)
  | nil => []
  | node k v l r _ _ => l.toList ++ (k, v) :: r.toList

/-- Number of nodes on the longest path. -/
def depth : AvlTree κ β → ℕ
  | nil => 0
  | node _ _ l r _ _ => 1 + max l.depth r.depth

@[simp] theorem toList_nil : (nil : AvlTree κ β).toList = [] := rfl

@[simp] theorem toList_node (k : κ) (v : β) (l r : AvlTree κ β) (h s : ℕ) :
    (node k v l r h s).toList = l.toList ++ (k, v) :: r.toList := rfl

@[simp] theorem toList_mk (k : κ) (v : β) (l r : AvlTree κ β) :
    (mk k v l r).toList = l.toList ++ (k, v) :: r.toList := rfl

@[simp] theorem toList_rotateLeft (t : AvlTree κ β) : t.rotateLeft.toList = t.toList := by
  rcases t with _ | ⟨k, v, l, _ | ⟨rk, rv, rl, rr, _, _⟩, _, _⟩ <;> simp [rotateLeft]

@[simp] theorem toList_rotateRight (t : AvlTree κ β) : t.rotateRight.toList = t.toList := by
  rcases t with _ | ⟨k, v, _ | ⟨lk, lv, ll, lr, _, _⟩, r, _, _⟩ <;> simp [rotateRight]

@[simp] theorem toList_rebalance (k : κ) (v : β) (l r : AvlTree κ β) :
    (rebalance k v l r).toList = l.toList ++ (k, v) :: r.toList := by
  unfold rebalance
  split_ifs <;> simp

/-! ## Stored data and balance -/

/-- Every stored height and size is the true one, and sibling heights differ by
at most one. -/
def Balanced : AvlTree κ β → Prop
  | nil => True
  | node _ _ l r h s =>
      h = 1 + max l.depth r.depth ∧ s = 1 + l.toList.length + r.toList.length ∧
        l.depth ≤ r.depth + 1 ∧ r.depth ≤ l.depth + 1 ∧ l.Balanced ∧ r.Balanced

theorem Balanced.ht_eq {t : AvlTree κ β} (h : t.Balanced) : t.ht = t.depth := by
  cases t with
  | nil => rfl
  | node k v l r hh s => exact h.1

theorem Balanced.sz_eq {t : AvlTree κ β} (h : t.Balanced) : t.sz = t.toList.length := by
  cases t with
  | nil => rfl
  | node k v l r hh s =>
      rw [sz_node, h.2.1, toList_node, List.length_append, List.length_cons]
      omega

theorem balanced_mk {k : κ} {v : β} {l r : AvlTree κ β} (hl : l.Balanced) (hr : r.Balanced)
    (h₁ : l.depth ≤ r.depth + 1) (h₂ : r.depth ≤ l.depth + 1) : (mk k v l r).Balanced := by
  refine ⟨?_, ?_, h₁, h₂, hl, hr⟩
  · rw [hl.ht_eq, hr.ht_eq]
  · rw [hl.sz_eq, hr.sz_eq]

@[simp] theorem depth_mk (k : κ) (v : β) (l r : AvlTree κ β) :
    (mk k v l r).depth = 1 + max l.depth r.depth := rfl

@[simp] theorem depth_node (k : κ) (v : β) (l r : AvlTree κ β) (h s : ℕ) :
    (node k v l r h s).depth = 1 + max l.depth r.depth := rfl

/-- What rebalancing gives: a balanced tree one level above the lower subtree
or two. -/
structure Rebalanced (lo : ℕ) (t : AvlTree κ β) : Prop where
  balanced : t.Balanced
  lower : lo + 2 ≤ t.depth
  upper : t.depth ≤ lo + 3

theorem rebalance_left (k : κ) (v : β) {l r : AvlTree κ β} (hl : l.Balanced)
    (hr : r.Balanced) (h : l.depth = r.depth + 2) : Rebalanced r.depth (rebalance k v l r) := by
  have hbal : 1 < (l.ht : ℤ) - r.ht := by rw [hl.ht_eq, hr.ht_eq]; omega
  rcases l with _ | ⟨lk, lv, ll, lr, lh, ls⟩
  · simp only [depth] at h
    omega
  obtain ⟨hlh, hls, hb₁, hb₂, hll, hlr⟩ := hl
  rw [depth_node] at h
  rw [rebalance, if_pos hbal, balance_node, hll.ht_eq, hlr.ht_eq]
  by_cases hinner : (ll.depth : ℤ) - lr.depth < 0
  · -- the left child leans right: its right child comes to the root
    rw [if_pos hinner]
    rcases lr with _ | ⟨ck, cv, cl, cr, ch, cs⟩
    · simp only [depth] at hinner
      omega
    obtain ⟨-, -, hc₁, hc₂, hcl, hcr⟩ := hlr
    rw [depth_node] at h hb₁ hb₂ hinner
    have hleft : (mk lk lv ll cl).Balanced := balanced_mk hll hcl (by omega) (by omega)
    have hright : (mk k v cr r).Balanced := balanced_mk hcr hr (by omega) (by omega)
    change Rebalanced r.depth (mk ck cv (mk lk lv ll cl) (mk k v cr r))
    refine ⟨balanced_mk hleft hright ?_ ?_, ?_, ?_⟩ <;> simp only [depth_mk] <;> omega
  · rw [if_neg hinner]
    have hright : (mk k v lr r).Balanced := balanced_mk hlr hr (by omega) (by omega)
    change Rebalanced r.depth (mk lk lv ll (mk k v lr r))
    refine ⟨balanced_mk hll hright ?_ ?_, ?_, ?_⟩ <;> simp only [depth_mk] <;> omega

theorem rebalance_right (k : κ) (v : β) {l r : AvlTree κ β} (hl : l.Balanced)
    (hr : r.Balanced) (h : r.depth = l.depth + 2) : Rebalanced l.depth (rebalance k v l r) := by
  have hnot : ¬ 1 < (l.ht : ℤ) - r.ht := by rw [hl.ht_eq, hr.ht_eq]; omega
  have hbal : (l.ht : ℤ) - r.ht < -1 := by rw [hl.ht_eq, hr.ht_eq]; omega
  rcases r with _ | ⟨rk, rv, rl, rr, rh, rs⟩
  · simp only [depth] at h
    omega
  obtain ⟨hrh, hrs, hb₁, hb₂, hrl, hrr⟩ := hr
  rw [depth_node] at h
  rw [rebalance, if_neg hnot, if_pos hbal, balance_node, hrl.ht_eq, hrr.ht_eq]
  by_cases hinner : 0 < (rl.depth : ℤ) - rr.depth
  · -- the right child leans left: its left child comes to the root
    rw [if_pos hinner]
    rcases rl with _ | ⟨ck, cv, cl, cr, ch, cs⟩
    · simp only [depth] at hinner
      omega
    obtain ⟨-, -, hc₁, hc₂, hcl, hcr⟩ := hrl
    rw [depth_node] at h hb₁ hb₂ hinner
    have hleft : (mk k v l cl).Balanced := balanced_mk hl hcl (by omega) (by omega)
    have hright : (mk rk rv cr rr).Balanced := balanced_mk hcr hrr (by omega) (by omega)
    change Rebalanced l.depth (mk ck cv (mk k v l cl) (mk rk rv cr rr))
    refine ⟨balanced_mk hleft hright ?_ ?_, ?_, ?_⟩ <;> simp only [depth_mk] <;> omega
  · rw [if_neg hinner]
    have hleft : (mk k v l rl).Balanced := balanced_mk hl hrl (by omega) (by omega)
    change Rebalanced l.depth (mk rk rv (mk k v l rl) rr)
    refine ⟨balanced_mk hleft hrr ?_ ?_, ?_, ?_⟩ <;> simp only [depth_mk] <;> omega

/-- Subtrees that already differ by at most one are only joined. -/
theorem rebalance_of_close (k : κ) (v : β) {l r : AvlTree κ β} (hl : l.Balanced)
    (hr : r.Balanced) (h₁ : l.depth ≤ r.depth + 1) (h₂ : r.depth ≤ l.depth + 1) :
    rebalance k v l r = mk k v l r := by
  have hlh := hl.ht_eq
  have hrh := hr.ht_eq
  rw [rebalance, if_neg (by omega), if_neg (by omega)]

/-- Insertion keeps a tree balanced and deepens it by at most one level. -/
theorem insert_balanced [LinearOrder κ] (k : κ) (v : β) {t : AvlTree κ β} (h : t.Balanced) :
    (insert k v t).1.Balanced ∧ t.depth ≤ (insert k v t).1.depth ∧
      (insert k v t).1.depth ≤ t.depth + 1 := by
  induction t with
  | nil => exact ⟨balanced_mk trivial trivial (by simp) (by simp), by simp [insert, depth],
      by simp [insert, depth]⟩
  | node key val l r hh s ihl ihr =>
      obtain ⟨-, -, hb₁, hb₂, hl, hr⟩ := h
      rw [insert, depth_node]
      split_ifs with heq hlt
      · exact ⟨balanced_mk hl hr hb₁ hb₂, by simp, by simp⟩
      · obtain ⟨hbal, hlow, hup⟩ := ihl hl
        rw [Prod.map_fst]
        by_cases hclose : (insert k v l).1.depth ≤ r.depth + 1
        · simp only [rebalance_of_close key val hbal hr hclose (by omega)]
          refine ⟨balanced_mk hbal hr hclose (by omega), ?_, ?_⟩ <;>
            simp only [depth_mk] <;> omega
        · have hre := rebalance_left key val hbal hr (by omega)
          exact ⟨hre.balanced, by have := hre.lower; omega, by have := hre.upper; omega⟩
      · obtain ⟨hbal, hlow, hup⟩ := ihr hr
        rw [Prod.map_fst]
        by_cases hclose : (insert k v r).1.depth ≤ l.depth + 1
        · simp only [rebalance_of_close key val hl hbal (by omega) hclose]
          refine ⟨balanced_mk hl hbal (by omega) hclose, ?_, ?_⟩ <;>
            simp only [depth_mk] <;> omega
        · have hre := rebalance_right key val hl hbal (by omega)
          exact ⟨hre.balanced, by have := hre.lower; omega, by have := hre.upper; omega⟩

/-! ## The in-order list -/

/-- Keys increase strictly along the in-order walk. -/
def Ordered [LT κ] (t : AvlTree κ β) : Prop :=
  (t.toList.map Prod.fst).Pairwise (· < ·)

theorem ordered_node_iff [LinearOrder κ] (k : κ) (v : β) (l r : AvlTree κ β) (h s : ℕ) :
    (node k v l r h s).Ordered ↔ l.Ordered ∧ r.Ordered ∧
      (∀ p ∈ l.toList, p.1 < k) ∧ ∀ p ∈ r.toList, k < p.1 := by
  simp only [Ordered, toList_node, List.map_append, List.map_cons, List.pairwise_append,
    List.pairwise_cons, List.mem_cons, List.mem_map]
  constructor
  · rintro ⟨hl, ⟨hk, hr⟩, hcross⟩
    exact ⟨hl, hr, fun p hp ↦ hcross _ ⟨p, hp, rfl⟩ k (.inl rfl),
      fun p hp ↦ hk _ ⟨p, hp, rfl⟩⟩
  · rintro ⟨hl, hr, hlk, hkr⟩
    refine ⟨hl, ⟨?_, hr⟩, ?_⟩
    · rintro _ ⟨p, hp, rfl⟩
      exact hkr p hp
    · rintro _ ⟨p, hp, rfl⟩ _ (rfl | ⟨q, hq, rfl⟩)
      · exact hlk p hp
      · exact (hlk p hp).trans (hkr q hq)

theorem ordered_congr [LT κ] {t u : AvlTree κ β} (h : t.toList = u.toList) :
    t.Ordered ↔ u.Ordered := by
  rw [Ordered, Ordered, h]

/-- Membership after an insertion: the new binding, and every old one under
another key. -/
theorem mem_toList_insert [LinearOrder κ] (k : κ) (v : β) {t : AvlTree κ β} (h : t.Ordered)
    (p : κ × β) : p ∈ (insert k v t).1.toList ↔ p = (k, v) ∨ p ∈ t.toList ∧ p.1 ≠ k := by
  induction t with
  | nil => simp [insert]
  | node key val l r hh s ihl ihr =>
      obtain ⟨hl, hr, hlk, hkr⟩ := (ordered_node_iff ..).mp h
      have hle : k ≤ key → ∀ q ∈ r.toList, q.1 ≠ k :=
        fun hk q hq ↦ (hk.trans_lt (hkr q hq)).ne'
      have hge : key ≤ k → ∀ q ∈ l.toList, q.1 ≠ k :=
        fun hk q hq ↦ ((hlk q hq).trans_le hk).ne
      rw [insert]
      split_ifs with heq hlt
      · subst heq
        have hll := hge le_rfl p
        have hrr := hle le_rfl p
        simp only [toList_mk, toList_node, List.mem_append, List.mem_cons]
        have hkey : p = (k, val) → p.1 = k := by rintro rfl; rfl
        grind
      · have hrr := hle hlt.le p
        have hkey : p = (key, val) → p.1 ≠ k := by rintro rfl; exact heq ∘ Eq.symm
        simp only [Prod.map_fst, toList_rebalance, toList_node, List.mem_append, List.mem_cons,
          ihl hl]
        grind
      · have hll := hge (not_lt.mp hlt) p
        have hkey : p = (key, val) → p.1 ≠ k := by rintro rfl; exact heq ∘ Eq.symm
        simp only [Prod.map_fst, toList_rebalance, toList_node, List.mem_append, List.mem_cons,
          ihr hr]
        grind

theorem insert_ordered [LinearOrder κ] (k : κ) (v : β) {t : AvlTree κ β} (h : t.Ordered) :
    (insert k v t).1.Ordered := by
  induction t with
  | nil => simp [insert, Ordered]
  | node key val l r hh s ihl ihr =>
      obtain ⟨hl, hr, hlk, hkr⟩ := (ordered_node_iff ..).mp h
      rw [insert]
      split_ifs with heq hlt
      · subst heq
        exact (ordered_node_iff k v l r 0 0).mpr ⟨hl, hr, hlk, hkr⟩
      · refine (ordered_congr (u := node key val (insert k v l).1 r 0 0) (by simp)).mpr ?_
        refine (ordered_node_iff ..).mpr ⟨ihl hl, hr, fun p hp ↦ ?_, hkr⟩
        rcases (mem_toList_insert k v hl p).mp hp with rfl | ⟨hp, -⟩
        · exact hlt
        · exact hlk p hp
      · refine (ordered_congr (u := node key val l (insert k v r).1 0 0) (by simp)).mpr ?_
        refine (ordered_node_iff ..).mpr ⟨hl, ihr hr, hlk, fun p hp ↦ ?_⟩
        rcases (mem_toList_insert k v hr p).mp hp with rfl | ⟨hp, -⟩
        · exact lt_of_le_of_ne (not_lt.mp hlt) (Ne.symm heq)
        · exact hkr p hp

theorem lookup_eq_some_iff [LinearOrder κ] {t : AvlTree κ β} (h : t.Ordered) (k : κ) (v : β) :
    t.lookup k = some v ↔ (k, v) ∈ t.toList := by
  induction t with
  | nil => simp [lookup]
  | node key val l r hh s ihl ihr =>
      obtain ⟨hl, hr, hlk, hkr⟩ := (ordered_node_iff ..).mp h
      have hnotl : ¬ k < key → (k, v) ∉ l.toList := fun hk hp ↦ hk (hlk _ hp)
      have hnotr : ¬ key < k → (k, v) ∉ r.toList := fun hk hp ↦ hk (hkr _ hp)
      simp only [lookup, toList_node, List.mem_append, List.mem_cons, Prod.mk.injEq]
      split_ifs with heq hlt
      · subst heq
        simp [hnotl (lt_irrefl k), hnotr (lt_irrefl k), eq_comm]
      · simp [ihl hl, heq, hnotr hlt.not_gt]
      · simp [ihr hr, heq, hnotl hlt]

/-- The last insertion of a key wins and every other key keeps its value. -/
theorem lookup_insert [LinearOrder κ] (k : κ) (v : β) {t : AvlTree κ β} (h : t.Ordered) (k' : κ) :
    (insert k v t).1.lookup k' = if k' = k then some v else t.lookup k' := by
  ext w
  rw [lookup_eq_some_iff (insert_ordered k v h), mem_toList_insert k v h]
  split_ifs with hk
  · subst hk
    simp [eq_comm]
  · simp [hk, lookup_eq_some_iff h]

/-- The keys are the domain of the lookup, so the stored size counts them. -/
theorem ncard_lookup [LinearOrder κ] {t : AvlTree κ β} (hb : t.Balanced) (h : t.Ordered) :
    {k | t.lookup k ≠ none}.ncard = t.sz := by
  have hset : {k | t.lookup k ≠ none} = ((t.toList.map Prod.fst).toFinset : Set κ) := by
    ext k
    simp [Option.ne_none_iff_exists', lookup_eq_some_iff h]
  have hnodup : (t.toList.map Prod.fst).Nodup := h.imp fun h ↦ ne_of_lt h
  rw [hset, Set.ncard_coe_finset, List.toFinset_card_of_nodup hnodup, List.length_map, hb.sz_eq]

end AvlTree

end NucLlm
