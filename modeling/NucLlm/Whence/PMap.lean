import NucLlm.Lib.AvlTree

/-!
# The persistent string-keyed map behind records

`PMap` is an AVL tree of `_PNode` objects that are never written after their
construction; versions share every subtree an update does not touch.  Nodes
live in a heap that only grows, a reference is an address or `None`, and an
attribute of `None` is a host failure.  Each operation is tied to the same
operation on trees, and a map keeps standing for its tree as the heap grows.
-/

namespace NucLlm.Whence

open AvlTree

variable {κ β : Type}

/-- A `_PNode` object. -/
structure PNode (κ β : Type) where
  key : κ
  val : β
  left : Option ℕ
  right : Option ℕ
  height : ℕ
  size : ℕ
deriving DecidableEq, Repr

abbrev PHeap (κ β : Type) := List (PNode κ β)

namespace PHeap

/-- The object behind a reference; `none` is an attribute access on `None`. -/
def load (h : PHeap κ β) (n : Option ℕ) : Option (PNode κ β) := n >>= (h[·]?)

def pheight (h : PHeap κ β) : Option ℕ → Option ℕ
  | none => some 0
  | some a => h[a]?.map PNode.height

/-- `n.size if n is not None else 0`. -/
def psize (h : PHeap κ β) : Option ℕ → Option ℕ
  | none => some 0
  | some a => h[a]?.map PNode.size

/-- `_PNode(key, val, left, right)`. -/
def newPNode (h : PHeap κ β) (key : κ) (val : β) (left right : Option ℕ) :
    Option (PHeap κ β × ℕ) := do
  let lh ← h.pheight left
  let rh ← h.pheight right
  let ls ← h.psize left
  let rs ← h.psize right
  some (h ++ [⟨key, val, left, right, 1 + (if lh > rh then lh else rh), 1 + ls + rs⟩], h.length)

def pbalance (h : PHeap κ β) (n : Option ℕ) : Option ℤ := do
  let nd ← h.load n
  let lh ← h.pheight nd.left
  let rh ← h.pheight nd.right
  some ((lh : ℤ) - rh)

def protateLeft (h : PHeap κ β) (n : Option ℕ) : Option (PHeap κ β × ℕ) := do
  let nd ← h.load n
  let r ← h.load nd.right
  let (h, newN) ← h.newPNode nd.key nd.val nd.left r.left
  newPNode h r.key r.val (some newN) r.right

def protateRight (h : PHeap κ β) (n : Option ℕ) : Option (PHeap κ β × ℕ) := do
  let nd ← h.load n
  let l ← h.load nd.left
  let (h, newN) ← h.newPNode nd.key nd.val l.right nd.right
  newPNode h l.key l.val l.left (some newN)

def prebalance (h : PHeap κ β) (n : ℕ) : Option (PHeap κ β × ℕ) := do
  let bf ← h.pbalance (some n)
  let nd ← h.load (some n)
  if 1 < bf then
    if (← h.pbalance nd.left) < 0 then
      let (h, l) ← h.protateLeft nd.left
      let (h, n) ← newPNode h nd.key nd.val (some l) nd.right
      protateRight h (some n)
    else
      h.protateRight (some n)
  else if bf < -1 then
    if 0 < (← h.pbalance nd.right) then
      let (h, r) ← h.protateRight nd.right
      let (h, n) ← newPNode h nd.key nd.val nd.left (some r)
      protateLeft h (some n)
    else
      h.protateLeft (some n)
  else
    some (h, n)

/-- `_pinsert`, with the depth of its recursion bounded by the first argument. -/
def pinsert [LinearOrder κ] (key : κ) (val : β) :
    ℕ → PHeap κ β → Option ℕ → Option (PHeap κ β × ℕ × Bool)
  | 0, _, _ => none
  | _ + 1, h, none => do
      let (h, a) ← h.newPNode key val none none
      some (h, a, true)
  | fuel + 1, h, some n => do
      let nd ← h[n]?
      if key = nd.key then
        let (h, a) ← h.newPNode key val nd.left nd.right
        some (h, a, false)
      else if key < nd.key then
        let (h, newLeft, isNew) ← pinsert key val fuel h nd.left
        let (h, merged) ← h.newPNode nd.key nd.val (some newLeft) nd.right
        let (h, a) ← prebalance h merged
        some (h, a, isNew)
      else
        let (h, newRight, isNew) ← pinsert key val fuel h nd.right
        let (h, merged) ← h.newPNode nd.key nd.val nd.left (some newRight)
        let (h, a) ← prebalance h merged
        some (h, a, isNew)

/-- `_pget`; the inner `none` is `_PMAP_MISSING`. -/
def pget [LinearOrder κ] (key : κ) : ℕ → PHeap κ β → Option ℕ → Option (Option β)
  | 0, _, _ => none
  | _ + 1, _, none => some none
  | fuel + 1, h, some n => do
      let nd ← h[n]?
      if key = nd.key then some (some nd.val)
      else pget key fuel h (if key < nd.key then nd.left else nd.right)

/-- `_pinorder` from its state: the explicit stack, top first, and `cur`. -/
def pinorder : ℕ → PHeap κ β → List ℕ → Option ℕ → Option (List (κ × β))
  | 0, _, _, _ => none
  | fuel + 1, h, stack, some n => do
      let nd ← h[n]?
      pinorder fuel h (n :: stack) nd.left
  | _ + 1, _, [], none => some []
  | fuel + 1, h, n :: stack, none => do
      let nd ← h[n]?
      let rest ← pinorder fuel h stack nd.right
      some ((nd.key, nd.val) :: rest)

/-! ## Trees behind references -/

/-- The reference stands for the tree. -/
inductive IsTree (h : PHeap κ β) : Option ℕ → AvlTree κ β → Prop where
  | nil : IsTree h none .nil
  | node {a : ℕ} {k : κ} {v : β} {left right : Option ℕ} {l r : AvlTree κ β} {hh s : ℕ}
      (hnd : h[a]? = some ⟨k, v, left, right, hh, s⟩)
      (hl : IsTree h left l) (hr : IsTree h right r) :
      IsTree h (some a) (.node k v l r hh s)

/-- Objects are never written, so a longer heap shows the same trees. -/
theorem IsTree.mono {h h' : PHeap κ β} {n : Option ℕ} {t : AvlTree κ β} (ht : IsTree h n t)
    (hext : h <+: h') : IsTree h' n t := by
  induction ht with
  | nil => exact .nil
  | node hnd _ _ ihl ihr =>
      obtain ⟨rest, rfl⟩ := hext
      exact .node (by rw [List.getElem?_append_left (List.getElem?_eq_some_iff.mp hnd).1, hnd])
        ihl ihr

theorem IsTree.pheight {h : PHeap κ β} {n : Option ℕ} {t : AvlTree κ β} (ht : IsTree h n t) :
    h.pheight n = some t.ht := by
  cases ht with
  | nil => rfl
  | node hnd _ _ => simp [PHeap.pheight, hnd]

theorem IsTree.psize {h : PHeap κ β} {n : Option ℕ} {t : AvlTree κ β} (ht : IsTree h n t) :
    h.psize n = some t.sz := by
  cases ht with
  | nil => rfl
  | node hnd _ _ => simp [PHeap.psize, hnd]

theorem newPNode_spec {h : PHeap κ β} {left right : Option ℕ} {l r : AvlTree κ β} (k : κ) (v : β)
    (hl : IsTree h left l) (hr : IsTree h right r) :
    ∃ h' a, h.newPNode k v left right = some (h', a) ∧ IsTree h' (some a) (.mk k v l r) ∧
      h <+: h' := by
  have hmax : (if l.ht > r.ht then l.ht else r.ht) = max l.ht r.ht := by
    split_ifs <;> omega
  have hext : h <+: h ++ [⟨k, v, left, right, 1 + max l.ht r.ht, 1 + l.sz + r.sz⟩] :=
    List.prefix_append _ _
  refine ⟨_, h.length, ?_, ?_, hext⟩
  · simp [newPNode, hl.pheight, hr.pheight, hl.psize, hr.psize, hmax]
  · exact .node (by simp) (hl.mono hext) (hr.mono hext)

theorem pbalance_spec {h : PHeap κ β} {n : Option ℕ} {k : κ} {v : β} {l r : AvlTree κ β}
    {hh s : ℕ} (ht : IsTree h n (.node k v l r hh s)) :
    h.pbalance n = some ((l.ht : ℤ) - r.ht) := by
  cases ht with
  | node hnd hl hr => simp [pbalance, load, hnd, hl.pheight, hr.pheight]

theorem protateLeft_spec {h : PHeap κ β} {n : Option ℕ} {k rk : κ} {v rv : β}
    {l rl rr : AvlTree κ β} {hh s rh rs : ℕ}
    (ht : IsTree h n (.node k v l (.node rk rv rl rr rh rs) hh s)) :
    ∃ h' a, h.protateLeft n = some (h', a) ∧
      IsTree h' (some a) (.mk rk rv (.mk k v l rl) rr) ∧ h <+: h' := by
  obtain _ | ⟨hnd, hl, hr⟩ := ht
  obtain _ | ⟨hrnd, hrl, hrr⟩ := hr
  obtain ⟨h₁, a₁, hnew, ht₁, hext₁⟩ := newPNode_spec _ _ hl hrl
  obtain ⟨h₂, a₂, hnew', ht₂, hext₂⟩ := newPNode_spec _ _ ht₁ (hrr.mono hext₁)
  exact ⟨h₂, a₂, by simp [protateLeft, load, hnd, hrnd, hnew, hnew'], ht₂,
    hext₁.trans hext₂⟩

theorem protateRight_spec {h : PHeap κ β} {n : Option ℕ} {k lk : κ} {v lv : β}
    {r ll lr : AvlTree κ β} {hh s lh ls : ℕ}
    (ht : IsTree h n (.node k v (.node lk lv ll lr lh ls) r hh s)) :
    ∃ h' a, h.protateRight n = some (h', a) ∧
      IsTree h' (some a) (.mk lk lv ll (.mk k v lr r)) ∧ h <+: h' := by
  obtain _ | ⟨hnd, hl, hr⟩ := ht
  obtain _ | ⟨hlnd, hll, hlr⟩ := hl
  obtain ⟨h₁, a₁, hnew, ht₁, hext₁⟩ := newPNode_spec _ _ hlr hr
  obtain ⟨h₂, a₂, hnew', ht₂, hext₂⟩ := newPNode_spec _ _ (hll.mono hext₁) ht₁
  exact ⟨h₂, a₂, by simp [protateRight, load, hnd, hlnd, hnew, hnew'], ht₂,
    hext₁.trans hext₂⟩

/-- `_prebalance` never touches an attribute of `None`: a side that is higher
by two has a child to rotate, and a child that leans inwards a grandchild. -/
theorem prebalance_spec {h : PHeap κ β} {n : ℕ} {k : κ} {v : β} {l r : AvlTree κ β}
    (ht : IsTree h (some n) (.mk k v l r)) :
    ∃ h' a, h.prebalance n = some (h', a) ∧ IsTree h' (some a) (rebalance k v l r) ∧
      h <+: h' := by
  have hbal := pbalance_spec ht
  have ht₀ := ht
  obtain _ | ⟨hnd, hl, hr⟩ := ht
  simp only [prebalance, hbal, load, Option.bind_eq_bind, Option.bind_some, hnd]
  rw [rebalance]
  by_cases hleft : 1 < (l.ht : ℤ) - r.ht
  · rw [if_pos hleft, if_pos hleft]
    rcases l with _ | ⟨lk, lv, ll, lr, lh, ls⟩
    · rw [ht_nil] at hleft
      omega
    rw [pbalance_spec hl, Option.bind_some, balance_node]
    by_cases hinner : (ll.ht : ℤ) - lr.ht < 0
    · rw [if_pos hinner, if_pos hinner]
      rcases lr with _ | ⟨ck, cv, cl, cr, ch, cs⟩
      · rw [ht_nil] at hinner
        omega
      obtain ⟨h₁, a₁, hrot, ht₁, hext₁⟩ := protateLeft_spec hl
      obtain ⟨h₂, a₂, hnew, ht₂, hext₂⟩ := newPNode_spec k v ht₁ (hr.mono hext₁)
      obtain ⟨h₃, a₃, hrot', ht₃, hext₃⟩ := protateRight_spec ht₂
      exact ⟨h₃, a₃, by simp [hrot, hnew, hrot'], ht₃, hext₁.trans (hext₂.trans hext₃)⟩
    · rw [if_neg hinner, if_neg hinner]
      exact protateRight_spec ht₀
  rw [if_neg hleft, if_neg hleft]
  by_cases hright : (l.ht : ℤ) - r.ht < -1
  · rw [if_pos hright, if_pos hright]
    rcases r with _ | ⟨rk, rv, rl, rr, rh, rs⟩
    · rw [ht_nil] at hright
      omega
    rw [pbalance_spec hr, Option.bind_some, balance_node]
    by_cases hinner : 0 < (rl.ht : ℤ) - rr.ht
    · rw [if_pos hinner, if_pos hinner]
      rcases rl with _ | ⟨ck, cv, cl, cr, ch, cs⟩
      · rw [ht_nil] at hinner
        omega
      obtain ⟨h₁, a₁, hrot, ht₁, hext₁⟩ := protateRight_spec hr
      obtain ⟨h₂, a₂, hnew, ht₂, hext₂⟩ := newPNode_spec k v (hl.mono hext₁) ht₁
      obtain ⟨h₃, a₃, hrot', ht₃, hext₃⟩ := protateLeft_spec ht₂
      exact ⟨h₃, a₃, by simp [hrot, hnew, hrot'], ht₃, hext₁.trans (hext₂.trans hext₃)⟩
    · rw [if_neg hinner, if_neg hinner]
      exact protateLeft_spec ht₀
  · rw [if_neg hright, if_neg hright]
    exact ⟨h, n, rfl, ht₀, List.prefix_refl _⟩

/-- Given fuel beyond the depth of the tree, `_pinsert` builds the tree with
the binding inserted next to all the trees that are already there. -/
theorem pinsert_spec [LinearOrder κ] {h : PHeap κ β} {n : Option ℕ} {t : AvlTree κ β}
    (k : κ) (v : β) (ht : IsTree h n t) {fuel : ℕ} (hfuel : t.depth < fuel) :
    ∃ h' a, pinsert k v fuel h n = some (h', a, (t.insert k v).2) ∧
      IsTree h' (some a) (t.insert k v).1 ∧ h <+: h' := by
  induction t generalizing h n fuel with
  | nil =>
      obtain ⟨fuel, rfl⟩ := Nat.exists_eq_add_of_lt hfuel
      obtain _ | _ := ht
      obtain ⟨h', a, hnew, ht', hext⟩ := newPNode_spec k v (IsTree.nil (h := h)) .nil
      exact ⟨h', a, by simp [pinsert, hnew, AvlTree.insert], ht', hext⟩
  | node key val l r hh s ihl ihr =>
      rw [depth_node] at hfuel
      obtain ⟨fuel, rfl⟩ := Nat.exists_eq_add_of_lt hfuel
      obtain _ | ⟨hnd, hl, hr⟩ := ht
      simp only [pinsert, hnd, Option.bind_eq_bind, Option.bind_some, AvlTree.insert]
      by_cases heq : k = key
      · rw [if_pos heq, if_pos heq]
        obtain ⟨h', a, hnew, ht', hext⟩ := newPNode_spec k v hl hr
        exact ⟨h', a, by simp [hnew], ht', hext⟩
      rw [if_neg heq, if_neg heq]
      by_cases hlt : k < key
      · rw [if_pos hlt, if_pos hlt]
        obtain ⟨h₁, a₁, hins, ht₁, hext₁⟩ :=
          ihl hl (show l.depth < 1 + max l.depth r.depth + fuel by omega)
        obtain ⟨h₂, a₂, hnew, ht₂, hext₂⟩ := newPNode_spec key val ht₁ (hr.mono hext₁)
        obtain ⟨h₃, a₃, hreb, ht₃, hext₃⟩ := prebalance_spec ht₂
        exact ⟨h₃, a₃, by simp [hins, hnew, hreb], ht₃, hext₁.trans (hext₂.trans hext₃)⟩
      · rw [if_neg hlt, if_neg hlt]
        obtain ⟨h₁, a₁, hins, ht₁, hext₁⟩ :=
          ihr hr (show r.depth < 1 + max l.depth r.depth + fuel by omega)
        obtain ⟨h₂, a₂, hnew, ht₂, hext₂⟩ := newPNode_spec key val (hl.mono hext₁) ht₁
        obtain ⟨h₃, a₃, hreb, ht₃, hext₃⟩ := prebalance_spec ht₂
        exact ⟨h₃, a₃, by simp [hins, hnew, hreb], ht₃, hext₁.trans (hext₂.trans hext₃)⟩

theorem pget_spec [LinearOrder κ] {h : PHeap κ β} {n : Option ℕ} {t : AvlTree κ β} (k : κ)
    (ht : IsTree h n t) {fuel : ℕ} (hfuel : t.depth < fuel) :
    pget k fuel h n = some (t.lookup k) := by
  induction t generalizing n fuel with
  | nil =>
      obtain ⟨fuel, rfl⟩ := Nat.exists_eq_add_of_lt hfuel
      obtain _ | _ := ht
      rfl
  | node key val l r hh s ihl ihr =>
      rw [depth_node] at hfuel
      obtain ⟨fuel, rfl⟩ := Nat.exists_eq_add_of_lt hfuel
      obtain _ | ⟨hnd, hl, hr⟩ := ht
      simp only [pget, hnd, Option.bind_eq_bind, Option.bind_some, lookup]
      split_ifs with heq hlt
      · rfl
      · exact ihl hl (by omega)
      · exact ihr hr (by omega)

/-- The walk of one subtree, two turns of the loop for each node, leaves the
rest of the walk to the stack it found. -/
theorem pinorder_subtree {h : PHeap κ β} {n : Option ℕ} {t : AvlTree κ β} (ht : IsTree h n t)
    (fuel : ℕ) (stack : List ℕ) :
    pinorder (2 * t.toList.length + (fuel + 1)) h stack n =
      (pinorder (fuel + 1) h stack none).map (t.toList ++ ·) := by
  induction ht generalizing fuel stack with
  | nil => simp
  | @node a k v left right l r hh s hnd _ _ ihl ihr =>
      have hfuel : 2 * (l.toList ++ (k, v) :: r.toList).length + (fuel + 1) =
          2 * l.toList.length + (2 * r.toList.length + fuel + 1 + 1) + 1 := by
        simp only [List.length_append, List.length_cons]
        omega
      rw [toList_node, hfuel, pinorder]
      simp only [hnd, Option.bind_eq_bind, Option.bind_some, ihl]
      rw [pinorder]
      simp only [hnd, Option.bind_eq_bind, Option.bind_some]
      rw [Nat.add_assoc, ihr]
      cases pinorder (fuel + 1) h stack none <;> simp

theorem pinorder_spec {h : PHeap κ β} {n : Option ℕ} {t : AvlTree κ β} (ht : IsTree h n t)
    {fuel : ℕ} (hfuel : 2 * t.toList.length < fuel) :
    pinorder fuel h [] n = some t.toList := by
  obtain ⟨fuel, rfl⟩ := Nat.exists_eq_add_of_lt hfuel
  rw [Nat.add_assoc, pinorder_subtree ht]
  simp [pinorder]

end PHeap

/-! ## The map object -/

/-- A `PMap` object: the reference in its `_root`. -/
structure PMap where
  root : Option ℕ
deriving DecidableEq, Repr

namespace PMap

/-- `PMap()`. -/
def empty : PMap := ⟨none⟩

/-- `put`; a path is never longer than the stored height. -/
def put [LinearOrder κ] (h : PHeap κ β) (m : PMap) (key : κ) (val : β) :
    Option (PHeap κ β × PMap) := do
  let height ← h.pheight m.root
  let (h, a, _) ← PHeap.pinsert key val (height + 1) h m.root
  some (h, ⟨some a⟩)

/-- `get`, where the default `None` and a missing key are one answer. -/
def get [LinearOrder κ] (h : PHeap κ β) (m : PMap) (key : κ) : Option (Option β) := do
  let height ← h.pheight m.root
  PHeap.pget key (height + 1) h m.root

/-- `__len__`. -/
def len (h : PHeap κ β) (m : PMap) : Option ℕ := h.psize m.root

/-- `items()`, of which `__iter__` yields the keys; each node takes two turns of the loop and the
end one more. -/
def items (h : PHeap κ β) (m : PMap) : Option (List (κ × β)) := do
  let size ← h.psize m.root
  PHeap.pinorder (2 * size + 1) h [] m.root

/-- `for k, v in pairs: m = m.put(k, v)`. -/
def putAll [LinearOrder κ] (h : PHeap κ β) (m : PMap) (pairs : List (κ × β)) :
    Option (PHeap κ β × PMap) :=
  pairs.foldlM (fun (h, m) (k, v) ↦ put h m k v) (h, m)

/-- `from_dict`, on the items of the dict in their order. -/
def fromDict [LinearOrder κ] (h : PHeap κ β) (d : List (κ × β)) : Option (PHeap κ β × PMap) :=
  putAll h empty d

def mergedWith [LinearOrder κ] (h : PHeap κ β) (m other : PMap) :
    Option (PHeap κ β × PMap) := do
  let pairs ← other.items h
  m.putAll h pairs

/-- The map object stands for a balanced search tree whose lookups are `f`. -/
def Denotes [LinearOrder κ] (h : PHeap κ β) (m : PMap) (f : κ → Option β) : Prop :=
  ∃ t, h.IsTree m.root t ∧ t.Balanced ∧ t.Ordered ∧ ∀ k, t.lookup k = f k

section Denotes

variable [LinearOrder κ] {h : PHeap κ β} {m : PMap} {f : κ → Option β}

theorem denotes_empty (h : PHeap κ β) : empty.Denotes h (fun _ ↦ none) :=
  ⟨.nil, .nil, trivial, .nil, fun _ ↦ rfl⟩

theorem Denotes.mono (hm : m.Denotes h f) {h' : PHeap κ β} (hext : h <+: h') :
    m.Denotes h' f := by
  obtain ⟨t, ht, hb, ho, hf⟩ := hm
  exact ⟨t, ht.mono hext, hb, ho, hf⟩

theorem Denotes.get (hm : m.Denotes h f) (k : κ) : m.get h k = some (f k) := by
  obtain ⟨t, ht, hb, -, hf⟩ := hm
  have hfuel : t.depth < t.ht + 1 := by rw [hb.ht_eq]; omega
  simp [PMap.get, ht.pheight, PHeap.pget_spec k ht hfuel, hf]

theorem Denotes.len (hm : m.Denotes h f) : m.len h = some {k | f k ≠ none}.ncard := by
  obtain ⟨t, ht, hb, ho, hf⟩ := hm
  rw [PMap.len, ht.psize, ← ncard_lookup hb ho]
  simp only [hf]

/-- Iteration yields every binding once, keys strictly increasing. -/
theorem Denotes.items (hm : m.Denotes h f) :
    ∃ pairs, m.items h = some pairs ∧ (pairs.map Prod.fst).Pairwise (· < ·) ∧
      ∀ k v, (k, v) ∈ pairs ↔ f k = some v := by
  obtain ⟨t, ht, hb, ho, hf⟩ := hm
  have hfuel : 2 * t.toList.length < 2 * t.sz + 1 := by rw [hb.sz_eq]; omega
  refine ⟨t.toList, by simp [PMap.items, ht.psize, PHeap.pinorder_spec ht hfuel], ho, ?_⟩
  intro k v
  rw [← hf, lookup_eq_some_iff ho]

theorem put_spec (hm : m.Denotes h f) (k : κ) (v : β) :
    ∃ h' m', m.put h k v = some (h', m') ∧ m'.Denotes h' (Function.update f k (some v)) ∧
      h <+: h' := by
  obtain ⟨t, ht, hb, ho, hf⟩ := hm
  have hfuel : t.depth < t.ht + 1 := by rw [hb.ht_eq]; omega
  obtain ⟨h', a, hins, ht', hext⟩ := PHeap.pinsert_spec k v ht hfuel
  refine ⟨h', ⟨some a⟩, by simp [put, ht.pheight, hins], ?_, hext⟩
  refine ⟨_, ht', (insert_balanced k v hb).1, insert_ordered k v ho, fun k' ↦ ?_⟩
  rw [lookup_insert k v ho, Function.update_apply, hf]

/-- The map model of a loop of `put`s. -/
def putAllModel (f : κ → Option β) (pairs : List (κ × β)) : κ → Option β :=
  pairs.foldl (fun f p ↦ Function.update f p.1 (some p.2)) f

theorem putAll_spec (hm : m.Denotes h f) (pairs : List (κ × β)) :
    ∃ h' m', m.putAll h pairs = some (h', m') ∧ m'.Denotes h' (putAllModel f pairs) ∧
      h <+: h' := by
  induction pairs generalizing h m f with
  | nil => exact ⟨h, m, rfl, hm, List.prefix_refl _⟩
  | cons p pairs ih =>
      obtain ⟨h₁, m₁, hput, hm₁, hext₁⟩ := put_spec hm p.1 p.2
      obtain ⟨h₂, m₂, hrest, hm₂, hext₂⟩ := ih hm₁
      refine ⟨h₂, m₂, ?_, hm₂, hext₁.trans hext₂⟩
      simpa [putAll, hput] using hrest

/-- Bindings with distinct keys overlay the map they are put into. -/
theorem putAllModel_of_nodup {pairs : List (κ × β)} {g : κ → Option β}
    (hnodup : (pairs.map Prod.fst).Nodup) (hg : ∀ k v, (k, v) ∈ pairs ↔ g k = some v) (k : κ) :
    putAllModel f pairs k = (g k).or (f k) := by
  have hskip : ∀ (pairs : List (κ × β)) (f : κ → Option β), (∀ v, (k, v) ∉ pairs) →
      putAllModel f pairs k = f k := by
    intro pairs
    induction pairs with
    | nil => exact fun _ _ ↦ rfl
    | cons p pairs ih =>
        intro f hk
        have hne : k ≠ p.1 := fun heq ↦ hk p.2 (by simp [heq])
        have hrest := ih (Function.update f p.1 (some p.2)) fun v hv ↦ hk v (by simp [hv])
        simpa [putAllModel, Function.update_of_ne hne] using hrest
  cases hgk : g k with
  | none =>
      have habsent : ∀ v, (k, v) ∉ pairs := fun v hv ↦ by simpa [hgk] using (hg k v).mp hv
      simpa using hskip pairs f habsent
  | some v =>
      obtain ⟨pre, post, rfl⟩ := List.append_of_mem ((hg k v).mpr hgk)
      have hpost : ∀ w, (k, w) ∉ post := by
        intro w hw
        have hk : k ∉ post.map Prod.fst := by
          rw [List.map_append, List.nodup_append] at hnodup
          exact (List.nodup_cons.mp hnodup.2.1).1
        exact hk (List.mem_map_of_mem (f := Prod.fst) hw)
      have hlast := hskip post (Function.update (putAllModel f pre) k (some v)) hpost
      simpa [putAllModel] using hlast

theorem mergedWith_spec (hm : m.Denotes h f) {other : PMap} {g : κ → Option β}
    (ho : other.Denotes h g) :
    ∃ h' m', m.mergedWith h other = some (h', m') ∧ m'.Denotes h' (fun k ↦ (g k).or (f k)) ∧
      h <+: h' := by
  obtain ⟨pairs, hitems, hsorted, hmem⟩ := ho.items
  obtain ⟨h', m', hput, hm', hext⟩ := putAll_spec hm pairs
  have hmodel : putAllModel f pairs = fun k ↦ (g k).or (f k) :=
    funext (putAllModel_of_nodup (hsorted.imp fun hlt ↦ ne_of_lt hlt) hmem)
  exact ⟨h', m', by simp [mergedWith, hitems, hput], hmodel ▸ hm', hext⟩

end Denotes

end PMap

end NucLlm.Whence
