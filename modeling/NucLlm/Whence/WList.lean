import NucLlm.Lib.Machine
import Mathlib.Data.List.Infix

/-!
# Persistent lists over shared buffers

A `WList` is a length-bounded view of a Python list that other views may share.
`push` and `concat` grow the buffer in place when the view ends where the
buffer ends and copy it otherwise.  Buffers live in a heap, addressed by
position; a view is an address and a length.  Host failures (a bad index) are
`none`.
-/

namespace NucLlm.Whence

variable {α : Type*}

/-- The Python lists behind the views, by address. -/
abbrev Buffers (α : Type*) := List (List α)

namespace Buffers

/-- `list.append`, in place. -/
def append (h : Buffers α) (addr : ℕ) (x : α) : Buffers α :=
  h.modify addr (· ++ [x])

/-- Every buffer of `h` is still there in `h'`, grown at its end at most. -/
def Extends (h h' : Buffers α) : Prop :=
  ∀ (addr : ℕ) (buf : List α), h[addr]? = some buf → ∃ more, h'[addr]? = some (buf ++ more)

instance : IsPreorder (Buffers α) Extends where
  refl h addr buf hbuf := ⟨[], by simpa using hbuf⟩
  trans h₁ h₂ h₃ h₁₂ h₂₃ addr buf hbuf := by
    obtain ⟨xs, hxs⟩ := h₁₂ addr buf hbuf
    obtain ⟨ys, hys⟩ := h₂₃ addr _ hxs
    exact ⟨xs ++ ys, by simpa using hys⟩

theorem extends_alloc (h : Buffers α) (items : List α) : h.Extends (h ++ [items]) := by
  intro addr buf hbuf
  have hlt : addr < h.length := (List.getElem?_eq_some_iff.mp hbuf).1
  exact ⟨[], by simpa [List.getElem?_append_left hlt] using hbuf⟩

theorem getElem?_append_self {h : Buffers α} {addr : ℕ} {buf : List α} (x : α)
    (hbuf : h[addr]? = some buf) : (h.append addr x)[addr]? = some (buf ++ [x]) := by
  simp [append, hbuf]

theorem extends_append (h : Buffers α) (addr : ℕ) (x : α) : h.Extends (h.append addr x) := by
  intro a buf hbuf
  by_cases ha : a = addr
  · subst ha
    exact ⟨[x], getElem?_append_self x hbuf⟩
  · refine ⟨[], ?_⟩
    simpa [append, List.getElem?_modify, Ne.symm ha] using hbuf

end Buffers

/-- A `WList` object: the buffer it looks into and how much of it it shows. -/
structure WList where
  buf : ℕ
  n : ℕ
deriving DecidableEq, Repr

namespace WList

/-- `WList(items)` on a fresh Python list. -/
def alloc (h : Buffers α) (items : List α) : Buffers α × WList :=
  (h ++ [items], ⟨h.length, items.length⟩)

def len (w : WList) : ℕ := w.n

/-- `__getitem__`; the `IndexError` is `none`. -/
def getItem (h : Buffers α) (w : WList) (i : ℕ) : Option α :=
  if w.n ≤ i then none else h[w.buf]? >>= (·[i]?)

/-- `to_list`: the slice `buf[:n]`. -/
def toList (h : Buffers α) (w : WList) : Option (List α) :=
  h[w.buf]?.map (·.take w.n)

def head (h : Buffers α) (w : WList) (k : ℕ) : Option (List α) :=
  h[w.buf]?.map (·.take (min k w.n))

def push (h : Buffers α) (w : WList) (x : α) : Option (Buffers α × WList) := do
  let buf ← h[w.buf]?
  if buf.length = w.n then
    some (h.append w.buf x, ⟨w.buf, w.n + 1⟩)
  else
    some (alloc h (buf.take w.n ++ [x]))

/-- The loop of `list.extend` over `__iter__`: `k` elements of `other` remain,
the next one at index `i`, and each is read after the previous one was
appended, which matters when both views share the buffer `dst`. -/
def extendLoop (h : Buffers α) (dst : ℕ) (other : WList) : ℕ → ℕ → Option (Buffers α)
  | _, 0 => some h
  | i, k + 1 => do
      let buf ← h[other.buf]?
      let x ← buf[i]?
      extendLoop (h.append dst x) dst other (i + 1) k

/-- `list(other)`, the same iteration without a write. -/
def listLoop (h : Buffers α) (other : WList) : ℕ → ℕ → Option (List α)
  | _, 0 => some []
  | i, k + 1 => do
      let buf ← h[other.buf]?
      let x ← buf[i]?
      let xs ← listLoop h other (i + 1) k
      some (x :: xs)

def concat (h : Buffers α) (w other : WList) : Option (Buffers α × WList) := do
  let buf ← h[w.buf]?
  if buf.length = w.n then
    let h' ← extendLoop h w.buf other 0 other.n
    let buf' ← h'[w.buf]?
    some (h', ⟨w.buf, buf'.length⟩)
  else
    let items ← listLoop h other 0 other.n
    some (alloc h (buf.take w.n ++ items))

/-- The view `w` shows exactly `xs`: the buffer exists, reaches as far as the
view, and its first `n` elements are `xs`. -/
def Shows (h : Buffers α) (w : WList) (xs : List α) : Prop :=
  xs.length = w.n ∧ ∃ more, h[w.buf]? = some (xs ++ more)

theorem Shows.mono {h h' : Buffers α} {w : WList} {xs : List α}
    (hw : Shows h w xs) (hext : h.Extends h') : Shows h' w xs := by
  obtain ⟨hlen, more, hbuf⟩ := hw
  obtain ⟨rest, hbuf'⟩ := hext _ _ hbuf
  exact ⟨hlen, more ++ rest, by simpa using hbuf'⟩

theorem Shows.toList {h : Buffers α} {w : WList} {xs : List α} (hw : Shows h w xs) :
    w.toList h = some xs := by
  obtain ⟨hlen, more, hbuf⟩ := hw
  simp [WList.toList, hbuf, ← hlen]

theorem Shows.getItem {h : Buffers α} {w : WList} {xs : List α} (hw : Shows h w xs) (i : ℕ) :
    w.getItem h i = xs[i]? := by
  obtain ⟨hlen, more, hbuf⟩ := hw
  by_cases hi : w.n ≤ i
  · have hnone : xs[i]? = none := List.getElem?_eq_none (by omega)
    simp [WList.getItem, hi, hnone]
  · have hlt : i < xs.length := by omega
    simp [WList.getItem, hi, hbuf, List.getElem?_append_left hlt]

theorem Shows.head {h : Buffers α} {w : WList} {xs : List α} (hw : Shows h w xs) (k : ℕ) :
    w.head h k = some (xs.take k) := by
  obtain ⟨hlen, more, hbuf⟩ := hw
  have hmin : min k w.n ≤ xs.length := by omega
  rw [WList.head, hbuf, Option.map_some, List.take_append_of_le_length hmin, ← hlen,
    List.take_eq_take_min (i := k)]

theorem shows_alloc (h : Buffers α) (items : List α) :
    Shows (alloc h items).1 (alloc h items).2 items :=
  ⟨rfl, [], by simp [alloc]⟩

/-- Appending to a buffer that ends with the view gives the longer view. -/
theorem shows_append_tip {h : Buffers α} {addr : ℕ} {xs : List α} (x : α)
    (hbuf : h[addr]? = some xs) :
    Shows (h.append addr x) ⟨addr, xs.length + 1⟩ (xs ++ [x]) :=
  ⟨by simp, [], by simpa using Buffers.getElem?_append_self x hbuf⟩

/-- `push` never fails on a view, shows the longer list and leaves every buffer
a prefix of what it becomes. -/
theorem push_spec {h : Buffers α} {w : WList} {xs : List α} (hw : Shows h w xs) (x : α) :
    ∃ h' w', w.push h x = some (h', w') ∧ Shows h' w' (xs ++ [x]) ∧ h.Extends h' := by
  obtain ⟨hlen, more, hbuf⟩ := hw
  by_cases htip : (xs ++ more).length = w.n
  · have hmore : more = [] := by
      rw [List.length_append] at htip
      exact List.eq_nil_of_length_eq_zero (by omega)
    subst hmore
    rw [List.append_nil] at hbuf
    refine ⟨h.append w.buf x, ⟨w.buf, w.n + 1⟩, ?_, ?_, h.extends_append w.buf x⟩
    · simp [push, hbuf, hlen]
    · simpa [hlen] using shows_append_tip x hbuf
  · refine ⟨_, _, ?_, shows_alloc h (xs ++ [x]), h.extends_alloc _⟩
    have htake : (xs ++ more).take w.n = xs := by rw [← hlen, List.take_left]
    simp [push, hbuf, htake, -List.length_append, htip]

theorem listLoop_spec {h : Buffers α} {w : WList} {xs more : List α}
    (hbuf : h[w.buf]? = some (xs ++ more)) (i k : ℕ) (hik : i + k = xs.length) :
    listLoop h w i k = some (xs.drop i) := by
  induction k generalizing i with
  | zero => simp [listLoop, List.drop_eq_nil_of_le (show xs.length ≤ i by omega)]
  | succ k ih =>
      have hlt : i < xs.length := by omega
      simp [listLoop, hbuf, List.getElem?_append_left hlt, List.getElem?_eq_getElem hlt,
        ih (i + 1) (by omega)]

/-- The element read at each turn of the loop is one of the elements `other`
showed before the loop began, also when the loop itself grows its buffer. -/
theorem extendLoop_spec {h : Buffers α} {dst : ℕ} {other : WList} {buf ys : List α}
    (hdst : h[dst]? = some buf) (hys : Shows h other ys) (i k : ℕ)
    (hik : i + k = ys.length) :
    ∃ h', extendLoop h dst other i k = some h' ∧ h'[dst]? = some (buf ++ ys.drop i) ∧
      h.Extends h' := by
  induction k generalizing h buf i with
  | zero =>
      refine ⟨h, rfl, ?_, refl h⟩
      rw [List.drop_eq_nil_of_le (by omega), List.append_nil, hdst]
  | succ k ih =>
      have hlt : i < ys.length := by omega
      have hget : h[other.buf]? >>= (·[i]?) = some ys[i] := by
        have hread := hys.getItem i
        rw [WList.getItem, if_neg (by have := hys.1; omega)] at hread
        rw [hread, List.getElem?_eq_getElem hlt]
      obtain ⟨obuf, hobuf, hx⟩ := Option.bind_eq_some_iff.mp hget
      have hext := h.extends_append dst ys[i]
      obtain ⟨h', hloop, hbuf', hext'⟩ :=
        ih (Buffers.getElem?_append_self ys[i] hdst) (hys.mono hext) (i + 1) (by omega)
      refine ⟨h', ?_, ?_, IsTrans.trans _ _ _ hext hext'⟩
      · simp [extendLoop, hobuf, hx, hloop]
      · rw [hbuf', List.append_assoc, List.singleton_append, List.cons_getElem_drop_succ]

/-- `concat` never fails on two views, which may be the same one or share their
buffer, and shows the concatenation. -/
theorem concat_spec {h : Buffers α} {w other : WList} {xs ys : List α}
    (hw : Shows h w xs) (ho : Shows h other ys) :
    ∃ h' w', w.concat h other = some (h', w') ∧ Shows h' w' (xs ++ ys) ∧ h.Extends h' := by
  obtain ⟨hlen, more, hbuf⟩ := hw
  by_cases htip : (xs ++ more).length = w.n
  · have hmore : more = [] := by
      rw [List.length_append] at htip
      exact List.eq_nil_of_length_eq_zero (by omega)
    subst hmore
    rw [List.append_nil] at hbuf
    obtain ⟨h', hloop, hbuf', hext⟩ :=
      extendLoop_spec hbuf ho 0 other.n (by have := ho.1; omega)
    rw [List.drop_zero] at hbuf'
    refine ⟨h', ⟨w.buf, (xs ++ ys).length⟩, ?_, ⟨rfl, [], by simpa using hbuf'⟩, hext⟩
    simp [concat, hbuf, hlen, hloop, hbuf']
  · obtain ⟨holen, omore, hobuf⟩ := ho
    have hitems := listLoop_spec hobuf 0 other.n (by omega)
    rw [List.drop_zero] at hitems
    have htake : (xs ++ more).take w.n = xs := by rw [← hlen, List.take_left]
    refine ⟨_, _, ?_, shows_alloc h (xs ++ ys), h.extends_alloc _⟩
    simp [concat, hbuf, htake, hitems, -List.length_append, htip]

end WList

end NucLlm.Whence
