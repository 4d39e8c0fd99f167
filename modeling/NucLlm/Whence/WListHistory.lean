import NucLlm.Lib.Lists
import NucLlm.Whence.WList

/-!
# Histories of list values

A history creates lists, pushes and concatenates earlier ones in any order and
interleaves all of it with iterations that are under way.  The pure model keeps
each list as a value; the machine over shared buffers shows the same values at
every later moment.
-/

namespace NucLlm.Whence.ListHistory

open NucLlm.Lists

variable {α : Type*}

/-- One operation; earlier lists and iterators are named by creation order. -/
inductive Op (α : Type*) where
  | create (items : List α)
  | push (v : ℕ) (x : α)
  | concat (v v' : ℕ)
  | iter (v : ℕ)
  | next (k : ℕ)
deriving DecidableEq, Repr

/-- A suspended `__iter__`: the view it walks and its index `i`. -/
structure Iter where
  view : WList
  i : ℕ
deriving DecidableEq, Repr

structure State (α : Type*) where
  heap : Buffers α
  views : List WList
  iters : List Iter
  yields : List (Option α)
deriving DecidableEq, Repr

def State.init : State α := ⟨[], [], [], []⟩

/-- `next(it)`: yield `buf[i]` and advance while `i < n`, else stop. -/
def Iter.next (h : Buffers α) (it : Iter) : Option (Option α × Iter) :=
  if it.i < it.view.n then do
    let buf ← h[it.view.buf]?
    let x ← buf[it.i]?
    some (some x, { it with i := it.i + 1 })
  else some (none, it)

/-- One operation on the shared buffers.  A name that is not there is no
operation at all; `none` is a host exception. -/
def exec (s : State α) : Op α → Option (State α)
  | .create items =>
      let (h, w) := WList.alloc s.heap items
      some { s with heap := h, views := s.views ++ [w] }
  | .push v x =>
      match s.views[v]? with
      | none => some s
      | some w => do
          let (h, w') ← w.push s.heap x
          some { s with heap := h, views := s.views ++ [w'] }
  | .concat v v' =>
      match s.views[v]?, s.views[v']? with
      | some w, some other => do
          let (h, w') ← w.concat s.heap other
          some { s with heap := h, views := s.views ++ [w'] }
      | _, _ => some s
  | .iter v =>
      match s.views[v]? with
      | none => some s
      | some w => some { s with iters := s.iters ++ [⟨w, 0⟩] }
  | .next k =>
      match s.iters[k]? with
      | none => some s
      | some it => do
          let (y, it') ← it.next s.heap
          some { s with iters := s.iters.set k it', yields := s.yields ++ [y] }

/-- The pure model: lists are values, an iterator is what it has left. -/
structure Pure (α : Type*) where
  lists : List (List α)
  iters : List (List α)
  yields : List (Option α)
deriving DecidableEq, Repr

def Pure.init : Pure α := ⟨[], [], []⟩

def spec (p : Pure α) : Op α → Pure α
  | .create items => { p with lists := p.lists ++ [items] }
  | .push v x =>
      match p.lists[v]? with
      | none => p
      | some xs => { p with lists := p.lists ++ [xs ++ [x]] }
  | .concat v v' =>
      match p.lists[v]?, p.lists[v']? with
      | some xs, some ys => { p with lists := p.lists ++ [xs ++ ys] }
      | _, _ => p
  | .iter v =>
      match p.lists[v]? with
      | none => p
      | some xs => { p with iters := p.iters ++ [xs] }
  | .next k =>
      match p.iters[k]? with
      | none => p
      | some xs => { p with iters := p.iters.set k xs.tail, yields := p.yields ++ [xs.head?] }

/-- The pure model only ever adds lists: what is there stays as it is. -/
theorem spec_mono (p : Pure α) (op : Op α) : p.lists <+: (spec p op).lists := by
  cases op with
  | create items => exact List.prefix_append _ _
  | push v x => simp only [spec]; split <;> simp
  | concat v v' => simp only [spec]; split <;> simp
  | iter v => simp only [spec]; split <;> exact List.prefix_refl _
  | next k => simp only [spec]; split <;> exact List.prefix_refl _

theorem foldl_spec_mono (ops : List (Op α)) (p : Pure α) :
    p.lists <+: (ops.foldl spec p).lists := by
  induction ops generalizing p with
  | nil => exact List.prefix_refl _
  | cons op ops ih => exact (spec_mono p op).trans (ih (spec p op))

/-- The iterator has `xs` left of the list its view shows. -/
def Iter.Left (h : Buffers α) (it : Iter) (xs : List α) : Prop :=
  ∃ all, it.view.Shows h all ∧ xs = all.drop it.i

/-- Views and iterators stand for the pure lists, one by one. -/
structure Rel (s : State α) (p : Pure α) : Prop where
  views : List.Forall₂ (fun w xs ↦ w.Shows s.heap xs) s.views p.lists
  iters : List.Forall₂ (fun it xs ↦ it.Left s.heap xs) s.iters p.iters
  yields : s.yields = p.yields

/-- A later state keeps every view object and grows buffers at most. -/
structure Ext (s s' : State α) : Prop where
  heap : s.heap.Extends s'.heap
  views : s.views <+: s'.views

instance : IsPreorder (State α) Ext where
  refl s := ⟨refl s.heap, List.prefix_refl _⟩
  trans _ _ _ h h' := ⟨IsTrans.trans _ _ _ h.heap h'.heap, h.views.trans h'.views⟩

theorem Rel.init : Rel (State.init : State α) Pure.init :=
  ⟨.nil, .nil, rfl⟩

section Steps

variable {s : State α} {p : Pure α}

theorem Rel.views_mono (hr : Rel s p) {h' : Buffers α} (hext : s.heap.Extends h') :
    List.Forall₂ (fun w xs ↦ WList.Shows h' w xs) s.views p.lists :=
  hr.views.imp fun _ _ hw ↦ hw.mono hext

theorem Rel.iters_mono (hr : Rel s p) {h' : Buffers α} (hext : s.heap.Extends h') :
    List.Forall₂ (fun it xs ↦ Iter.Left h' it xs) s.iters p.iters :=
  hr.iters.imp fun _ _ ⟨all, hw, hxs⟩ ↦ ⟨all, hw.mono hext, hxs⟩

/-- Adding a view that shows `xs` on an extended heap matches adding `xs`. -/
theorem Rel.addView (hr : Rel s p) {h' : Buffers α} {w : WList} {xs : List α}
    (hw : w.Shows h' xs) (hext : s.heap.Extends h') :
    Rel { s with heap := h', views := s.views ++ [w] } { p with lists := p.lists ++ [xs] } ∧
      Ext s { s with heap := h', views := s.views ++ [w] } :=
  ⟨⟨forall₂_concat (hr.views_mono hext) hw, hr.iters_mono hext, hr.yields⟩,
    ⟨hext, List.prefix_append _ _⟩⟩

/-- An iterator under way yields the next element of the list its view showed
when it began, whatever has happened to the buffer since. -/
theorem Iter.next_spec {h : Buffers α} {it : Iter} {xs : List α} (hit : it.Left h xs) :
    ∃ it', it.next h = some (xs.head?, it') ∧ it'.Left h xs.tail := by
  obtain ⟨all, hw, rfl⟩ := hit
  have hlen := hw.1
  by_cases hi : it.i < it.view.n
  · have hlt : it.i < all.length := by omega
    obtain ⟨-, more, hbuf⟩ := hw
    refine ⟨{ it with i := it.i + 1 }, ?_, all, ⟨hlen, more, hbuf⟩, by simp⟩
    simp [Iter.next, hi, hbuf, List.getElem?_append_left hlt, List.getElem?_eq_getElem hlt]
  · have hnil : all.drop it.i = [] := List.drop_eq_nil_of_le (by omega)
    exact ⟨it, by simp [Iter.next, hi, hnil], all, hw, by simp [hnil]⟩

theorem exec_refines (hr : Rel s p) (op : Op α) :
    ∃ s', exec s op = some s' ∧ Rel s' (spec p op) ∧ Ext s s' := by
  cases op with
  | create items =>
      exact ⟨_, rfl, hr.addView (WList.shows_alloc s.heap items) (s.heap.extends_alloc items)⟩
  | push v x =>
      rcases forall₂_getElem? hr.views v with ⟨hs, hp⟩ | ⟨w, xs, hs, hp, hw⟩
      · exact ⟨s, by simp [exec, hs], by simpa [spec, hp] using hr, refl s⟩
      · obtain ⟨h', w', hpush, hw', hext⟩ := WList.push_spec hw x
        refine ⟨{ s with heap := h', views := s.views ++ [w'] }, by simp [exec, hs, hpush], ?_⟩
        simpa [spec, hp] using hr.addView hw' hext
  | concat v v' =>
      rcases forall₂_getElem? hr.views v with ⟨hs, hp⟩ | ⟨w, xs, hs, hp, hw⟩
      · exact ⟨s, by simp [exec, hs], by simpa [spec, hp] using hr, refl s⟩
      · rcases forall₂_getElem? hr.views v' with ⟨hs', hp'⟩ | ⟨other, ys, hs', hp', ho⟩
        · exact ⟨s, by simp [exec, hs, hs'], by simpa [spec, hp, hp'] using hr, refl s⟩
        · obtain ⟨h', w', hconcat, hw', hext⟩ := WList.concat_spec hw ho
          refine ⟨{ s with heap := h', views := s.views ++ [w'] },
            by simp [exec, hs, hs', hconcat], ?_⟩
          simpa [spec, hp, hp'] using hr.addView hw' hext
  | iter v =>
      rcases forall₂_getElem? hr.views v with ⟨hs, hp⟩ | ⟨w, xs, hs, hp, hw⟩
      · exact ⟨s, by simp [exec, hs], by simpa [spec, hp] using hr, refl s⟩
      · refine ⟨{ s with iters := s.iters ++ [⟨w, 0⟩] }, by simp [exec, hs], ?_,
          refl s.heap, List.prefix_refl _⟩
        simp only [spec, hp]
        exact ⟨hr.views, forall₂_concat hr.iters ⟨xs, hw, rfl⟩, hr.yields⟩
  | next k =>
      have hlen := hr.iters.length_eq
      by_cases hk : k < s.iters.length
      · have hk' : k < p.iters.length := hlen ▸ hk
        have hit := List.forall₂_iff_get.mp hr.iters |>.2 k hk hk'
        obtain ⟨it', hnext, hleft⟩ := Iter.next_spec hit
        simp only [List.get_eq_getElem] at hnext hleft
        refine ⟨{ s with iters := s.iters.set k it', yields := s.yields ++ [p.iters[k].head?] },
          ?_, ?_, refl s.heap, List.prefix_refl _⟩
        · simp [exec, List.getElem?_eq_getElem hk, hnext]
        · simp only [spec, List.getElem?_eq_getElem hk']
          exact ⟨hr.views, forall₂_set hr.iters hleft k, by rw [hr.yields]⟩
      · refine ⟨s, ?_, ?_, refl s⟩
        · simp [exec, List.getElem?_eq_none (show s.iters.length ≤ k by omega)]
        · simpa [spec, List.getElem?_eq_none (show p.iters.length ≤ k by omega)] using hr

end Steps

/-- No history raises, every iteration yields what the pure lists hold, and
each list ever created is at every later moment the same object, with the
length, the elements and the slices of the pure list of its creation. -/
theorem lists_persist (ops : List (Op α)) :
    ∃ s, Machine.run exec State.init ops = some s ∧
      s.yields = (ops.foldl spec Pure.init).yields ∧
      ∀ more, ∃ s', Machine.run exec State.init (ops ++ more) = some s' ∧
        ∀ (v : ℕ) (w : WList), s.views[v]? = some w → ∃ xs : List α,
          (ops.foldl spec Pure.init).lists[v]? = some xs ∧
          ((ops ++ more).foldl spec Pure.init).lists[v]? = some xs ∧
          s'.views[v]? = some w ∧ w.len = xs.length ∧ w.toList s'.heap = some xs ∧
            (∀ i, w.getItem s'.heap i = xs[i]?) ∧ ∀ k, w.head s'.heap k = some (xs.take k) := by
  obtain ⟨s, hs, hrel, -⟩ :=
    Machine.run_refines (fun s p op (hr : Rel s p) ↦ exec_refines hr op) ops Rel.init
  refine ⟨s, hs, hrel.yields, fun more ↦ ?_⟩
  obtain ⟨s', hs', -, hext⟩ :=
    Machine.run_refines (fun s p op (hr : Rel s p) ↦ exec_refines hr op) more hrel
  refine ⟨s', by rw [Machine.run_append, hs, Option.bind_some, hs'], fun v w hv ↦ ?_⟩
  rcases forall₂_getElem? hrel.views v with ⟨hnone, -⟩ | ⟨w₀, xs, hw₀, hxs, hshow⟩
  · simp [hv] at hnone
  · obtain rfl : w = w₀ := by simpa [hv] using hw₀
    have hshow' := hshow.mono hext.heap
    have hlists := foldl_spec_mono more (ops.foldl spec Pure.init)
    rw [← List.foldl_append] at hlists
    exact ⟨xs, hxs, getElem?_of_begins hlists hxs, getElem?_of_begins hext.views hv,
      hshow.1.symm, hshow'.toList, hshow'.getItem, hshow'.head⟩

end NucLlm.Whence.ListHistory
