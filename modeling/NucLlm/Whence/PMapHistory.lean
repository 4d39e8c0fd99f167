import NucLlm.Lib.Lists
import NucLlm.Lib.Machine
import NucLlm.Whence.PMap

/-!
# Histories of record maps

A history builds maps from dicts, puts into and merges any earlier versions.
The pure model keeps each version as a partial function; the machine over the
shared nodes keeps every version a balanced search tree with these lookups.
-/

namespace NucLlm.Whence.MapHistory

open NucLlm.Lists

variable {κ β : Type} [LinearOrder κ]

/-- One operation; earlier versions are named by creation order. -/
inductive Op (κ β : Type) where
  | fromDict (d : List (κ × β))
  | put (v : ℕ) (key : κ) (val : β)
  | mergedWith (v v' : ℕ)
deriving DecidableEq, Repr

structure State (κ β : Type) where
  heap : PHeap κ β
  versions : List PMap
deriving DecidableEq, Repr

def State.init : State κ β := ⟨[], []⟩

/-- Record the outcome of an operation as the next version. -/
def State.add (s : State κ β) (out : PHeap κ β × PMap) : State κ β :=
  ⟨out.1, s.versions ++ [out.2]⟩

/-- One operation on the shared nodes.  A name that is not there is no
operation at all; `none` is a host exception. -/
def exec (s : State κ β) : Op κ β → Option (State κ β)
  | .fromDict d => (PMap.fromDict s.heap d).map s.add
  | .put v key val =>
      match s.versions[v]? with
      | none => some s
      | some m => (m.put s.heap key val).map s.add
  | .mergedWith v v' =>
      match s.versions[v]?, s.versions[v']? with
      | some m, some other => (m.mergedWith s.heap other).map s.add
      | _, _ => some s

/-- The pure model: versions are partial functions, the last put of a key wins
and a merge is the right-biased union. -/
def spec (fs : List (κ → Option β)) : Op κ β → List (κ → Option β)
  | .fromDict d => fs ++ [PMap.putAllModel (fun _ ↦ none) d]
  | .put v key val =>
      match fs[v]? with
      | none => fs
      | some f => fs ++ [Function.update f key (some val)]
  | .mergedWith v v' =>
      match fs[v]?, fs[v']? with
      | some f, some g => fs ++ [fun k ↦ (g k).or (f k)]
      | _, _ => fs

/-- The versions stand for the partial functions, one by one. -/
def Rel (s : State κ β) (fs : List (κ → Option β)) : Prop :=
  List.Forall₂ (fun m f ↦ m.Denotes s.heap f) s.versions fs

/-- A later state keeps every node and every version object. -/
structure Ext (s s' : State κ β) : Prop where
  heap : s.heap <+: s'.heap
  versions : s.versions <+: s'.versions

omit [LinearOrder κ] in
theorem ext_refl (s : State κ β) : Ext s s := ⟨List.prefix_refl _, List.prefix_refl _⟩

instance : IsPreorder (State κ β) Ext where
  refl := ext_refl
  trans _ _ _ h h' := ⟨h.heap.trans h'.heap, h.versions.trans h'.versions⟩

theorem Rel.add {s : State κ β} {fs : List (κ → Option β)} (hr : Rel s fs)
    {out : PHeap κ β × PMap} {f : κ → Option β} (hout : out.2.Denotes out.1 f)
    (hext : s.heap <+: out.1) : Rel (s.add out) (fs ++ [f]) ∧ Ext s (s.add out) :=
  ⟨forall₂_concat (hr.imp fun _ _ hm ↦ hm.mono hext) hout, hext, List.prefix_append _ _⟩

theorem exec_refines {s : State κ β} {fs : List (κ → Option β)} (hr : Rel s fs) (op : Op κ β) :
    ∃ s', exec s op = some s' ∧ Rel s' (spec fs op) ∧ Ext s s' := by
  cases op with
  | fromDict d =>
      obtain ⟨h', m', hput, hm', hext⟩ := PMap.putAll_spec (PMap.denotes_empty s.heap) d
      exact ⟨s.add (h', m'), by simp [exec, PMap.fromDict, hput], hr.add hm' hext⟩
  | put v key val =>
      rcases forall₂_getElem? hr v with ⟨hs, hf⟩ | ⟨m, f, hs, hf, hm⟩
      · exact ⟨s, by simp [exec, hs], by simpa [spec, hf] using hr, ext_refl s⟩
      · obtain ⟨h', m', hput, hm', hext⟩ := PMap.put_spec hm key val
        refine ⟨s.add (h', m'), by simp [exec, hs, hput], ?_⟩
        simpa [spec, hf] using hr.add hm' hext
  | mergedWith v v' =>
      rcases forall₂_getElem? hr v with ⟨hs, hf⟩ | ⟨m, f, hs, hf, hm⟩
      · exact ⟨s, by simp [exec, hs], by simpa [spec, hf] using hr, ext_refl s⟩
      · rcases forall₂_getElem? hr v' with ⟨hs', hg⟩ | ⟨other, g, hs', hg, ho⟩
        · exact ⟨s, by simp [exec, hs, hs'], by simpa [spec, hf, hg] using hr, ext_refl s⟩
        · obtain ⟨h', m', hmerge, hm', hext⟩ := PMap.mergedWith_spec hm ho
          refine ⟨s.add (h', m'), by simp [exec, hs, hs', hmerge], ?_⟩
          simpa [spec, hf, hg] using hr.add hm' hext

/-- No history raises, and at every later moment each version is the object it
was, a balanced search tree with exact stored heights and sizes, whose lookups,
length and ordered iteration are those of the partial function of its
creation. -/
theorem maps_persist (ops : List (Op κ β)) :
    ∃ s, Machine.run exec State.init ops = some s ∧
      ∀ more, ∃ s', Machine.run exec State.init (ops ++ more) = some s' ∧
        ∀ (v : ℕ) (m : PMap), s.versions[v]? = some m →
          ∃ f t, (ops.foldl spec [])[v]? = some f ∧ s'.versions[v]? = some m ∧
            s'.heap.IsTree m.root t ∧ t.Balanced ∧ t.Ordered ∧
            (∀ k, m.get s'.heap k = some (f k)) ∧
            m.len s'.heap = some {k | f k ≠ none}.ncard ∧
            ∃ pairs, m.items s'.heap = some pairs ∧ (pairs.map Prod.fst).Pairwise (· < ·) ∧
              ∀ k x, (k, x) ∈ pairs ↔ f k = some x := by
  have hstep := fun s fs op (hr : Rel (κ := κ) (β := β) s fs) ↦ exec_refines hr op
  obtain ⟨s, hs, hrel, -⟩ := Machine.run_refines hstep ops (s := State.init) (t := []) .nil
  refine ⟨s, hs, fun more ↦ ?_⟩
  obtain ⟨s', hs', -, hext⟩ := Machine.run_refines hstep more hrel
  refine ⟨s', by rw [Machine.run_append, hs, Option.bind_some, hs'], fun v m hv ↦ ?_⟩
  rcases forall₂_getElem? hrel v with ⟨hnone, -⟩ | ⟨m₀, f, hm₀, hf, hm⟩
  · simp [hv] at hnone
  · obtain rfl : m = m₀ := by simpa [hv] using hm₀
    have hm' := hm.mono hext.heap
    obtain ⟨t, ht, hb, ho, -⟩ := id hm'
    exact ⟨f, t, hf, getElem?_of_begins hext.versions hv, ht, hb, ho, hm'.get, hm'.len, hm'.items⟩

end NucLlm.Whence.MapHistory
