import Mathlib.Data.List.Basic
import Mathlib.Data.List.Nodup

/-!
# Paired transcripts

A transcript is a list of messages; a message may make calls and may be the
answer to one.  In a paired transcript every message that makes calls is
followed at once by one answer per call, in order, and there is no other
answer.  The rules say what may be cut, joined and rewritten.
-/

namespace NucLlm

variable {α κ : Type} (calls : α → List κ) (answer : α → Option κ)

/-- The list splits into messages that answer nothing, each followed by the
answers to its calls. -/
inductive Paired : List α → Prop where
  | nil : Paired []
  | turn (a : α) (results rest : List α) (hfirst : answer a = none)
      (hresults : results.map answer = (calls a).map some) (hrest : Paired rest) :
      Paired (a :: (results ++ rest))

namespace Paired

variable {calls answer}

/-- The list starts a new turn: it does not begin with an answer. -/
def Fresh (answer : α → Option κ) (xs : List α) : Prop := ∀ a ∈ xs.head?, answer a = none

theorem fresh_cons {a : α} {xs : List α} : Fresh answer (a :: xs) ↔ answer a = none := by
  simp [Fresh]

theorem append {xs ys : List α} (hx : Paired calls answer xs) (hy : Paired calls answer ys) :
    Paired calls answer (xs ++ ys) := by
  induction hx with
  | nil => exact hy
  | turn a results rest hfirst hresults _ ih =>
      rw [List.cons_append, List.append_assoc]
      exact turn a results (rest ++ ys) hfirst hresults ih

theorem single {a : α} (hcalls : calls a = []) (hanswer : answer a = none) :
    Paired calls answer [a] :=
  turn a [] [] hanswer (by rw [hcalls]; rfl) nil

/-- A message that makes no call and answers none may be appended. -/
theorem concat {xs : List α} {a : α} (h : Paired calls answer xs) (hcalls : calls a = [])
    (hanswer : answer a = none) : Paired calls answer (xs ++ [a]) :=
  h.append (single hcalls hanswer)

/-- A message may be appended together with the answers to its calls. -/
theorem concat_turn {xs results : List α} {a : α} (h : Paired calls answer xs)
    (hanswer : answer a = none) (hresults : results.map answer = (calls a).map some) :
    Paired calls answer (xs ++ a :: results) := by
  have hturn := turn a results [] hanswer hresults nil
  rw [List.append_nil] at hturn
  exact h.append hturn

/-- Pairing only reads who calls and who answers. -/
theorem congr {xs ys : List α} (h : Paired calls answer xs)
    (hshape : ys.map (fun a ↦ (calls a, answer a)) = xs.map fun a ↦ (calls a, answer a)) :
    Paired calls answer ys := by
  induction h generalizing ys with
  | nil =>
      rw [List.map_eq_nil_iff.mp hshape]
      exact nil
  | turn a results rest hfirst hresults _ ih =>
      rw [List.map_cons, List.map_append] at hshape
      obtain ⟨b, ys, rfl, hb, htail⟩ := List.map_eq_cons_iff.mp hshape
      obtain ⟨answers, ys, rfl, hanswers, hys⟩ := List.map_eq_append_iff.mp htail
      obtain ⟨hcalls, hanswer⟩ := Prod.mk.inj hb
      refine turn b answers ys (hanswer.trans hfirst) ?_ (ih hys)
      have hsnd := congrArg (List.map Prod.snd) hanswers
      rw [List.map_map, List.map_map] at hsnd
      rw [hcalls, ← hresults]
      exact hsnd

theorem map {f : α → α} {xs : List α} (h : Paired calls answer xs)
    (hcalls : ∀ a, calls (f a) = calls a) (hanswer : ∀ a, answer (f a) = answer a) :
    Paired calls answer (xs.map f) := by
  refine h.congr ?_
  rw [List.map_map]
  exact List.map_congr_left fun a _ ↦ by simp [hcalls, hanswer]

theorem modify {f : α → α} {xs : List α} (i : ℕ) (h : Paired calls answer xs)
    (hcalls : ∀ a, calls (f a) = calls a) (hanswer : ∀ a, answer (f a) = answer a) :
    Paired calls answer (xs.modify i f) := by
  refine h.congr (List.ext_getElem? fun j ↦ ?_)
  rw [List.getElem?_map, List.getElem?_map, List.getElem?_modify]
  cases xs[j]? with
  | none => rfl
  | some a =>
      by_cases hij : i = j
      · simp [hij, hcalls, hanswer]
      · simp [hij]

/-- A paired transcript may be cut where a new turn starts. -/
theorem split {xs ys : List α} (h : Paired calls answer (xs ++ ys)) (hy : Fresh answer ys) :
    Paired calls answer xs ∧ Paired calls answer ys := by
  generalize hzs : xs ++ ys = zs at h
  induction h generalizing xs with
  | nil =>
      obtain ⟨rfl, rfl⟩ := List.append_eq_nil_iff.mp hzs
      exact ⟨nil, nil⟩
  | turn a results rest hfirst hresults hrest ih =>
      cases xs with
      | nil =>
          rw [List.nil_append] at hzs
          rw [hzs]
          exact ⟨nil, turn a results rest hfirst hresults hrest⟩
      | cons x xs =>
          obtain ⟨rfl, htail⟩ := List.cons_eq_cons.mp hzs
          rcases List.append_eq_append_iff.mp htail with ⟨mid, hleft, hright⟩ | ⟨mid, hleft, hright⟩
          · -- the cut falls among the answers: only after the last of them
            cases mid with
            | nil =>
                rw [List.append_nil] at hleft
                rw [List.nil_append] at hright
                subst hleft hright
                refine ⟨?_, hrest⟩
                have hturn := turn x results [] hfirst hresults nil
                rwa [List.append_nil] at hturn
            | cons b mid =>
                have hb : answer b = none := by
                  rw [hright, List.cons_append, fresh_cons] at hy
                  exact hy
                have hmem : answer b ∈ results.map answer := by
                  rw [hleft]
                  exact List.mem_map_of_mem (by simp)
                rw [hresults, hb] at hmem
                simp at hmem
          · obtain ⟨hmid, hys⟩ := ih hright.symm
            rw [hleft]
            exact ⟨turn x results mid hfirst hresults hmid, hys⟩

theorem tail {xs : List α} {a : α} (h : Paired calls answer (a :: xs)) (hcalls : calls a = []) :
    Paired calls answer xs := by
  generalize hzs : a :: xs = zs at h
  cases h with
  | nil => contradiction
  | turn b results rest hfirst hresults hrest =>
      obtain ⟨rfl, rfl⟩ := List.cons_eq_cons.mp hzs
      rw [hcalls, List.map_nil, List.map_eq_nil_iff] at hresults
      rw [hresults]
      exact hrest

/-- Two cuts at new turns leave both ends paired. -/
theorem take_drop {xs : List α} (h : Paired calls answer xs) {i j : ℕ}
    (hi : Fresh answer (xs.drop i)) (hj : Fresh answer (xs.drop j)) :
    Paired calls answer (xs.take i) ∧ Paired calls answer (xs.drop j) := by
  have hleft : Paired calls answer (xs.take i ++ xs.drop i) := by
    rw [List.take_append_drop]
    exact h
  have hright : Paired calls answer (xs.take j ++ xs.drop j) := by
    rw [List.take_append_drop]
    exact h
  exact ⟨(hleft.split hi).1, (hright.split hj).2⟩

end Paired

/-! ## Answers in one batch -/

section Batched

variable {α κ : Type} [DecidableEq κ] (uses results : α → List κ)

/-- After a message that used `prev`, each message answers everything that the
one before it used, each key exactly once, and nothing else. -/
def Batched : List κ → List α → Prop
  | prev, [] => prev = []
  | prev, a :: as =>
      (∀ k ∈ prev, (results a).count k = 1) ∧ (∀ k ∈ results a, k ∈ prev) ∧ Batched (uses a) as

namespace Batched

variable {uses results}

instance decidable : (prev : List κ) → (xs : List α) → Decidable (Batched uses results prev xs)
  | prev, [] => inferInstanceAs (Decidable (prev = []))
  | _, a :: as =>
      have := decidable (uses a) as
      inferInstanceAs (Decidable (_ ∧ _ ∧ _))

theorem append {prev : List κ} {xs ys : List α} (hx : Batched uses results prev xs)
    (hy : Batched uses results [] ys) : Batched uses results prev (xs ++ ys) := by
  induction xs generalizing prev with
  | nil =>
      obtain rfl : prev = [] := hx
      exact hy
  | cons a as ih =>
      obtain ⟨hprev, hresults, has⟩ := hx
      exact ⟨hprev, hresults, ih has⟩

theorem single {a : α} (huses : uses a = []) (hresults : results a = []) :
    Batched uses results [] [a] := by
  refine ⟨by simp, ?_, huses⟩
  rw [hresults]
  exact fun k hk ↦ hk

/-- A message that uses keys, and the one that answers them. -/
theorem exchange {a b : α} (hfirst : results a = []) (hnodup : (uses a).Nodup)
    (hanswers : results b = uses a) (hlast : uses b = []) :
    Batched uses results [] [a, b] := by
  refine ⟨by simp, ?_, ?_, ?_, hlast⟩
  · rw [hfirst]
    exact fun k hk ↦ hk
  · rw [hanswers]
    exact fun k hk ↦ List.count_eq_one_of_mem hnodup hk
  · rw [hanswers]
    exact fun k hk ↦ hk

/-- Only who uses and who answers is read. -/
theorem congr {prev : List κ} {xs ys : List α} (h : Batched uses results prev xs)
    (hshape : ys.map (fun a ↦ (uses a, results a)) = xs.map fun a ↦ (uses a, results a)) :
    Batched uses results prev ys := by
  induction xs generalizing prev ys with
  | nil =>
      rw [List.map_eq_nil_iff.mp hshape]
      exact h
  | cons a as ih =>
      obtain ⟨b, bs, rfl, hb, hbs⟩ := List.map_eq_cons_iff.mp hshape
      obtain ⟨huses, hresults⟩ := Prod.mk.inj hb
      obtain ⟨hprev, hanswers, has⟩ := h
      refine ⟨?_, ?_, ?_⟩
      · rwa [hresults]
      · rwa [hresults]
      · rw [huses]
        exact ih has hbs

end Batched

end Batched

end NucLlm
