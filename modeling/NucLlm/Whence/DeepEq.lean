import Mathlib.Data.List.Sort
import Mathlib.Data.List.Zip
import Mathlib.Data.String.Basic
import NucLlm.Whence.Provenance

/-!
# Structural equality

`equality` compares two payloads by plain recursion, the last of their elements
first.  The loop of `deep_eq` comes to its verdict with any memo of pairs that
are equal, and the pairs it adds to the memo are equal.
-/

namespace NucLlm.Whence.Provenance

variable {N P : Type} (G : Provenance N P)

/-! ## The comparison of two payloads -/

section Records

variable {α : Type}

abbrev Ordered (fields : List (String × α)) : Prop := (fields.map Prod.fst).Pairwise (· < ·)

theorem Ordered.keys_eq {fields fields' : List (String × α)} (h : Ordered fields)
    (h' : Ordered fields') (hkeys : ∀ key, key ∈ fields.map Prod.fst ↔ key ∈ fields'.map Prod.fst) :
    fields.map Prod.fst = fields'.map Prod.fst := by
  have hperm : (fields.map Prod.fst).Perm (fields'.map Prod.fst) :=
    (List.perm_ext_iff_of_nodup (h.imp ne_of_lt) (h'.imp ne_of_lt)).mpr hkeys
  exact hperm.eq_of_pairwise' h h'

/-- Records with the same names match field by field. -/
theorem Ordered.lookup_eq_zip {fields fields' : List (String × α)} (h' : Ordered fields')
    (hkeys : fields.map Prod.fst = fields'.map Prod.fst) :
    (fields.filterMap fun f ↦ (fields'.find? fun f' ↦ f'.1 = f.1).map fun f' ↦ (f.2, f'.2)) =
      (fields.map Prod.snd).zip (fields'.map Prod.snd) := by
  induction fields generalizing fields' with
  | nil => simp
  | cons f fields ih =>
      cases fields' with
      | nil => simp at hkeys
      | cons f' fields' =>
          simp only [List.map_cons, List.cons.injEq] at hkeys
          obtain ⟨hkey, hkeys⟩ := hkeys
          have hrest := List.pairwise_cons.mp h'
          have hother : ∀ g ∈ fields, decide (f'.1 = g.1) = false := by
            intro g hg
            have hmem : g.1 ∈ fields'.map Prod.fst := hkeys ▸ List.mem_map_of_mem hg
            have hlt := hrest.1 g.1 hmem
            simp [ne_of_lt hlt]
          have hcongr : (fields.filterMap fun g ↦
              ((f' :: fields').find? fun f' ↦ f'.1 = g.1).map fun f' ↦ (g.2, f'.2)) =
              fields.filterMap fun g ↦
                (fields'.find? fun f' ↦ f'.1 = g.1).map fun f' ↦ (g.2, f'.2) := by
            apply List.filterMap_congr
            intro g hg
            simp [hother g hg]
          rw [List.filterMap_cons, hcongr, ih hrest.2 hkeys]
          simp [hkey]

end Records

theorem compare_record {l r : P} {fields fields' : List (String × N)}
    (hl : G.cell l = .record fields) (hr : G.cell r = .record fields') :
    G.compare l r =
      if fields.map Prod.fst = fields'.map Prod.fst then 
        .agree (G.valuePairs (fields.map Prod.snd) (fields'.map Prod.snd))
      else .differ := by
  have hordered := G.fields_ordered l fields hl
  have hordered' := G.fields_ordered r fields' hr
  have hknown : (fields.all (fun f ↦ fields'.any fun f' ↦ f'.1 = f.1) &&
      fields'.all fun f ↦ fields.any fun f' ↦ f'.1 = f.1) = true ↔
      fields.map Prod.fst = fields'.map Prod.fst := by
    simp only [Bool.and_eq_true, List.all_eq_true, List.any_eq_true, decide_eq_true_eq]
    constructor
    · rintro ⟨hsub, hsub'⟩
      apply Ordered.keys_eq hordered hordered'
      intro key
      simp only [List.mem_map]
      constructor
      · rintro ⟨f, hf, rfl⟩
        exact hsub f hf
      · rintro ⟨f, hf, rfl⟩
        exact hsub' f hf
    · intro hkeys
      constructor
      · intro f hf
        have hmem : f.1 ∈ fields'.map Prod.fst := hkeys ▸ List.mem_map_of_mem hf
        simpa using List.mem_map.mp hmem
      · intro f hf
        have hmem : f.1 ∈ fields.map Prod.fst := hkeys ▸ List.mem_map_of_mem hf
        simpa using List.mem_map.mp hmem
  unfold compare
  simp only [hl, hr, Cell.isOpaque, Bool.or_self, Bool.false_eq_true, if_false]
  by_cases hkeys : fields.map Prod.fst = fields'.map Prod.fst
  · rw [if_pos (hknown.mpr hkeys), if_pos hkeys]
    have hzip := Ordered.lookup_eq_zip hordered' hkeys
    unfold valuePairs
    rw [← hzip, List.map_filterMap]
    simp only [Option.map_map, Function.comp_def]
  · rw [if_neg (fun h ↦ hkeys (hknown.mp h)), if_neg hkeys]

theorem valuePairs_fst (ms ms' : List N) :
    ((G.valuePairs ms ms').map Prod.fst).Sublist (ms.map G.value) := by
  induction ms generalizing ms' with
  | nil => simp [valuePairs]
  | cons m ms ih =>
      cases ms' with
      | nil => simp [valuePairs]
      | cons m' ms' => simpa [valuePairs] using ih ms'

theorem valuePairs_swap (ms ms' : List N) :
    (G.valuePairs ms ms').map Prod.swap = G.valuePairs ms' ms := by
  unfold valuePairs
  rw [← List.zip_swap ms ms', List.map_map, List.map_map]
  rfl

/-- The pairs to compare next are those of the elements. -/
theorem compare_agree {l r : P} {pairs : List (P × P)} (h : G.compare l r = .agree pairs) :
    pairs = G.valuePairs (G.cell l).elements (G.cell r).elements := by
  have hsettled : ∀ {b : Bool}, settled b = Comparison.agree pairs → pairs = [] := by
    intro b hb
    cases b <;> simp_all [settled]
  cases hl : G.cell l <;> cases hr : G.cell r
  case list.list items items' =>
    simp only [compare, hl, hr, Cell.isOpaque, Bool.or_self, Bool.false_eq_true, if_false] at h
    split at h
    · cases h
      rfl
    · contradiction
  case record.record fields fields' =>
    rw [G.compare_record hl hr] at h
    split at h
    · cases h
      rfl
    · contradiction
  case bool.bool | num.num | str.str =>
    simp only [compare, hl, hr, Cell.isOpaque, Bool.or_self, Bool.false_eq_true, if_false] at h
    exact hsettled h
  case guess.guess =>
    simp only [compare, hl, hr, Cell.isOpaque, Bool.or_self, Bool.false_eq_true, if_false,
      Comparison.agree.injEq] at h
    exact h.symm
  all_goals simp [compare, hl, hr, Cell.isOpaque] at h

/-- They take the elements of the first payload, each at most once. -/
theorem compare_parts {l r : P} {pairs : List (P × P)} (h : G.compare l r = .agree pairs) :
    (pairs.map Prod.fst).Sublist (G.parts.next l) := by
  rw [G.compare_agree h]
  exact G.valuePairs_fst _ _

/-- Both payloads are compared the same way from either side. -/
theorem compare_swap (l r : P) :
    G.compare r l = match G.compare l r with
      | .undecided => .undecided
      | .differ => .differ
      | .agree pairs => .agree (pairs.map Prod.swap) := by
  have hsettled (b : Bool) : (settled b : Comparison P) = match (settled b : Comparison P) with
      | .undecided => .undecided
      | .differ => .differ
      | .agree pairs => .agree (pairs.map Prod.swap) := by
    cases b <;> rfl
  cases hl : G.cell l <;> cases hr : G.cell r
  case list.list items items' =>
    by_cases hlength : items.length = items'.length
    · simp [compare, hl, hr, Cell.isOpaque, hlength, G.valuePairs_swap]
    · have hlength' : items'.length ≠ items.length := Ne.symm hlength
      simp [compare, hl, hr, Cell.isOpaque, hlength, hlength']
  case record.record fields fields' =>
    rw [G.compare_record hl hr, G.compare_record hr hl]
    by_cases hkeys : fields.map Prod.fst = fields'.map Prod.fst
    · rw [if_pos hkeys, if_pos hkeys.symm]
      exact congrArg Comparison.agree (G.valuePairs_swap _ _).symm
    · rw [if_neg hkeys, if_neg (Ne.symm hkeys)]
  case bool.bool b b' =>
    simp only [compare, hl, hr, Cell.isOpaque, Bool.or_self, Bool.false_eq_true, if_false,
      eq_comm (a := b')]
    exact hsettled _
  case num.num n n' =>
    simp only [compare, hl, hr, Cell.isOpaque, Bool.or_self, Bool.false_eq_true, if_false,
      n'.equal_comm]
    exact hsettled _
  case str.str s s' =>
    simp only [compare, hl, hr, Cell.isOpaque, Bool.or_self, Bool.false_eq_true, if_false,
      eq_comm (a := s')]
    exact hsettled _
  all_goals simp [compare, hl, hr, Cell.isOpaque]

/-! ## Equality by plain recursion -/

/-- The pairs that a pair of payloads is compared by. -/
def payloadPairs : Ranked (P × P) where
  next p :=
    match G.compare p.1 p.2 with
    | .agree pairs => pairs
    | _ => []
  rank p := G.size p.1
  rank_next p q hq := by
    split at hq
    · rename_i pairs h
      have hmem : q.1 ∈ G.parts.next p.1 :=
        (G.compare_parts h).mem (List.mem_map_of_mem hq)
      exact G.parts.rank_next p.1 q.1 hmem
    · contradiction

/-- The first verdict that is not `True` is the verdict. -/
def conclude : List (Option Bool) → Option Bool
  | [] => some true
  | v :: vs => if v = some true then conclude vs else v

/-- Structural equality, `none` where it is undecided. -/
def equality (p : P × P) : Option Bool :=
  G.payloadPairs.recurse (fun p below ↦
    match G.compare p.1 p.2 with
    | .undecided => none
    | .differ => some false
    | .agree _ => conclude below.reverse) p

theorem equality_eq (p : P × P) :
    G.equality p = match G.compare p.1 p.2 with
      | .undecided => none
      | .differ => some false
      | .agree pairs => conclude (pairs.map G.equality).reverse := by
  unfold equality
  rw [Ranked.recurse_eq]
  unfold payloadPairs
  dsimp only
  cases G.compare p.1 p.2 <;> simp

theorem payloadPairs_next {p : P × P} {pairs : List (P × P)}
    (h : G.compare p.1 p.2 = .agree pairs) : G.payloadPairs.next p = pairs := by
  simp [payloadPairs, h]

theorem equality_swap (p : P × P) : G.equality p.swap = G.equality p := by
  induction p using G.payloadPairs.induction with
  | step p ih =>
      rw [equality_eq, equality_eq]
      have hswap := G.compare_swap p.1 p.2
      change G.compare p.swap.1 p.swap.2 = _ at hswap
      rw [hswap]
      cases h : G.compare p.1 p.2 with
      | undecided => rfl
      | differ => rfl
      | agree pairs =>
          have hmap : (pairs.map Prod.swap).map G.equality = pairs.map G.equality := by
            rw [List.map_map]
            apply List.map_congr_left
            intro q hq
            exact ih q (by rwa [G.payloadPairs_next h])
          simp only [hmap]

/-! ## The loop -/

variable [DecidableEq P] {memo : Option (List (P × P))}

/-- A memo of equal pairs. -/
def Remembers (memo : Option (List (P × P))) : Prop :=
  ∀ known ∈ memo, ∀ q ∈ known, G.equality q = some true

/-- The passes over a pair: they leave the stack below it, or the loop. -/
def Decides (memo : Option (List (P × P))) (start : EqState P) (stack : List (P × P))
    (verdict : Option Bool) : Prop :=
  (verdict = some true ∧ ∃ new, (∀ q ∈ new, G.equality q = some true) ∧
    Passes (G.deepEqBody memo) start ⟨stack, start.seen ++ new⟩) ∨
  (verdict ≠ some true ∧ ∃ s seen, Passes (G.deepEqBody memo) start s ∧
    G.deepEqBody memo s = .done (verdict, seen))

variable {G}

theorem Decides.list {ps : List (P × P)}
    (h : ∀ p ∈ ps, ∀ stack seen,
      G.Decides memo ⟨p :: stack, seen⟩ stack (G.equality p)) (stack seen : List (P × P)) :
    G.Decides memo ⟨ps ++ stack, seen⟩ stack (conclude (ps.map G.equality)) := by
  induction ps generalizing seen with
  | nil => exact .inl ⟨rfl, [], by simp, by simpa using Relation.ReflTransGen.refl⟩
  | cons p ps ih =>
      rcases h p List.mem_cons_self (ps ++ stack) seen with
        ⟨hp, new, hnew, hpasses⟩ | ⟨hp, s, seen', hpasses, hdone⟩
      · have hrest := ih (fun q hq ↦ h q (List.mem_cons_of_mem p hq)) (seen ++ new)
        have hverdict : conclude ((p :: ps).map G.equality) = conclude (ps.map G.equality) := by
          simp [conclude, hp]
        rw [hverdict]
        rcases hrest with ⟨hps, new', hnew', hpasses'⟩ | ⟨hps, s, seen', hpasses', hdone⟩
        · refine .inl ⟨hps, new ++ new', ?_, hpasses.trans ?_⟩
          · intro q hq
            rcases List.mem_append.mp hq with hq | hq
            · exact hnew q hq
            · exact hnew' q hq
          · simpa using hpasses'
        · exact .inr ⟨hps, s, seen', hpasses.trans hpasses', hdone⟩
      · have hverdict : conclude ((p :: ps).map G.equality) = G.equality p := by
          simp [conclude, hp]
        rw [hverdict]
        exact .inr ⟨hp, s, seen', hpasses, hdone⟩

theorem decides_pair (hmemo : G.Remembers memo) (p : P × P) :
    ∀ stack seen, G.Decides memo ⟨p :: stack, seen⟩ stack (G.equality p) := by
  induction p using G.payloadPairs.induction with
  | step p ih =>
      intro stack seen
      by_cases hknown : remembered memo p = true
      · have hstep : G.deepEqBody memo ⟨p :: stack, seen⟩ = .again ⟨stack, seen⟩ := by
          simp [deepEqBody, hknown]
        obtain ⟨known, rfl, hmem⟩ := (Option.any_eq_true ..).mp hknown
        have heq := hmemo known rfl p (by simpa using hmem)
        exact .inl ⟨heq, [], by simp, by simpa using Passes.step hstep .refl⟩
      · have heq := G.equality_eq p
        cases h : G.compare p.1 p.2 with
        | undecided =>
            rw [h] at heq
            have hdone : G.deepEqBody memo ⟨p :: stack, seen⟩ = .done (none, seen) := by
              simp [deepEqBody, hknown, h]
            exact .inr ⟨by simp [heq], _, seen, .refl, by rw [hdone, heq]⟩
        | differ =>
            rw [h] at heq
            have hdone : G.deepEqBody memo ⟨p :: stack, seen⟩ = .done (some false, seen) := by
              simp [deepEqBody, hknown, h]
            exact .inr ⟨by simp [heq], _, seen, .refl, by rw [hdone, heq]⟩
        | agree pairs =>
            rw [h] at heq
            have hstep : G.deepEqBody memo ⟨p :: stack, seen⟩ =
                .again ⟨pairs.reverse ++ stack, seen ++ [p]⟩ := by
              simp [deepEqBody, hknown, h]
            have hnext : ∀ q ∈ pairs.reverse, ∀ stack seen,
                G.Decides memo ⟨q :: stack, seen⟩ stack (G.equality q) := by
              intro q hq
              apply ih
              rw [G.payloadPairs_next h]
              exact List.mem_reverse.mp hq
            have hrest := Decides.list hnext stack (seen ++ [p])
            rw [List.map_reverse] at hrest
            dsimp only at heq
            rw [heq]
            rcases hrest with ⟨hps, new, hnew, hpasses⟩ | ⟨hps, s, seen', hpasses, hdone⟩
            · refine .inl ⟨hps, p :: new, ?_, Passes.step hstep ?_⟩
              · intro q hq
                rcases List.mem_cons.mp hq with rfl | hq
                · rw [heq, hps]
                · exact hnew q hq
              · simpa using hpasses
            · exact .inr ⟨hps, s, seen', Passes.step hstep hpasses, hdone⟩

theorem deepEqBody_drops (s s' : EqState P) (h : G.deepEqBody memo s = .again s') :
    (s'.stack.map fun q ↦ G.parts.paths 1 q.1).sum <
      (s.stack.map fun q ↦ G.parts.paths 1 q.1).sum := by
  obtain ⟨stack, seen⟩ := s
  cases stack with
  | nil => simp [deepEqBody] at h
  | cons p stack =>
      have hpaths := G.parts.paths_eq 1 p.1
      simp only [deepEqBody] at h
      split at h
      · cases h
        simp only [List.map_cons, List.sum_cons]
        omega
      · split at h
        · contradiction
        · contradiction
        · rename_i pairs hagree
          cases h
          have hsum : ((pairs.map Prod.fst).map (G.parts.paths 1)).sum ≤
              ((G.parts.next p.1).map (G.parts.paths 1)).sum :=
            List.Sublist.sum_le_sum ((G.compare_parts hagree).map _) fun _ _ ↦ Nat.zero_le _
          rw [List.map_map] at hsum
          have hreverse : (pairs.reverse.map fun q ↦ G.parts.paths 1 q.1).sum =
              (pairs.map (G.parts.paths 1 ∘ Prod.fst)).sum := by
            rw [List.map_reverse, List.sum_reverse]
            rfl
          simp only [List.map_append, List.sum_append, List.map_cons, List.sum_cons, hreverse]
          omega

/-- The verdict of `deep_eq` does not depend on the memo. -/
theorem deepEq_spec (hmemo : G.Remembers memo) (l r : P) :
    (G.deepEq memo l r).1 = G.equality (l, r) ∧
      (G.equality (l, r) = some true →
        ∀ q ∈ (G.deepEq memo l r).2, G.equality q = some true) := by
  have hfuel : (([(l, r)] : List (P × P)).map fun q ↦ G.parts.paths 1 q.1).sum <
      G.parts.paths 1 l + 1 := by
    simp
  unfold deepEq
  rcases decides_pair hmemo (l, r) [] [] with
    ⟨hp, new, hnew, hpasses⟩ | ⟨hp, s, seen, hpasses, hdone⟩
  · have hdone : G.deepEqBody memo ⟨[], new⟩ = .done (some true, new) := rfl
    rw [whileLoop_of_passes deepEqBody_drops hpasses hdone hfuel]
    exact ⟨hp.symm, fun _ ↦ hnew⟩
  · rw [whileLoop_of_passes deepEqBody_drops hpasses hdone hfuel]
    exact ⟨rfl, fun h ↦ absurd h hp⟩

end NucLlm.Whence.Provenance
