import NucLlm.Swe.MutationAst
import NucLlm.Swe.Literals

/-!
# Sites and mutants

The walk that changes the tree under way goes over the same places as the walk over the tree, since
every change is taken back.  Triage knows the sites of the first walk only.
-/

namespace NucLlm.Swe.Mutation

open NucLlm.Tree

variable {F : Type}

/-! ## Changes are taken back -/

theorem setKind_setKind {n : Ast F} {k : Kind F} (h : kind n = k) (k' : Kind F) :
    setKind k (setKind k' n) = n := by
  obtain ⟨⟨field, k, lineno, endLineno⟩, cs⟩ := n
  subst h
  rfl

theorem findIdx_set {α : Type} {p : α → Bool} {as : List α} {a b : α}
    (ha : as[as.findIdx p]? = some a) (hb : p b = true) :
    (as.set (as.findIdx p) b).findIdx p = as.findIdx p := by
  induction as with
  | nil => rfl
  | cons c as ih =>
    rw [List.findIdx_cons] at ha ⊢
    cases hc : p c with
    | true => simp [List.findIdx_cons, hb]
    | false =>
      rw [hc] at ha
      simp only [cond_false, List.getElem?_cons_succ, List.set_cons_succ] at ha ⊢
      rw [List.findIdx_cons, hc]
      simp [ih ha]

theorem set_findIdx_back {α : Type} {p : α → Bool} {as : List α} {a b : α}
    (ha : as[as.findIdx p]? = some a) (hb : p b = true) :
    (as.set (as.findIdx p) b).set ((as.set (as.findIdx p) b).findIdx p) a = as := by
  rw [findIdx_set ha hb, List.set_set]
  apply List.ext_getElem?
  intro j
  rw [List.getElem?_set]
  split
  · rename_i hj
    subst hj
    rw [ha, if_pos (List.getElem?_eq_some_iff.mp ha).1]
  · rfl

theorem setAttr_setAttr {n old v : Ast F} {field : String} (hold : attr field n = some old)
    (hv : v.data.field = field) : setAttr field old (setAttr field v n) = n := by
  obtain ⟨data, cs⟩ := n
  have hfield : decide (v.data.field = field) = true := decide_eq_true hv
  exact congrArg (Tree.node data) (set_findIdx_back hold hfield)

/-- What a site yields is about its node, and `undo` restores the node. -/
structure Site.Sound (n : Ast F) (s : Site F) : Prop where
  node : s.node = n
  restores : s.undo (s.apply n) = n

theorem siteOf_sound {d : Bool} {n : Ast F} {s : Site F} (h : siteOf d n = some s) :
    s.Sound n := by
  unfold siteOf at h
  split at h
  · rename_i hk
    cases h
    exact ⟨rfl, setKind_setKind hk _⟩
  · rename_i hk
    cases h
    exact ⟨rfl, setKind_setKind hk _⟩
  · obtain ⟨old, hold, rfl⟩ := Option.map_eq_some_iff.mp h
    exact ⟨rfl, setAttr_setAttr hold rfl⟩
  · rename_i hk
    split at h
    · cases h
    · split at h
      · cases h
        exact ⟨rfl, setKind_setKind hk _⟩
      · cases h
        exact ⟨rfl, setKind_setKind hk _⟩
      · cases h
  · rename_i hk
    obtain ⟨new, -, rfl⟩ := Option.map_eq_some_iff.mp h
    exact ⟨rfl, setKind_setKind hk _⟩
  · obtain ⟨old, hold, rfl⟩ := Option.map_eq_some_iff.mp h
    exact ⟨rfl, setAttr_setAttr hold rfl⟩
  · cases h

theorem lateSiteOf_sound {h : Host F} {d : Bool} {n : Ast F} {s : Site F}
    (hs : lateSiteOf h d n = some s) : s.Sound n := by
  unfold lateSiteOf at hs
  split at hs
  · rename_i hk
    split at hs
    · cases hs
    · cases hs
      exact ⟨rfl, setKind_setKind hk _⟩
  · cases hs

/-! ## The walk that changes the tree -/

theorem pass_eq {h : Host F} {sites : Bool → Ast F → Option (Site F)}
    (hsites : ∀ d n s, sites d n = some s → s.Sound n) (docs : List Place) (path : Text)
    (parts ops : List Text) (fuel : ℕ) (queue : List Place) (t : Ast F) (i : ℕ) :
    pass h sites docs path parts ops fuel queue t i =
      (((found sites docs t (t.walkFrom fuel queue)).zipIdx i).filterMap
          (chosen h path parts ops t), t,
        i + (found sites docs t (t.walkFrom fuel queue)).length) := by
  induction fuel generalizing queue i with
  | zero => rfl
  | succ fuel ih =>
    cases queue with
    | nil => rfl
    | cons p queue =>
      unfold pass
      dsimp only
      rw [walkFrom]
      cases hsite : (t.get p).bind (sites (p ∈ docs)) with
      | none =>
        have hfound (places : List Place) :
            found sites docs t (p :: places) = found sites docs t places := by
          unfold found
          rw [List.filterMap_cons, hsite]
          rfl
        rw [hfound]
        exact ih _ _
      | some site =>
        have hfound (places : List Place) :
            found sites docs t (p :: places) = (p, site) :: found sites docs t places := by
          unfold found
          rw [List.filterMap_cons, hsite]
          rfl
        obtain ⟨n, hn, hs⟩ := Option.bind_eq_some_iff.mp hsite
        have hback : (t.modifyAt site.apply p).modifyAt site.undo p = t :=
          modifyAt_modifyAt hn (hsites _ _ _ hs).restores
        dsimp only
        rw [hfound, List.zipIdx_cons, List.length_cons, hback, ih]
        by_cases hops : ops ≠ [] ∧ site.op.name ∉ ops
        · have hchosen : chosen h path parts ops t ((p, site), i) = none := if_pos hops
          rw [if_pos hops, List.filterMap_cons, hchosen]
          simp only [Prod.mk.injEq, true_and]
          omega
        · have hchosen : chosen h path parts ops t ((p, site), i) =
              some (p, mutantOf h path parts p i site (t.modifyAt site.apply p)) := if_neg hops
          rw [if_neg hops, List.filterMap_cons, hchosen]
          simp only [Prod.mk.injEq, true_and]
          omega

/-- The sites of both walks, in the order of their indices. -/
def allSites (h : Host F) (body : List (Ast F)) : List (Place × Site F) :=
  sitesIn siteOf (root body) ++ sitesIn (lateSiteOf h) (root body)

theorem generateAt_eq (h : Host F) (body : List (Ast F)) (path : Text) (ops : List Text) :
    generateAt h body path ops =
      (allSites h body).zipIdx.filterMap (chosen h path (body.map h.unparse) ops (root body)) := by
  unfold generateAt
  dsimp only
  rw [pass_eq fun _ _ _ ↦ siteOf_sound]
  dsimp only
  rw [pass_eq fun _ _ _ ↦ lateSiteOf_sound, allSites, List.zipIdx_append, List.filterMap_append,
    Nat.zero_add]
  dsimp only
  rw [Nat.zero_add]
  rfl

theorem mem_generateAt {h : Host F} {body : List (Ast F)} {path : Text} {ops : List Text}
    {g : Place × Mutant} :
    g ∈ generateAt h body path ops ↔ ∃ p site i, (allSites h body)[i]? = some (p, site) ∧
      (ops = [] ∨ site.op.name ∈ ops) ∧
      g = (p, mutantOf h path (body.map h.unparse) p i site
        ((root body).modifyAt site.apply p)) := by
  rw [generateAt_eq, List.mem_filterMap]
  constructor
  · rintro ⟨⟨⟨p, site⟩, i⟩, hmem, hg⟩
    unfold chosen at hg
    split at hg
    · cases hg
    · rename_i hops
      refine ⟨p, site, i, List.mem_zipIdx_iff_getElem?.mp hmem, ?_, ?_⟩
      · by_cases hempty : ops = []
        · exact .inl hempty
        · exact .inr (not_not.mp fun hnot ↦ hops ⟨hempty, hnot⟩)
      · exact (Option.some.inj hg).symm
  · rintro ⟨p, site, i, hmem, hops, rfl⟩
    refine ⟨((p, site), i), List.mem_zipIdx_iff_getElem?.mpr hmem, if_neg ?_⟩
    rintro ⟨hne, hnot⟩
    exact hops.elim hne hnot

/-! ## What a site is -/

theorem mem_sitesIn {sites : Bool → Ast F → Option (Site F)} {t : Ast F} {p : Place}
    {site : Site F} :
    (p, site) ∈ sitesIn sites t ↔
      ∃ n, t.get p = some n ∧ sites (p ∈ docstringIds t) n = some site := by
  unfold sitesIn found
  rw [List.mem_filterMap]
  constructor
  · rintro ⟨q, -, hsite⟩
    obtain ⟨site', hsite', heq⟩ := Option.map_eq_some_iff.mp hsite
    cases heq
    exact Option.bind_eq_some_iff.mp hsite'
  · rintro ⟨n, hn, hs⟩
    refine ⟨p, mem_walk.mpr (by simp [hn]), ?_⟩
    rw [hn, Option.bind_some, hs]
    rfl

theorem siteOf_root (d : Bool) (body : List (Ast F)) : siteOf d (root body) = none := rfl

theorem lateSiteOf_root (h : Host F) (d : Bool) (body : List (Ast F)) :
    lateSiteOf h d (root body) = none := rfl

/-- A site is a node in a top-level statement, and its change is taken back. -/
theorem allSites_sound {h : Host F} {body : List (Ast F)} {p : Place} {site : Site F}
    (hmem : (p, site) ∈ allSites h body) :
    ∃ idx rest n, p = idx :: rest ∧ idx < body.length ∧ (root body).get p = some n ∧
      site.Sound n := by
  have hsound : ∃ n, (root body).get p = some n ∧ site.Sound n ∧ p ≠ [] := by
    rcases List.mem_append.mp hmem with hmem | hmem
    · obtain ⟨n, hn, hs⟩ := mem_sitesIn.mp hmem
      refine ⟨n, hn, siteOf_sound hs, ?_⟩
      rintro rfl
      rw [get_nil, Option.some.injEq] at hn
      rw [← hn, siteOf_root] at hs
      cases hs
    · obtain ⟨n, hn, hs⟩ := mem_sitesIn.mp hmem
      refine ⟨n, hn, lateSiteOf_sound hs, ?_⟩
      rintro rfl
      rw [get_nil, Option.some.injEq] at hn
      rw [← hn, lateSiteOf_root] at hs
      cases hs
  obtain ⟨n, hn, hsite, hne⟩ := hsound
  cases p with
  | nil => exact absurd rfl hne
  | cons idx rest =>
    refine ⟨idx, rest, n, rfl, ?_, hn, hsite⟩
    rw [get_cons] at hn
    obtain ⟨c, hc, -⟩ := Option.bind_eq_some_iff.mp hn
    exact (List.getElem?_eq_some_iff.mp hc).1

theorem siteOf_op {d : Bool} {n : Ast F} {s : Site F} (h : siteOf d n = some s) :
    s.op ≠ .fconst := by
  unfold siteOf at h
  split at h
  · cases h
    nofun
  · cases h
    nofun
  · obtain ⟨-, -, rfl⟩ := Option.map_eq_some_iff.mp h
    nofun
  · split at h
    · cases h
    · split at h
      · cases h
        nofun
      · cases h
        nofun
      · cases h
  · obtain ⟨-, -, rfl⟩ := Option.map_eq_some_iff.mp h
    nofun
  · obtain ⟨-, -, rfl⟩ := Option.map_eq_some_iff.mp h
    nofun
  · cases h

theorem lateSiteOf_op {h : Host F} {d : Bool} {n : Ast F} {s : Site F}
    (hs : lateSiteOf h d n = some s) : s.op = .fconst := by
  unfold lateSiteOf at hs
  split at hs
  · split at hs
    · cases hs
    · cases hs
      rfl
  · cases hs

theorem docstringIn_str {n : Ast F} {q : Place} (h : docstringIn n = some q) :
    ∃ c s, n.get q = some c ∧ kind c = .constant (.str s) := by
  obtain ⟨first, hfirst, h⟩ := Option.bind_eq_some_iff.mp h
  obtain ⟨value, hvalue, h⟩ := Option.bind_eq_some_iff.mp h
  split at h
  · rename_i s _ hs
    cases h
    refine ⟨value, s, ?_, hs⟩
    unfold attr at hfirst hvalue
    rw [get_cons, hfirst, Option.bind_some, get_cons, hvalue, Option.bind_some, get_nil]
  · cases h

/-- A docstring is a string. -/
theorem docstringIds_str {t : Ast F} {q : Place} (h : q ∈ docstringIds t) :
    ∃ c s, t.get q = some c ∧ kind c = .constant (.str s) := by
  obtain ⟨p, -, h⟩ := List.mem_filterMap.mp h
  obtain ⟨n, hn, h⟩ := Option.bind_eq_some_iff.mp h
  have hplace (h : (docstringIn n).map (p ++ ·) = some q) :
      ∃ c s, t.get q = some c ∧ kind c = .constant (.str s) := by
    obtain ⟨r, hr, rfl⟩ := Option.map_eq_some_iff.mp h
    obtain ⟨c, s, hc, hs⟩ := docstringIn_str hr
    exact ⟨c, s, by rw [get_append, hn]; exact hc, hs⟩
  split at h
  · exact hplace h
  · exact hplace h
  · exact hplace h
  · cases h

/-- The late sites are the floats. -/
theorem mem_lateSites {h : Host F} {t : Ast F} {p : Place} :
    (∃ site, (p, site) ∈ sitesIn (lateSiteOf h) t) ↔
      ∃ n f, t.get p = some n ∧ kind n = .constant (.float f) := by
  constructor
  · rintro ⟨site, hmem⟩
    obtain ⟨n, hn, hs⟩ := mem_sitesIn.mp hmem
    unfold lateSiteOf at hs
    split at hs
    · rename_i f hf
      exact ⟨n, f, hn, hf⟩
    · cases hs
  · rintro ⟨n, f, hn, hf⟩
    have hdoc : p ∉ docstringIds t := by
      intro hdoc
      obtain ⟨c, s, hc, hs⟩ := docstringIds_str hdoc
      rw [hn, Option.some.injEq] at hc
      rw [← hc, hf] at hs
      cases hs
    have hsite : lateSiteOf h (p ∈ docstringIds t) n =
        some ⟨n, .fconst, arrow (h.reprFloat f) (h.reprFloat (h.addOne f)),
          setKind (.constant (.float (h.addOne f))), setKind (.constant (.float f))⟩ := by
      unfold lateSiteOf
      rw [hf]
      simp [hdoc]
    exact ⟨_, mem_sitesIn.mpr ⟨n, hn, hsite⟩⟩

/-! ## Ids -/

theorem siteIndex_mutantId (A : Alphabet) (path : Text) (lineno : ℕ) (op : Op) (i : ℕ) :
    siteIndex A (mutantId path lineno op i) = i := by
  have hnot : ∀ c ∈ (str i).reverse, decide (c ≠ '#') = true := by
    intro c hc
    have hdigit := ascii_str (List.mem_reverse.mp hc)
    apply decide_eq_true
    rintro rfl
    exact absurd hdigit (by decide)
  unfold siteIndex mutantId
  have hstop (front : Text) : (front ++ "#".toList).reverse.takeWhile (· ≠ '#') = [] := by simp
  rw [List.reverse_append, List.takeWhile_append_of_pos hnot, hstop, List.append_nil,
    List.reverse_reverse, value_str]

/-! ## Generation and triage -/

/-- A mutant and the triage of its module agree. -/
structure Agrees (h : Host F) (body : List (Ast F)) (path : Text) (g : Place × Mutant) : Prop where
  /-- The change is taken back, and the text is that of the module with the change. -/
  restores : ∃ site ∈ (allSites h body).map Prod.snd, ∃ i,
    ((root body).modifyAt site.apply g.1).modifyAt site.undo g.1 = root body ∧
    g.2 = mutantOf h path (body.map h.unparse) g.1 i site ((root body).modifyAt site.apply g.1)
  oneStatement : ∃ idx < body.length, ∃ stmt,
    g.2.source = moduleText ((body.map h.unparse).set idx stmt)
  sameId : g.2.id ∈ (generate h body path []).map Mutant.id
  /-- Triage finds the site of the mutant by its id, describes the code it sits in and gives the
  mutant the class of that code. -/
  triaged : ∃ s n, (sites h body).lookup (siteIndex h.alphabet g.2.id) = some s ∧
    (root body).get g.1 = some n ∧ s.op = g.2.op ∧ s.line = g.2.lineno ∧
    (s.enclosing, s.assign, s.text) = describe h (root body) g.1 n ∧
    classOf h body g.2.id = classify h n g.2.op s.assign s.text

variable {h : Host F} {body : List (Ast F)} {path : Text}

theorem generated_restores {ops : List Text} {g : Place × Mutant}
    (hg : g ∈ generateAt h body path ops) :
    ∃ site ∈ (allSites h body).map Prod.snd, ∃ i,
      ((root body).modifyAt site.apply g.1).modifyAt site.undo g.1 = root body ∧
      g.2 = mutantOf h path (body.map h.unparse) g.1 i site
        ((root body).modifyAt site.apply g.1) := by
  obtain ⟨p, site, i, hsite, -, rfl⟩ := mem_generateAt.mp hg
  have hmem := List.mem_of_getElem? hsite
  obtain ⟨-, -, n, -, -, hn, hsound⟩ := allSites_sound hmem
  exact ⟨site, List.mem_map_of_mem hmem, i, modifyAt_modifyAt hn hsound.restores, rfl⟩

theorem set_eq_take_drop {α : Type} {xs : List α} {i : ℕ} (hi : i < xs.length) (x : α) :
    xs.take i ++ [x] ++ xs.drop (i + 1) = xs.set i x := by
  rw [List.set_eq_take_append_cons_drop, if_pos hi]
  simp

theorem generated_oneStatement {ops : List Text} {g : Place × Mutant}
    (hg : g ∈ generateAt h body path ops) :
    ∃ idx < body.length, ∃ stmt, g.2.source = moduleText ((body.map h.unparse).set idx stmt) := by
  obtain ⟨p, site, i, hsite, -, rfl⟩ := mem_generateAt.mp hg
  obtain ⟨idx, rest, n, rfl, hidx, -, -⟩ := allSites_sound (List.mem_of_getElem? hsite)
  refine ⟨idx, hidx, _, congrArg moduleText (set_eq_take_drop ?_ _)⟩
  rw [List.length_map]
  exact hidx

theorem generated_sameId {ops : List Text} {g : Place × Mutant}
    (hg : g ∈ generateAt h body path ops) : g.2.id ∈ (generate h body path []).map Mutant.id := by
  obtain ⟨p, site, i, hsite, -, rfl⟩ := mem_generateAt.mp hg
  exact List.mem_map_of_mem (List.mem_map_of_mem
    (mem_generateAt.mpr ⟨p, site, i, hsite, .inl rfl, rfl⟩))

theorem lookup_zipIdx_map {α β : Type} (f : α × ℕ → β) (xs : List α) (k i : ℕ) :
    ((xs.zipIdx k).map fun x ↦ (x.2, f x)).lookup (k + i) = xs[i]?.map fun x ↦ f (x, k + i) := by
  induction xs generalizing k i with
  | nil => rfl
  | cons x xs ih =>
    rw [List.zipIdx_cons, List.map_cons, List.lookup_cons]
    cases i with
    | zero => simp
    | succ i =>
      have hne : (k + (i + 1) == k) = false := by simp
      have hrest := ih (k + 1) i
      rw [Nat.add_right_comm, Nat.add_assoc] at hrest
      rw [hne, List.getElem?_cons_succ]
      exact hrest

theorem lookup_sites (i : ℕ) :
    (sites h body).lookup i = (sitesIn siteOf (root body))[i]?.map fun s ↦
      triageSite h (root body) s.1 s.2 i := by
  have hlookup := lookup_zipIdx_map
    (fun s : (Place × Site F) × ℕ ↦ triageSite h (root body) s.1.1 s.1.2 s.2)
    (sitesIn siteOf (root body)) 0 i
  rw [Nat.zero_add] at hlookup
  exact hlookup

/-- A mutant is found by triage exactly if its site is one of the first walk. -/
theorem generated_triaged {ops : List Text} {g : Place × Mutant}
    (hg : g ∈ generateAt h body path ops) :
    (∃ s n, (sites h body).lookup (siteIndex h.alphabet g.2.id) = some s ∧
      (root body).get g.1 = some n ∧ s.op = g.2.op ∧ s.line = g.2.lineno ∧
      (s.enclosing, s.assign, s.text) = describe h (root body) g.1 n ∧
      classOf h body g.2.id = classify h n g.2.op s.assign s.text) ↔ g.2.op ≠ .fconst := by
  obtain ⟨p, site, i, hsite, -, rfl⟩ := mem_generateAt.mp hg
  have hindex : siteIndex h.alphabet (mutantOf h path (body.map h.unparse) p i site
      ((root body).modifyAt site.apply p)).id = i := siteIndex_mutantId _ _ _ _ _
  dsimp only
  unfold classOf
  rw [hindex, lookup_sites]
  unfold allSites at hsite
  by_cases hi : i < (sitesIn siteOf (root body)).length
  · rw [List.getElem?_append_left hi] at hsite
    obtain ⟨n, hn, hs⟩ := mem_sitesIn.mp (List.mem_of_getElem? hsite)
    refine iff_of_true ?_ (siteOf_op hs)
    have hnode := (siteOf_sound hs).node
    rw [hsite]
    refine ⟨_, n, rfl, hn, rfl, rfl, ?_, ?_⟩
    · unfold triageSite
      dsimp only
      rw [hnode]
    · change classify h site.node site.op (describe h (root body) p site.node).2.1
        (describe h (root body) p site.node).2.2 =
          classify h n site.op (describe h (root body) p site.node).2.1
            (describe h (root body) p site.node).2.2
      rw [hnode]
  · rw [List.getElem?_append_right (not_lt.mp hi)] at hsite
    obtain ⟨n, hn, hs⟩ := mem_sitesIn.mp (List.mem_of_getElem? hsite)
    refine iff_of_false ?_ fun hop ↦ hop (lateSiteOf_op hs)
    rw [List.getElem?_eq_none (not_lt.mp hi)]
    rintro ⟨s, n', hs', -⟩
    cases hs'

/-- The mutants and triage agree exactly if no float is mutated: the operators leave floats out, or
the module has none. -/
theorem mutants_triaged_iff (h : Host F) (body : List (Ast F)) (path : Text) (ops : List Text) :
    (∀ g ∈ generateAt h body path ops, Agrees h body path g) ↔
      (ops ≠ [] ∧ Op.fconst.name ∉ ops) ∨
        ∀ p n f, (root body).get p = some n → kind n ≠ .constant (.float f) := by
  constructor
  · intro hall
    by_contra hnot
    rw [not_or] at hnot
    obtain ⟨hops, hfloat⟩ := hnot
    simp only [ne_eq, not_forall, not_not] at hfloat
    obtain ⟨p, n, f, hn, hf⟩ := hfloat
    obtain ⟨site, hsite⟩ := (mem_lateSites (h := h)).mpr ⟨n, f, hn, hf⟩
    obtain ⟨n', -, hs⟩ := mem_sitesIn.mp hsite
    have hop := lateSiteOf_op hs
    obtain ⟨i, hi⟩ :=
      List.mem_iff_getElem?.mp (List.mem_append_right (sitesIn siteOf (root body)) hsite)
    have hchosen : ops = [] ∨ site.op.name ∈ ops := by
      rw [hop]
      by_cases hempty : ops = []
      · exact .inl hempty
      · exact .inr (not_not.mp fun hmem ↦ hops ⟨hempty, hmem⟩)
    have hg : (p, mutantOf h path (body.map h.unparse) p i site
        ((root body).modifyAt site.apply p)) ∈ generateAt h body path ops :=
      mem_generateAt.mpr ⟨p, site, i, hi, hchosen, rfl⟩
    exact (generated_triaged hg).mp (hall _ hg).triaged hop
  · intro hcond g hg
    refine ⟨generated_restores hg, generated_oneStatement hg, generated_sameId hg,
      (generated_triaged hg).mpr ?_⟩
    intro hop
    obtain ⟨p, site, i, hsite, hops, rfl⟩ := mem_generateAt.mp hg
    have hname : site.op = .fconst := hop
    rcases hcond with ⟨hne, hmem⟩ | hfloat
    · rw [hname] at hops
      exact hops.elim hne hmem
    · rcases List.mem_append.mp (List.mem_of_getElem? hsite) with hlegacy | hlate
      · obtain ⟨n, -, hs⟩ := mem_sitesIn.mp hlegacy
        exact siteOf_op hs hname
      · obtain ⟨n, f, hn, hf⟩ := mem_lateSites.mp ⟨site, hlate⟩
        exact hfloat p n f hn hf

def plainHost : Host ℚ where
  alphabet := plain
  unparse := fun _ ↦ "x = 1.5".toList
  reprFloat := fun _ ↦ "1.5".toList
  addOne := (· + 1)

/-- `x = 1.5`. -/
def floatModule : List (Ast ℚ) :=
  [.node ⟨"body", .assign, 1, some 1⟩
    [.node ⟨"targets", .other "Name".toList, 1, some 1⟩ [],
      .node ⟨"value", .constant (.float (3 / 2)), 1, some 1⟩ []]]

/-- The only mutant of the module has an index that triage does not know. -/
theorem float_without_site :
    (generate plainHost floatModule "m.py".toList []).map Mutant.id = ["m.py:1:fconst#0".toList] ∧
      ¬ ∀ g ∈ generateAt plainHost floatModule "m.py".toList [],
        Agrees plainHost floatModule "m.py".toList g := by
  refine ⟨by decide +kernel, fun hall ↦ ?_⟩
  obtain ⟨g, hg⟩ : ∃ g, (generateAt plainHost floatModule "m.py".toList [])[0]? = some g := ⟨_, rfl⟩
  have hmem := List.mem_of_getElem? hg
  refine (generated_triaged hmem).mp (hall g hmem).triaged ?_
  cases hg
  rfl

end NucLlm.Swe.Mutation
