import NucLlm.Whence.Diverge

/-!
# Trees

A payload denotes a tree: numbers stand for themselves, whatever their type, and
of a guess only the answer counts.  Without functions, misses, explanations and
NaNs, structural equality is the equality of the trees.
-/

namespace NucLlm.Whence

inductive Tree where
  | bool (b : Bool)
  | num (n : Exact)
  | str (s : String)
  | list (items : List Tree)
  | record (names : List String) (values : List Tree)
  | guess (answer : Option Tree)
  | incomparable

namespace Provenance

variable {N P : Type} (G : Provenance N P)

/-- The tree a payload denotes. -/
def tree (p : P) : Tree :=
  G.parts.recurse (fun p below ↦
    match G.cell p with
    | .bool b => .bool b
    | .num n => .num n.exact
    | .str s => .str s
    | .list _ => .list below
    | .record fields => .record (fields.map Prod.fst) below
    | .guess _ _ _ => .guess below.head?
    | _ => .incomparable) p

theorem tree_eq (p : P) :
    G.tree p = match G.cell p with
      | .bool b => .bool b
      | .num n => .num n.exact
      | .str s => .str s
      | .list items => .list (items.map fun m ↦ G.tree (G.value m))
      | .record fields =>
          .record (fields.map Prod.fst) (fields.map fun f ↦ G.tree (G.value f.2))
      | .guess m _ _ => .guess (some (G.tree (G.value m)))
      | _ => .incomparable := by
  unfold tree
  rw [Ranked.recurse_eq]
  unfold parts
  cases h : G.cell p <;> simp [h, Cell.elements, Function.comp_def]

/-! ## Payloads that can be compared -/

/-- A payload in which everything can be compared. -/
structure Comparable (p : P) : Prop where
  comparable : ∀ q, G.parts.Reach p q → (G.cell q).isOpaque = false
  numbers : ∀ q n, G.parts.Reach p q → G.cell q = .num n → n.isNaN = false

variable {G}

theorem Comparable.element {p : P} (h : G.Comparable p) {m : N} (hm : m ∈ (G.cell p).elements) :
    G.Comparable (G.value m) := by
  have hedge : G.parts.Edge p (G.value m) := List.mem_map_of_mem hm
  constructor
  · intro q hq
    exact h.comparable q (.head hedge hq)
  · intro q n hq hn
    exact h.numbers q n (.head hedge hq) hn

theorem Comparable.self {p : P} (h : G.Comparable p) : (G.cell p).isOpaque = false :=
  h.comparable p .refl

/-! ## Verdicts -/

/-- The verdict says whether the statement is true. -/
def Settles (verdict : Option Bool) (same : Prop) : Prop :=
  ∃ b, verdict = some b ∧ (b = true ↔ same)

theorem settles_conclude {α : Type} {verdict : α → Option Bool} {same : α → Prop} {as : List α}
    (h : ∀ a ∈ as, Settles (verdict a) (same a)) :
    Settles (conclude (as.map verdict)) (∀ a ∈ as, same a) := by
  induction as with
  | nil => exact ⟨true, rfl, by simp⟩
  | cons a as ih =>
      obtain ⟨b, hb, hsame⟩ := h a List.mem_cons_self
      cases b with
      | true =>
          obtain ⟨b', hb', hsame'⟩ := ih fun a' ha' ↦ h a' (List.mem_cons_of_mem a ha')
          refine ⟨b', by simp [conclude, hb, hb'], ?_⟩
          have ha : same a := hsame.mp rfl
          simp [hsame', ha]
      | false =>
          refine ⟨false, by simp [conclude, hb], ?_⟩
          have ha : ¬same a := fun ha ↦ absurd (hsame.mpr ha) (by decide)
          simp [ha]

theorem settles_pairs {ps : List (P × P)} {same : Prop}
    (h : ∀ q ∈ ps, Settles (G.equality q) (G.tree q.1 = G.tree q.2))
    (hsame : (∀ q ∈ ps, G.tree q.1 = G.tree q.2) ↔ same) :
    Settles (conclude (ps.map G.equality).reverse) same := by
  have hreverse : ∀ q ∈ ps.reverse, Settles (G.equality q) (G.tree q.1 = G.tree q.2) := by
    intro q hq
    exact h q (List.mem_reverse.mp hq)
  obtain ⟨b, hb, hiff⟩ := settles_conclude hreverse
  rw [← List.map_reverse]
  refine ⟨b, hb, hiff.trans ?_⟩
  simpa only [List.mem_reverse] using hsame

theorem valuePairs_same {ms ms' : List N} (hlength : ms.length = ms'.length) :
    (∀ q ∈ G.valuePairs ms ms', G.tree q.1 = G.tree q.2) ↔
      ms.map (fun m ↦ G.tree (G.value m)) = ms'.map fun m ↦ G.tree (G.value m) := by
  induction ms generalizing ms' with
  | nil =>
      obtain rfl : ms' = [] := List.length_eq_zero_iff.mp hlength.symm
      simp [valuePairs]
  | cons m ms ih =>
      cases ms' with
      | nil => contradiction
      | cons m' ms' =>
          have hlength' : ms.length = ms'.length := by simpa using hlength
          have htail := ih hlength'
          unfold valuePairs at htail ⊢
          rw [List.zip_cons_cons, List.map_cons, List.forall_mem_cons, htail]
          simp

/-! ## Structural equality is equality of trees -/

theorem settles_settled {l r : P} {same : Prop} {b : Bool} (h : G.compare l r = settled b)
    (hb : b = true ↔ same) : Settles (G.equality (l, r)) same := by
  refine ⟨b, ?_, hb⟩
  rw [G.equality_eq]
  dsimp only
  rw [h]
  cases b <;> simp [settled, conclude]

theorem settles_differ {l r : P} {same : Prop} (h : G.compare l r = .differ) (hsame : ¬same) :
    Settles (G.equality (l, r)) same := by
  refine ⟨false, ?_, by simp [hsame]⟩
  rw [G.equality_eq]
  dsimp only
  rw [h]

theorem settles_agree {l r : P} {same : Prop} {pairs : List (P × P)}
    (h : G.compare l r = .agree pairs)
    (hpairs : ∀ q ∈ pairs, Settles (G.equality q) (G.tree q.1 = G.tree q.2))
    (hsame : (∀ q ∈ pairs, G.tree q.1 = G.tree q.2) ↔ same) :
    Settles (G.equality (l, r)) same := by
  rw [G.equality_eq]
  dsimp only
  rw [h]
  exact settles_pairs hpairs hsame

theorem settles_tree (p : P × P) (hl : G.Comparable p.1) (hr : G.Comparable p.2) :
    Settles (G.equality p) (G.tree p.1 = G.tree p.2) := by
  induction p using G.payloadPairs.induction with
  | step p ih =>
      obtain ⟨l, r⟩ := p
      dsimp only at hl hr ⊢
      have hpairs : ∀ pairs, G.compare l r = .agree pairs →
          ∀ q ∈ pairs, Settles (G.equality q) (G.tree q.1 = G.tree q.2) := by
        intro pairs hagree q hq
        have helements := G.compare_agree hagree
        obtain ⟨z, hz, rfl⟩ := List.mem_map.mp (helements ▸ hq)
        obtain ⟨hz1, hz2⟩ := List.of_mem_zip hz
        apply ih
        · rwa [G.payloadPairs_next hagree]
        · exact hl.element hz1
        · exact hr.element hz2
      have hopen := hl.self
      have hopen' := hr.self
      rw [G.tree_eq l, G.tree_eq r]
      cases hcell : G.cell l <;> cases hcell' : G.cell r
      case bool.bool b b' =>
        have hcompare : G.compare l r = settled (b = b') := by
          simp [compare, hcell, hcell', Cell.isOpaque]
        exact settles_settled hcompare (by simp)
      case num.num n n' =>
        have hcompare : G.compare l r = settled (n.equal n') := by
          simp [compare, hcell, hcell', Cell.isOpaque]
        have hnumber : n.isNaN = false := hl.numbers l n .refl hcell
        exact settles_settled hcompare (by simp [Num.equal, hnumber])
      case str.str s s' =>
        have hcompare : G.compare l r = settled (s = s') := by
          simp [compare, hcell, hcell', Cell.isOpaque]
        exact settles_settled hcompare (by simp)
      case list.list items items' =>
        by_cases hlength : items.length = items'.length
        · have hcompare : G.compare l r = .agree (G.valuePairs items items') := by
            simp [compare, hcell, hcell', Cell.isOpaque, hlength]
          apply settles_agree hcompare (hpairs _ hcompare)
          rw [valuePairs_same hlength, Tree.list.injEq]
        · have hcompare : G.compare l r = .differ := by
            simp [compare, hcell, hcell', Cell.isOpaque, hlength]
          apply settles_differ hcompare
          intro hsame
          apply hlength
          have hitems := congrArg List.length (Tree.list.inj hsame)
          simpa using hitems
      case record.record fields fields' =>
        have hrecord := G.compare_record hcell hcell'
        by_cases hkeys : fields.map Prod.fst = fields'.map Prod.fst
        · rw [if_pos hkeys] at hrecord
          have hlength : (fields.map Prod.snd).length = (fields'.map Prod.snd).length := by
            simpa using congrArg List.length hkeys
          apply settles_agree hrecord (hpairs _ hrecord)
          rw [valuePairs_same hlength, Tree.record.injEq]
          simp [hkeys, Function.comp_def]
        · rw [if_neg hkeys] at hrecord
          apply settles_differ hrecord
          intro hsame
          exact hkeys (Tree.record.inj hsame).1
      case guess.guess m _ _ m' _ _ =>
        have hcompare : G.compare l r = .agree [(G.value m, G.value m')] := by
          simp [compare, hcell, hcell', Cell.isOpaque]
        apply settles_agree hcompare (hpairs _ hcompare)
        simp
      all_goals
        first
        | simp [hcell, Cell.isOpaque] at hopen; done
        | simp [hcell', Cell.isOpaque] at hopen'; done
        | exact settles_differ (by simp [compare, hcell, hcell', Cell.isOpaque]) (by simp)

/-! ## Calls that share a memo -/

variable (G) [DecidableEq P]

/-- The verdicts of calls of `deep_eq` that hand the memo on. -/
def sharing (memo : List (P × P)) : List (P × P) → List (Option Bool)
  | [] => []
  | call :: calls =>
      match G.deepEq (some memo) call.1 call.2 with
      | (some true, seen) => some true :: sharing (memo ++ seen) calls
      | (verdict, _) => verdict :: sharing memo calls

/-- The verdicts of calls of `same_payload` that hand the memo on. -/
def sharingPayloads (F : FloatOps) (memo : List (P × P)) : List (P × P) → List Bool
  | [] => []
  | call :: calls =>
      let (verdict, memo) := G.samePayload F call.1 call.2 memo
      verdict :: sharingPayloads F memo calls

variable {G} {memo : List (P × P)}

theorem sharing_eq (hmemo : ∀ q ∈ memo, G.equality q = some true) (calls : List (P × P)) :
    G.sharing memo calls = calls.map G.equality := by
  induction calls generalizing memo with
  | nil => rfl
  | cons call calls ih =>
      have hremembers : G.Remembers (some memo) := by
        intro known hknown
        obtain rfl := Option.mem_some.mp hknown
        exact hmemo
      obtain ⟨hverdict, hseen⟩ := deepEq_spec hremembers call.1 call.2
      rw [sharing, List.map_cons]
      split
      · rename_i seen heq
        rw [heq] at hverdict hseen
        have hmemo' : ∀ q ∈ memo ++ seen, G.equality q = some true := by
          intro q hq
          rcases List.mem_append.mp hq with hq | hq
          · exact hmemo q hq
          · exact hseen hverdict.symm q hq
        rw [ih hmemo']
        exact congrArg (· :: calls.map G.equality) hverdict
      · rename_i verdict seen _ heq
        rw [heq] at hverdict
        rw [ih hmemo]
        exact congrArg (· :: calls.map G.equality) hverdict

theorem sharingPayloads_eq [DecidableEq N] {F : FloatOps}
    (hmemo : ∀ q ∈ memo, G.equality q = some true)
    (calls : List (P × P)) :
    G.sharingPayloads F memo calls = calls.map fun call ↦ G.agree F call.1 call.2 := by
  induction calls generalizing memo with
  | nil => rfl
  | cons call calls ih =>
      obtain ⟨hverdict, hmemo'⟩ := samePayload_spec (F := F) call.1 call.2 hmemo
      rw [sharingPayloads, List.map_cons, ← hverdict, ← ih hmemo']

variable (G)

theorem deepEq_fresh (l r : P) : (G.deepEq none l r).1 = G.equality (l, r) := by
  have hmemo : G.Remembers none := nofun
  exact (deepEq_spec hmemo l r).1

end Provenance

end NucLlm.Whence
