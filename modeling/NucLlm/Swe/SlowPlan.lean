import NucLlm.Lib.Floats
import NucLlm.Lib.Sorting
import Mathlib.Algebra.BigOperators.Group.List.Lemmas
import Mathlib.Algebra.Order.BigOperators.Group.List
import Mathlib.Algebra.Order.Field.Rat
import Mathlib.Data.Prod.Lex
import Mathlib.Data.String.Basic
import Mathlib.Tactic.Linarith

/-!
# Planning the slow tier

The units whose evidence is worst are planned first, as long as their estimates fit the budget.
Seconds and sizes are floats of double precision, and every sum and product of them is rounded.
-/

namespace NucLlm.Swe.SlowTier

open NucLlm.Floats NucLlm.Sorting
open scoped List

inductive Outcome where
  | passed
  | failed
  | timeout
deriving DecidableEq

inductive State where
  | unknown
  | raced
  | staleCheckout
  | staleSubject
  | unstamped
  | staleHarness
  | freshPass
  | freshPassScoped
  | freshFail
  | freshFailScoped
deriving DecidableEq

inductive Kind where
  | whole
  | light
  | heavy
deriving DecidableEq

/-- A row of the status, as the planner reads it. -/
structure Row where
  unit : Option String
  file : String
  kind : Kind
  unitTests : List String
  inherited : Bool
  state : State
  outcome : Option Outcome
  finishedAt : Option ℚ
  seconds : Option ℚ
deriving DecidableEq

/-- What the planner reads of the directory with the tests. -/
structure TestsDir where
  getsize : String → Option ℕ
  fileTestNames : String → Option (List String)

def conclusive : List State := [.freshPass, .freshFail]

def failing : List State := [.freshFail, .freshFailScoped]

def recordedFailingButStale (r : Row) : Bool :=
  r.outcome = some .failed ∧ r.state ∉ failing

/-- `_size_prior`. -/
def sizePrior (dir : TestsDir) (r : Row) : ℚ :=
  match dir.getsize r.file with
  | none => 0
  | some bytes =>
    let size := double (double bytes / 1000000)
    if r.kind = .light then
      let names := (dir.fileTestNames r.file).getD []
      let lightN := (names.filter (· ∉ r.unitTests)).length
      if names ≠ [] ∧ lightN ≠ 0 then double (size * double (lightN / names.length)) else size
    else size

/-- `_uid`: the empty string counts as no unit. -/
def Row.uid (r : Row) : String :=
  match r.unit with
  | some unit => if unit = "" then r.file else unit
  | none => r.file

/-- `x or y` for numbers. -/
def orElse (x : Option ℚ) (y : ℚ) : ℚ :=
  match x with
  | some q => if q = 0 then y else q
  | none => y

/-- `_est`. -/
def Row.est (r : Row) : Option ℚ := if r.inherited then none else r.seconds

/-- What a unit is taken to cost, as a float: an integer becomes one in the first sum. -/
def Row.cost (defaultS : ℚ) (r : Row) : ℚ := double (orElse r.est defaultS)

/-- The key of the priority order. -/
def Row.key (dir : TestsDir) (defaultS : ℚ) (r : Row) : ℕ ×ₗ ℕ ×ₗ ℚ ×ₗ ℚ ×ₗ String :=
  toLex (if r.state ∈ conclusive then 1 else 0,
    toLex (if recordedFailingButStale r then 0 else 1,
      toLex (orElse r.finishedAt 0,
        toLex (orElse r.est (plus defaultS (sizePrior dir r)), r.uid))))

/-- The rows in the priority order. -/
def ordered (dir : TestsDir) (defaultS : ℚ) (rows : List Row) : List Row :=
  sortedBy (Row.key dir defaultS) rows

/-- The loop of `plan`. -/
def pick (defaultS budget : ℚ) : List Row → List Row → ℚ → List Row
  | [], picked, _ => picked
  | r :: rest, picked, spent =>
    if picked ≠ [] ∧ budget < plus spent (r.cost defaultS) then
      pick defaultS budget rest picked spent
    else if budget ≤ plus spent (r.cost defaultS) then picked ++ [r]
    else pick defaultS budget rest (picked ++ [r]) (plus spent (r.cost defaultS))

/-- `plan`. -/
def plan (dir : TestsDir) (rows : List Row) (budget defaultS : ℚ) : List String :=
  (pick defaultS budget (ordered dir defaultS rows) [] 0).map Row.uid

/-- What rows cost together, exactly. -/
def costs (defaultS : ℚ) (rows : List Row) : ℚ := (rows.map (Row.cost defaultS)).sum

/-- What rows come to when their costs are added to `spent` one after the other. -/
def totalFrom (defaultS : ℚ) : ℚ → List Row → ℚ
  | spent, [] => spent
  | spent, r :: rows => totalFrom defaultS (plus spent (r.cost defaultS)) rows

/-- The sum of the costs, as floats add. -/
def total (defaultS : ℚ) (rows : List Row) : ℚ := totalFrom defaultS 0 rows

variable {defaultS budget : ℚ}

@[simp] theorem costs_nil : costs defaultS [] = 0 := rfl

@[simp] theorem costs_cons (r : Row) (rows : List Row) :
    costs defaultS (r :: rows) = r.cost defaultS + costs defaultS rows := by
  simp [costs]

theorem totalFrom_append (spent : ℚ) (rows rows' : List Row) :
    totalFrom defaultS spent (rows ++ rows') =
      totalFrom defaultS (totalFrom defaultS spent rows) rows' := by
  induction rows generalizing spent with
  | nil => rfl
  | cons r rows ih => exact ih _

/-- A running sum does not fall. -/
theorem le_totalFrom {rows : List Row} (hpos : ∀ r ∈ rows, 0 < r.cost defaultS) {spent : ℚ}
    (hspent : 0 ≤ spent) (hfloat : double spent = spent) :
    spent ≤ totalFrom defaultS spent rows := by
  induction rows generalizing spent with
  | nil => exact le_rfl
  | cons r rows ih =>
    have hr := (hpos r List.mem_cons_self).le
    have hstep := le_plus hspent hfloat hr
    exact hstep.trans (ih (fun r' hr' ↦ hpos r' (List.mem_cons_of_mem _ hr')) (hspent.trans hstep)
      (double_plus hspent hr))

/-- A running sum stays a float. -/
theorem double_totalFrom {rows : List Row} (hpos : ∀ r ∈ rows, 0 < r.cost defaultS) {spent : ℚ}
    (hspent : 0 ≤ spent) (hfloat : double spent = spent) :
    double (totalFrom defaultS spent rows) = totalFrom defaultS spent rows := by
  induction rows generalizing spent with
  | nil => exact hfloat
  | cons r rows ih =>
    have hr := (hpos r List.mem_cons_self).le
    exact ih (fun r' hr' ↦ hpos r' (List.mem_cons_of_mem _ hr'))
      (hspent.trans (le_plus hspent hfloat hr)) (double_plus hspent hr)

/-- Rows are taken while they fit in what is left, and passed over when they do not or when
nothing is left. -/
inductive Takes (defaultS budget : ℚ) : ℚ → List Row → List Row → Prop where
  | nil {spent : ℚ} : Takes defaultS budget spent [] []
  | take {spent : ℚ} {r : Row} {rest chosen : List Row} (room : spent < budget)
      (fits : plus spent (r.cost defaultS) ≤ budget)
      (h : Takes defaultS budget (plus spent (r.cost defaultS)) rest chosen) :
      Takes defaultS budget spent (r :: rest) (r :: chosen)
  | skip {spent : ℚ} {r : Row} {rest chosen : List Row} (exceeds : budget < spent + r.cost defaultS)
      (h : Takes defaultS budget spent rest chosen) : Takes defaultS budget spent (r :: rest) chosen

namespace Takes

variable {spent : ℚ} {rest chosen : List Row}

theorem sublist (h : Takes defaultS budget spent rest chosen) : chosen <+ rest := by
  induction h with
  | nil => exact List.nil_sublist _
  | take _ _ _ ih => exact ih.cons_cons _
  | skip _ _ ih => exact ih.cons _

theorem within (h : Takes defaultS budget spent rest chosen) (hspent : spent ≤ budget) :
    totalFrom defaultS spent chosen ≤ budget := by
  induction h with
  | nil => exact hspent
  | take _ fits _ ih => exact ih fits
  | skip _ _ ih => exact ih hspent

/-- With the budget used up nothing is taken. -/
theorem of_spent (hpos : ∀ r ∈ rest, 0 < r.cost defaultS) (hspent : budget ≤ spent) :
    Takes defaultS budget spent rest [] := by
  induction rest with
  | nil => exact .nil
  | cons r rest ih =>
    have hr := hpos r List.mem_cons_self
    exact .skip (by linarith) (ih fun r hr ↦ hpos r (List.mem_cons_of_mem _ hr))

theorem eq_nil (h : Takes defaultS budget spent rest chosen) (hspent : budget ≤ spent) :
    chosen = [] := by
  induction h with
  | nil => rfl
  | take room _ _ _ => exact absurd hspent (not_le.mpr room)
  | skip _ _ ih => exact ih hspent

/-- A row that was passed over did not fit in what was left at its turn. -/
theorem passed_over (h : Takes defaultS budget spent rest chosen) (hnodup : rest.Nodup)
    {a c : List Row} {r : Row} (hrest : rest = a ++ r :: c) (hr : r ∉ chosen) :
    budget < totalFrom defaultS spent (a.filter (· ∈ chosen)) + r.cost defaultS := by
  induction h generalizing a with
  | nil => simp at hrest
  | @take spent r' rest chosen room fits h ih =>
    obtain ⟨hr', hnodup'⟩ := List.nodup_cons.mp hnodup
    cases a with
    | nil =>
      obtain ⟨rfl, -⟩ := List.cons.inj hrest
      exact absurd List.mem_cons_self hr
    | cons d a =>
      obtain ⟨rfl, hrest'⟩ := List.cons.inj hrest
      have hlater := ih hnodup' hrest' fun hmem ↦ hr (List.mem_cons_of_mem _ hmem)
      have hfilter : a.filter (· ∈ r' :: chosen) = a.filter (· ∈ chosen) := by
        apply List.filter_congr
        intro x hx
        have hne : x ≠ r' := by
          rintro rfl
          apply hr'
          rw [hrest']
          exact List.mem_append_left _ hx
        simp [hne]
      rw [List.filter_cons_of_pos (by simp), hfilter]
      exact hlater
  | @skip spent r' rest chosen exceeds h ih =>
    obtain ⟨hr', hnodup'⟩ := List.nodup_cons.mp hnodup
    cases a with
    | nil =>
      obtain ⟨rfl, -⟩ := List.cons.inj hrest
      exact exceeds
    | cons d a =>
      obtain ⟨rfl, hrest'⟩ := List.cons.inj hrest
      have hnot : r' ∉ chosen := fun hmem ↦ hr' (h.sublist.subset hmem)
      rw [List.filter_cons_of_neg (by simpa using hnot)]
      exact ih hnodup' hrest' hr

end Takes

theorem pick_takes (hbudget : double budget = budget) {rest : List Row}
    (hpos : ∀ r ∈ rest, 0 < r.cost defaultS) (picked : List Row) (hpicked : picked ≠ []) {spent : ℚ}
    (hspent : 0 ≤ spent) (hfloat : double spent = spent) (hroom : spent < budget) :
    ∃ chosen, pick defaultS budget rest picked spent = picked ++ chosen ∧
      Takes defaultS budget spent rest chosen := by
  induction rest generalizing picked spent with
  | nil => exact ⟨[], by simp [pick], .nil⟩
  | cons r rest ih =>
    have hpos' (r' : Row) (hr' : r' ∈ rest) := hpos r' (List.mem_cons_of_mem _ hr')
    have hr := (hpos r List.mem_cons_self).le
    unfold pick
    split
    · rename_i hexceeds
      obtain ⟨chosen, heq, htakes⟩ := ih hpos' picked hpicked hspent hfloat hroom
      exact ⟨chosen, heq, .skip (lt_of_lt_plus hspent hr hbudget hexceeds.2) htakes⟩
    · rename_i hfits
      have hfits' : plus spent (r.cost defaultS) ≤ budget := by
        by_contra hnot
        exact hfits ⟨hpicked, not_le.mp hnot⟩
      split
      · rename_i hfull
        exact ⟨[r], rfl, .take hroom hfits' (.of_spent hpos' hfull)⟩
      · rename_i hleft
        obtain ⟨chosen, heq, htakes⟩ := ih hpos' (picked ++ [r]) (by simp)
          (hspent.trans (le_plus hspent hfloat hr)) (double_plus hspent hr) (not_le.mp hleft)
        exact ⟨r :: chosen, by rw [heq]; simp, .take hroom hfits' htakes⟩

/-- The rows of the units that are planned. -/
def planned (units : List String) (rows : List Row) : List Row := rows.filter fun r ↦ r.uid ∈ units

/-- What the planner is for. `sum` says what rows cost together. -/
structure FillsBudget (dir : TestsDir) (rows : List Row) (budget defaultS : ℚ)
    (sum : List Row → ℚ) (units : List String) : Prop where
  nodup : units.Nodup
  listed : units = (planned units (ordered dir defaultS rows)).map Row.uid
  within : sum (planned units (ordered dir defaultS rows)) ≤ budget ∨
    units.length = 1 ∧ ∀ r ∈ rows, budget < r.cost defaultS
  alone : rows ≠ [] → (∀ r ∈ rows, budget < r.cost defaultS) → units.length = 1
  maximal : ∀ r ∈ rows, r.uid ∉ units →
    budget < sum (planned units (ordered dir defaultS rows)) + r.cost defaultS
  inOrder : ∀ a r c, ordered dir defaultS rows = a ++ r :: c → r.uid ∉ units →
    (planned units c) ≠ [] → budget < sum (planned units a) + r.cost defaultS

/-- The row that comes first fits the budget alone, or no row does. -/
def FirstFits (dir : TestsDir) (rows : List Row) (budget defaultS : ℚ) : Prop :=
  ∀ first ∈ (ordered dir defaultS rows).head?,
    first.cost defaultS ≤ budget ∨ ∀ r ∈ rows, budget < r.cost defaultS

/-- No sum of costs is rounded. -/
def SumsExact (dir : TestsDir) (rows : List Row) (defaultS : ℚ) : Prop :=
  ∀ part, part <+ ordered dir defaultS rows → total defaultS part = costs defaultS part

section

variable {dir : TestsDir} {rows : List Row}

/-- Only the sums of parts of the priority order matter. -/
theorem FillsBudget.congr {sum sum' : List Row → ℚ} {units : List String}
    (hsum : ∀ part, part <+ ordered dir defaultS rows → sum part = sum' part)
    (h : FillsBudget dir rows budget defaultS sum units) :
    FillsBudget dir rows budget defaultS sum' units := by
  have hwhole := hsum _ (List.filter_sublist (p := fun r ↦ r.uid ∈ units))
  constructor
  · exact h.nodup
  · exact h.listed
  · have := h.within
    unfold planned at *
    rwa [← hwhole]
  · exact h.alone
  · have := h.maximal
    unfold planned at *
    rwa [← hwhole]
  · intro a r c hsplit hr hc
    have hpart : planned units a <+ ordered dir defaultS rows := by
      rw [hsplit]
      exact List.filter_sublist.trans (List.sublist_append_left _ _)
    rw [← hsum _ hpart]
    exact h.inOrder a r c hsplit hr hc

/-- Multiples of one power of two whose sum has at most 53 bits are added exactly. -/
theorem totalFrom_of_grid {k : ℤ} {part : List Row}
    (hgrid : ∀ r ∈ part, ∃ m : ℕ, r.cost defaultS = m * 2 ^ k) (n : ℕ)
    (hroom : n * 2 ^ k + costs defaultS part < 2 ^ 53 * 2 ^ k) :
    totalFrom defaultS (n * 2 ^ k) part = n * 2 ^ k + costs defaultS part := by
  have hk : (0 : ℚ) < 2 ^ k := by positivity
  induction part generalizing n with
  | nil => simp [totalFrom]
  | cons r part ih =>
    have hgrid' (r' : Row) (hr' : r' ∈ part) := hgrid r' (List.mem_cons_of_mem _ hr')
    obtain ⟨m, hm⟩ := hgrid r List.mem_cons_self
    have hsum : (n : ℚ) * 2 ^ k + r.cost defaultS = (n + m : ℕ) * 2 ^ k := by
      rw [hm, Nat.cast_add, add_mul]
    rw [costs_cons, ← add_assoc, hsum] at hroom
    have hrest : 0 ≤ costs defaultS part := by
      apply List.sum_nonneg
      intro q hq
      obtain ⟨r', hr', rfl⟩ := List.mem_map.mp hq
      obtain ⟨m', hm'⟩ := hgrid' r' hr'
      rw [hm']
      positivity
    have hbits : n + m < 2 ^ 53 := by
      have hlt : ((n + m : ℕ) : ℚ) * 2 ^ k < 2 ^ 53 * 2 ^ k := by linarith
      exact_mod_cast lt_of_mul_lt_mul_right hlt hk.le
    have hplus : plus (n * 2 ^ k) (r.cost defaultS) = (n + m : ℕ) * 2 ^ k := by
      rw [plus, hsum, double_of_bits hbits]
    rw [totalFrom, hplus, ih hgrid' (n + m) hroom, costs_cons, ← add_assoc, hsum]

theorem sumsExact_of_grid {k : ℤ} (hgrid : ∀ r ∈ rows, ∃ m : ℕ, r.cost defaultS = m * 2 ^ k)
    (hroom : costs defaultS rows < 2 ^ 53 * 2 ^ k) : SumsExact dir rows defaultS := by
  have hperm : (ordered dir defaultS rows).Perm rows := sortedBy_perm _ rows
  intro part hpart
  have hle : costs defaultS part ≤ costs defaultS rows := by
    have h : costs defaultS (ordered dir defaultS rows) = costs defaultS rows :=
      (hperm.map _).sum_eq
    rw [← h]
    apply (hpart.map _).sum_le_sum
    intro q hq
    obtain ⟨r, hr, rfl⟩ := List.mem_map.mp hq
    obtain ⟨m, hm⟩ := hgrid r (hperm.subset hr)
    rw [hm]
    positivity
  have h := totalFrom_of_grid (fun r hr ↦ hgrid r (hperm.subset (hpart.subset hr))) 0 (by
    simp only [Nat.cast_zero, zero_mul, zero_add]
    exact hle.trans_lt hroom)
  simpa [total] using h

end

theorem est_pos (hdefault : 0 < defaultS) {r : Row} (hr : ∀ s, r.seconds = some s → 0 < s) :
    0 < orElse r.est defaultS := by
  unfold Row.est orElse
  split
  · rename_i q hq
    split at hq
    · cases hq
    · split
      · exact hdefault
      · exact hr q hq
  · exact hdefault

/-- In a list without repetitions the elements of a part of it are that part. -/
theorem filter_mem_sublist {l l' : List Row} (h : l' <+ l) (hnodup : l.Nodup) :
    l.filter (· ∈ l') = l' := by
  induction h with
  | slnil => rfl
  | @cons l' l r h ih =>
    obtain ⟨hr, hnodup'⟩ := List.nodup_cons.mp hnodup
    rw [List.filter_cons_of_neg (by simpa using fun hmem ↦ hr (h.subset hmem))]
    exact ih hnodup'
  | @cons_cons l' l r h ih =>
    obtain ⟨hr, hnodup'⟩ := List.nodup_cons.mp hnodup
    rw [List.filter_cons_of_pos (by simp)]
    congr 1
    conv_rhs => rw [← ih hnodup']
    apply List.filter_congr
    intro x hx
    have hne : x ≠ r := by
      rintro rfl
      exact hr hx
    simp [hne]

variable (defaultS budget) in
/-- The first row is taken whatever it costs, and the others while they fit. -/
theorem pick_cons (hbudget : double budget = budget) (first : Row) {rest : List Row}
    (hpos : ∀ r ∈ first :: rest, 0 < r.cost defaultS)
    (hfloat : double (first.cost defaultS) = first.cost defaultS) :
    ∃ chosen, pick defaultS budget (first :: rest) [] 0 = first :: chosen ∧
      Takes defaultS budget (first.cost defaultS) rest chosen := by
  have hpos' (r : Row) (hr : r ∈ rest) := hpos r (List.mem_cons_of_mem _ hr)
  have hfirst := hpos first List.mem_cons_self
  unfold pick
  rw [if_neg fun h ↦ h.1 rfl, plus, zero_add, hfloat]
  split
  · rename_i hfull
    exact ⟨[], rfl, .of_spent hpos' hfull⟩
  · rename_i hroom
    exact pick_takes hbudget hpos' [first] (List.cons_ne_nil _ _) hfirst.le hfloat
      (not_le.mp hroom)

section

variable {dir : TestsDir} {rows : List Row} {first : Row} {rest chosen : List Row}

/-- Units that differ belong to different rows. -/
theorem planned_eq {l : List Row} (hnodup : (l.map Row.uid).Nodup) {picked part : List Row}
    (hpicked : picked ⊆ l) (hpart : part ⊆ l) :
    planned (picked.map Row.uid) part = part.filter (· ∈ picked) := by
  apply List.filter_congr
  intro r hr
  have hiff : r.uid ∈ picked.map Row.uid ↔ r ∈ picked := by
    constructor
    · intro h
      obtain ⟨r', hr', heq⟩ := List.mem_map.mp h
      rwa [List.inj_on_of_nodup_map hnodup (hpart hr) (hpicked hr') heq.symm]
    · exact List.mem_map_of_mem
  simp [hiff]

theorem passed_over_first (hfloat : double (first.cost defaultS) = first.cost defaultS)
    (hnodup : (first :: rest).Nodup)
    (htakes : Takes defaultS budget (first.cost defaultS) rest chosen) {a c : List Row} {r : Row}
    (hsplit : first :: rest = a ++ r :: c) (hr : r ∉ first :: chosen) :
    budget < total defaultS (a.filter (· ∈ first :: chosen)) + r.cost defaultS := by
  obtain ⟨hfirst, hnodup'⟩ := List.nodup_cons.mp hnodup
  cases a with
  | nil =>
    obtain ⟨rfl, -⟩ := List.cons.inj hsplit
    exact absurd List.mem_cons_self hr
  | cons d a =>
    obtain ⟨rfl, hrest⟩ := List.cons.inj hsplit
    have hpassed := htakes.passed_over hnodup' hrest fun h ↦ hr (List.mem_cons_of_mem _ h)
    have hfilter : a.filter (· ∈ first :: chosen) = a.filter (· ∈ chosen) := by
      apply List.filter_congr
      intro x hx
      have hne : x ≠ first := by
        rintro rfl
        apply hfirst
        rw [hrest]
        exact List.mem_append_left _ hx
      simp [hne]
    rw [List.filter_cons_of_pos (by simp), hfilter, total, totalFrom, plus, zero_add, hfloat]
    exact hpassed

/-- What `pick` takes from rows that begin with `first`. -/
structure Picked (defaultS budget : ℚ) (first : Row) (rest chosen : List Row) : Prop where
  uids : ((first :: rest).map Row.uid).Nodup
  pos : ∀ r ∈ first :: rest, 0 < r.cost defaultS
  float : double (first.cost defaultS) = first.cost defaultS
  takes : Takes defaultS budget (first.cost defaultS) rest chosen

namespace Picked

section

variable (h : Picked defaultS budget first rest chosen) {a c part : List Row} {r : Row}

include h

theorem sublist : (first :: chosen) <+ (first :: rest) := h.takes.sublist.cons_cons first

theorem nodup : (first :: rest).Nodup := h.uids.of_map

theorem planned_part (hpart : part ⊆ first :: rest) :
    planned ((first :: chosen).map Row.uid) part = part.filter (· ∈ first :: chosen) :=
  planned_eq h.uids h.sublist.subset hpart

theorem planned_whole : planned ((first :: chosen).map Row.uid) (first :: rest) =
    first :: chosen := by
  rw [h.planned_part (List.Subset.refl _), filter_mem_sublist h.sublist h.nodup]

theorem pos_of_part (hpart : part ⊆ first :: rest) :
    ∀ r ∈ part.filter (· ∈ first :: chosen), 0 < r.cost defaultS :=
  fun r hr ↦ h.pos r (hpart (List.mem_of_mem_filter hr))

/-- A row that is passed over does not fit with what was taken before it. -/
theorem passed_over (hsplit : first :: rest = a ++ r :: c)
    (hr : r.uid ∉ (first :: chosen).map Row.uid) :
    budget < total defaultS (planned ((first :: chosen).map Row.uid) a) + r.cost defaultS := by
  rw [h.planned_part (by rw [hsplit]; exact List.subset_append_left _ _)]
  exact passed_over_first h.float h.nodup h.takes hsplit fun hmem ↦ hr (List.mem_map_of_mem hmem)

theorem total_planned_le (hsplit : first :: rest = a ++ c) :
    total defaultS (planned ((first :: chosen).map Row.uid) a) ≤
      total defaultS (first :: chosen) := by
  have ha : a ⊆ first :: rest := by
    rw [hsplit]
    exact List.subset_append_left _ _
  have hc : c ⊆ first :: rest := by
    rw [hsplit]
    exact List.subset_append_right _ _
  have hpos := h.pos_of_part ha
  rw [h.planned_part ha]
  conv_rhs => rw [← filter_mem_sublist h.sublist h.nodup, hsplit, List.filter_append, total,
    totalFrom_append]
  exact le_totalFrom (h.pos_of_part hc) (le_totalFrom hpos le_rfl double_zero)
    (double_totalFrom hpos le_rfl double_zero)

theorem total_eq : total defaultS (first :: chosen) =
    totalFrom defaultS (first.cost defaultS) chosen := by
  rw [total, totalFrom, plus, zero_add, h.float]

theorem first_le_total : first.cost defaultS ≤ total defaultS (first :: chosen) := by
  have hpos (r : Row) (hr : r ∈ chosen) :=
    h.pos r (h.sublist.subset (List.mem_cons_of_mem first hr))
  rw [h.total_eq]
  exact le_totalFrom hpos (h.pos first List.mem_cons_self).le h.float

/-- If the first row fits alone or no row does, the budget is filled. -/
theorem fills (hl : ordered dir defaultS rows = first :: rest)
    (hperm : (first :: rest).Perm rows)
    (hfirst : first.cost defaultS ≤ budget ∨ ∀ r ∈ rows, budget < r.cost defaultS) :
    FillsBudget dir rows budget defaultS (total defaultS) ((first :: chosen).map Row.uid) := by
  have halone (hall : ∀ r ∈ rows, budget < r.cost defaultS) :
      ((first :: chosen).map Row.uid).length = 1 := by
    rw [h.takes.eq_nil (hall first (hperm.subset List.mem_cons_self)).le]
    rfl
  constructor
  · exact h.uids.sublist (h.sublist.map Row.uid)
  · rw [hl, h.planned_whole]
  · rcases hfirst with hfits | hall
    · rw [hl, h.planned_whole, h.total_eq]
      exact .inl (h.takes.within hfits)
    · exact .inr ⟨halone hall, hall⟩
  · exact fun _ ↦ halone
  · intro r hr hnot
    obtain ⟨a, c, hsplit⟩ := List.append_of_mem (hperm.symm.subset hr)
    have hpassed := h.passed_over hsplit hnot
    have hle := h.total_planned_le hsplit
    rw [hl, h.planned_whole]
    linarith
  · intro a r c hsplit hnot _
    rw [hl] at hsplit
    exact h.passed_over hsplit hnot

end

end Picked

theorem fillsBudget_nil (dir : TestsDir) (defaultS : ℚ) (hbudget : 0 < budget) :
    FillsBudget dir [] budget defaultS (total defaultS) [] := by
  have hnil : ordered dir defaultS [] = [] := (sortedBy_perm _ []).eq_nil
  constructor
  · exact List.nodup_nil
  · rw [hnil]
    rfl
  · rw [hnil]
    exact .inl hbudget.le
  · exact fun hne ↦ absurd rfl hne
  · exact fun r hr ↦ absurd hr List.not_mem_nil
  · intro a r c hsplit
    rw [hnil] at hsplit
    simp at hsplit

/-- With float sums the planner fills its budget exactly if the row that comes first fits the
budget alone or no row does. -/
theorem plan_fills_total (dir : TestsDir) (rows : List Row) (budget defaultS : ℚ)
    (hbudget : 0 < budget) (hfloat : double budget = budget) (hdefault : 0 < defaultS)
    (hnodup : (rows.map Row.uid).Nodup) (hseconds : ∀ r ∈ rows, ∀ s, r.seconds = some s → 0 < s) :
    FillsBudget dir rows budget defaultS (total defaultS) (plan dir rows budget defaultS) ↔
      FirstFits dir rows budget defaultS := by
  have hperm : (ordered dir defaultS rows).Perm rows := sortedBy_perm _ rows
  have hest (r : Row) (hr : r ∈ rows) := est_pos hdefault (hseconds r hr)
  have huid : ((ordered dir defaultS rows).map Row.uid).Nodup :=
    (hperm.map Row.uid).nodup_iff.mpr hnodup
  unfold plan FirstFits
  cases hl : ordered dir defaultS rows with
  | nil =>
    rw [hl] at hperm
    obtain rfl := hperm.symm.eq_nil
    exact iff_of_true (fillsBudget_nil dir defaultS hbudget) fun first h ↦ by simp at h
  | cons first rest =>
    rw [hl] at hperm huid
    have hpos (r : Row) (hr : r ∈ first :: rest) : 0 < r.cost defaultS :=
      double_pos (hest r (hperm.subset hr))
    have hfirstFloat : double (first.cost defaultS) = first.cost defaultS :=
      double_double (hest first (hperm.subset List.mem_cons_self)).le
    obtain ⟨chosen, hpick, htakes⟩ := pick_cons defaultS budget hfloat first hpos hfirstFloat
    have hpicked : Picked defaultS budget first rest chosen := ⟨huid, hpos, hfirstFloat, htakes⟩
    rw [hpick]
    constructor
    · intro h f hf
      obtain rfl : first = f := by simpa using hf
      rcases h.within with hwithin | ⟨-, hall⟩
      · rw [hl, hpicked.planned_whole] at hwithin
        exact .inl (hpicked.first_le_total.trans hwithin)
      · exact .inr hall
    · exact fun h ↦ hpicked.fills hl hperm (h first rfl)

end

/-- The planner fills its budget exactly if the row that comes first fits the budget alone or no
row does: with the sums that floats give, and with the exact sums where none is rounded. -/
theorem plan_fills_iff (dir : TestsDir) (rows : List Row) (budget defaultS : ℚ)
    (hbudget : 0 < budget) (hfloat : double budget = budget) (hdefault : 0 < defaultS)
    (hnodup : (rows.map Row.uid).Nodup) (hseconds : ∀ r ∈ rows, ∀ s, r.seconds = some s → 0 < s) :
    (FillsBudget dir rows budget defaultS (total defaultS) (plan dir rows budget defaultS) ↔
      FirstFits dir rows budget defaultS) ∧
    (SumsExact dir rows defaultS →
      (FillsBudget dir rows budget defaultS (costs defaultS) (plan dir rows budget defaultS) ↔
        FirstFits dir rows budget defaultS)) := by
  have hiff := plan_fills_total dir rows budget defaultS hbudget hfloat hdefault hnodup hseconds
  refine ⟨hiff, fun hexact ↦ ?_⟩
  rw [← hiff]
  exact ⟨FillsBudget.congr fun part hpart ↦ (hexact part hpart).symm, FillsBudget.congr hexact⟩

/-- A row for a file that has run once. -/
def ranRow (file : String) (seconds : ℚ) : Row :=
  ⟨some file, file, .whole, [], false, .staleCheckout, some .passed, some 1, some seconds⟩

def noDir : TestsDir := ⟨fun _ ↦ none, fun _ ↦ none⟩

/-- Rows of whole seconds are added exactly. -/
theorem plan_fills_of_two : double 6 = 6 ∧
    SumsExact noDir [ranRow "a" 5, ranRow "b" 3] 300 ∧
    (FillsBudget noDir [ranRow "a" 5, ranRow "b" 3] 6 300 (costs 300)
      (plan noDir [ranRow "a" 5, ranRow "b" 3] 6 300) ↔
        FirstFits noDir [ranRow "a" 5, ranRow "b" 3] 6 300) := by
  have hfloat : double 6 = 6 := by decide +kernel
  have hexact : SumsExact noDir [ranRow "a" 5, ranRow "b" 3] 300 := by
    apply sumsExact_of_grid (k := 0)
    · intro r hr
      simp only [List.mem_cons, List.not_mem_nil, or_false] at hr
      rcases hr with rfl | rfl
      · exact ⟨5, by decide +kernel⟩
      · exact ⟨3, by decide +kernel⟩
    · decide +kernel
  refine ⟨hfloat, hexact, (plan_fills_iff noDir [ranRow "a" 5, ranRow "b" 3] 6 300 (by decide)
    hfloat (by decide) (by decide) ?_).2 hexact⟩
  intro r hr s hs
  simp only [List.mem_cons, List.not_mem_nil, or_false] at hr
  rcases hr with rfl | rfl
  · cases hs
    decide
  · cases hs
    decide

/-- A unit that fits no budget is planned alone though another one fits. -/
theorem oversized_first : ¬∀ (dir : TestsDir) (rows : List Row) (budget : ℚ), 0 < budget →
    double budget = budget → (rows.map Row.uid).Nodup →
    (∀ r ∈ rows, ∀ s, r.seconds = some s → 0 < s) →
    FillsBudget dir rows budget 300 (costs 300) (plan dir rows budget 300) := by
  intro h
  have hsorted : ordered noDir 300 [{ ranRow "a" 5 with finishedAt := some 0 }, ranRow "b" 3] =
      [{ ranRow "a" 5 with finishedAt := some 0 }, ranRow "b" 3] := by
    apply sortedBy_of_pairwise
    decide +kernel
  have hplan : plan noDir [{ ranRow "a" 5 with finishedAt := some 0 }, ranRow "b" 3] 4 300 =
      ["a"] := by
    unfold plan
    rw [hsorted]
    decide +kernel
  have hfills := h noDir [{ ranRow "a" 5 with finishedAt := some 0 }, ranRow "b" 3] 4 (by decide)
    (by decide +kernel) (by decide) (by
      intro r hr s hs
      simp only [List.mem_cons, List.not_mem_nil, or_false] at hr
      rcases hr with rfl | rfl
      · cases hs
        decide
      · cases hs
        decide)
  rw [hplan] at hfills
  rcases hfills.within with hwithin | ⟨-, hall⟩
  · rw [hsorted] at hwithin
    exact absurd hwithin (by decide +kernel)
  · exact absurd (hall (ranRow "b" 3) (by simp)) (by decide +kernel)

end NucLlm.Swe.SlowTier
