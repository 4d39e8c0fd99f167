import NucLlm.Whence.Blame
import NucLlm.Whence.Results

/-!
# Values and their budgets

Integers stay within `max_int_bits` in a run in which the integers that no
operation charges do, and texts and lists within `max_value`.  What an operation
charges and what is over the budget is a miss.
-/

namespace NucLlm.Whence

section

variable {B : Budgets} {F : FloatOps} {H : Histories} {run : List Entry} {t : Tally} {v n : Node}

/-! ## Integers -/

theorem reachable_fits (h : Runs B F H run t) (hrun : ∀ e ∈ run, e.operation.IntsFit B F H)
    (hv : Reachable run v) {n : ℤ} (hvalue : v.value = .num (.int n)) : B.Fits (.int n) := by
  have hfits : ∀ x ∈ v.value.numbers, B.Fits x := by
    refine h.reachable (P := fun v ↦ ∀ x ∈ v.value.numbers, B.Fits x) ?_ hrun v hv
    intro e k hints _ hknown hlinks hmakes
    exact hmakes.fits ⟨hknown, hints⟩ hlinks
  rw [hvalue] at hfits
  exact hfits _ (List.mem_singleton_self _)

/-- Every integer of a run fits where those that are not charged do.  An operation that comes to an
integer gives it or a miss, and a miss if the integer does not fit. -/
theorem ints_fit (h : Runs B F H run t) (hrun : ∀ e ∈ run, e.operation.IntsFit B F H) :
    (∀ v, Reachable run v → ∀ n : ℤ, v.value = .num (.int n) →
      ∀ cap ∈ B.maxIntBits, bitLength n ≤ cap) ∧
    ∀ e ∈ run, ∀ n ∈ e.operation.integer? F,
      (e.result.isMiss = true ∨ e.result.int? = some n) ∧
      ((∃ cap ∈ B.maxIntBits, cap < bitLength n) → e.result.isMiss = true) := by
  constructor
  · intro v hv n hvalue
    exact reachable_fits h hrun hv hvalue
  · intro e he n hn
    obtain ⟨s, s', hperform⟩ := h.performed e he
    have hcomes : Comes n e.result := gets_comes e.operation hn s _ s' hperform
    refine ⟨hcomes, ?_⟩
    rintro ⟨cap, hcap, hover⟩
    refine hcomes.resolve_right fun hint ↦ ?_
    have hreach : Reachable run e.result.certain := ⟨e, he, below_certain _⟩
    have hfits := reachable_fits h hrun hreach (integer_of hint) cap hcap
    omega

/-! ## Texts and lists -/

/-- The value of the node stands in the source: it is the node of a literal, or a step that hands
on the value of such a node. -/
inductive Quoted (run : List Entry) : Node → Prop where
  | source {e : Entry} {n : Node} (he : e ∈ run) (h : e.operation.Writes n) : Quoted run n
  | handed {v n : Node} (hv : v ∈ n.inputs) (hop : n.op ∈ handOn) (hvalue : n.value = v.value)
      (h : Quoted run v) : Quoted run n
  | cutOff {e : Entry} {v n : Node} (he : e ∈ run) (hv : v ∈ e.operation.operands)
      (hop : n.op = "snipped" ∨ n.op = "if") (hvalue : n.value = v.value) (h : Quoted run v) :
      Quoted run n

/-- The size of a value is within the budget, or the value stands in the source. -/
def Sized (B : Budgets) (run : List Entry) (v : Node) : Prop :=
  ∀ size ∈ v.value.size?, B.Within size ∨ Quoted run v

theorem Sized.congr (h : Sized B run v) (hvalue : n.value = v.value)
    (hquoted : Quoted run v → Quoted run n) : Sized B run n := by
  intro size hsize
  rw [hvalue] at hsize
  exact (h size hsize).imp_right hquoted

theorem sized_of_isMiss (h : v.isMiss = true) : Sized B run v := by
  intro size hsize
  cases hvalue : v.value with
  | miss reasons =>
      rw [hvalue] at hsize
      contradiction
  | _ => simp [Node.isMiss, hvalue, Payload.isMiss] at h

theorem sized_of_makes {e : Entry} (he : e ∈ run) (hfit : e.operation.SizesFit B F H)
    (hoperands : ∀ m ∈ e.operation.operands, Sized B run m) (hlinks : ∀ m ∈ n.links, Sized B run m)
    (hmakes : Makes B F H e.operation n) : Sized B run n := by
  cases hmakes with
  | computes _ _ _ hsize =>
      intro size hmem
      exact (hsize hfit size hmem).imp_right (.source he)
  | passes hv hvalue hop =>
      exact (hlinks _ (List.mem_append_left _ hv)).congr hvalue (.handed hv hop hvalue)
  | cutsOff hv hvalue hop _ => exact (hoperands _ hv).congr hvalue (.cutOff he hv (.inl hop) hvalue)
  | merges hv hvalue hop _ _ =>
      exact (hoperands _ hv).congr hvalue (.cutOff he hv (.inr hop) hvalue)
  | propagates _ hvalue =>
      apply sized_of_isMiss
      rw [Node.isMiss, hvalue]
      rfl
  | refuses hmiss _ _ => exact sized_of_isMiss hmiss

theorem reachable_sized (h : Runs B F H run t) (hrun : ∀ e ∈ run, e.operation.SizesFit B F H) :
    ∀ v, Reachable run v → Sized B run v := by
  refine h.reachable (P := Sized B run) (Q := fun e ↦ e ∈ run ∧ e.operation.SizesFit B F H) ?_
    fun e he ↦ ⟨he, hrun e he⟩
  intro e k he _ hknown hlinks hmakes
  exact sized_of_makes he.1 he.2 (fun m hm ↦ hknown m hm m .refl) hlinks hmakes

/-- Every text and every list of a run is within the budget or stands in the source, where those
that are not charged are within it.  An operation that charges the size of what it comes to gives
it or a miss, and a miss if it is over the budget. -/
theorem sizes_fit (h : Runs B F H run t) (hrun : ∀ e ∈ run, e.operation.SizesFit B F H) :
    (∀ v, Reachable run v → ∀ size ∈ v.value.size?,
      (∀ cap ∈ B.maxValue, size ≤ cap) ∨ Quoted run v) ∧
    ∀ e ∈ run, ∀ size ∈ e.operation.grown,
      (e.result.isMiss = true ∨ e.result.certain.value.size? = some size) ∧
      ((∃ cap ∈ B.maxValue, cap < size) → e.result.isMiss = true) := by
  refine ⟨reachable_sized h hrun, ?_⟩
  intro e he size hsize
  obtain ⟨s, s', hperform⟩ := h.performed e he
  have hgrows : Grows B size e.result := gets_grows e.operation hsize s _ s' hperform
  refine ⟨hgrows.imp_right And.left, ?_⟩
  rintro ⟨cap, hcap, hover⟩
  refine hgrows.resolve_right fun hgrown ↦ ?_
  have hwithin := hgrown.2 cap hcap
  omega

end

/-! ## What is charged and what is not -/

def tightBudgets : Budgets := ⟨some 3, some 128, by simp⟩

def literalNode (p : Payload) : Node := constant 0 1 p

/-- What `x + x` and `x * x` make. -/
def selfResult (op : ArithOp) (p : Payload) (t : Tally) : Node × Tally :=
  binop tightBudgets oneTextFloats op (literalNode p) (literalNode p) 1 t

def shownNode (p : Payload) : Node :=
  (Builtin.str oneTextFloats shownHistories (literalNode p) 1 {}).1

/-- The run of `x + x` and `x * x` for a literal. -/
def arithRun (p : Payload) (h : p.isLiteral = true) : List Entry :=
  [⟨.literal 0 1 p h, literalNode p⟩,
    ⟨.binary .add (literalNode p) (literalNode p) 1, (selfResult .add p {}).1⟩,
    ⟨.binary .mul (literalNode p) (literalNode p) 1,
      (selfResult .mul p (selfResult .add p {}).2).1⟩]

/-- The run of `str(x)` and `x + x` for a literal. -/
def textRun (p : Payload) (h : p.isLiteral = true) : List Entry :=
  [⟨.literal 0 1 p h, literalNode p⟩, ⟨.builtin .str [literalNode p] 0 [] 1, shownNode p⟩,
    ⟨.binary .add (literalNode p) (literalNode p) 1, (selfResult .add p { next := 1 }).1⟩]

section

variable (p : Payload) (h : p.isLiteral = true)

theorem runs_literal (B : Budgets) (F : FloatOps) (H : Histories) :
    Runs B F H [⟨.literal 0 1 p h, literalNode p⟩] {} :=
  .step (.start {}) (by simp [Operation.operands]) rfl

theorem runs_arithRun : Runs tightBudgets oneTextFloats shownHistories (arithRun p h)
    (selfResult .mul p (selfResult .add p {}).2).2 := by
  have hknown : ∀ run : List Entry, ∀ m ∈ [literalNode p, literalNode p],
      Reachable (⟨.literal 0 1 p h, literalNode p⟩ :: run) m := by
    intro run m hm
    obtain rfl : m = literalNode p := by simpa using hm
    exact ⟨_, List.mem_cons_self, .refl⟩
  have hadd := (runs_literal p h tightBudgets oneTextFloats shownHistories).step
    (o := .binary .add (literalNode p) (literalNode p) 1) (hknown []) rfl
  exact hadd.step (o := .binary .mul (literalNode p) (literalNode p) 1) (hknown _) rfl

theorem runs_textRun : Runs tightBudgets oneTextFloats shownHistories (textRun p h)
    (selfResult .add p { next := 1 }).2 := by
  have hknown : ∀ run : List Entry, Reachable (⟨.literal 0 1 p h, literalNode p⟩ :: run)
      (literalNode p) := fun run ↦ ⟨_, List.mem_cons_self, .refl⟩
  have hstr : Runs tightBudgets oneTextFloats shownHistories
      ([⟨.literal 0 1 p h, literalNode p⟩] ++
        [⟨.builtin .str [literalNode p] 0 [] 1, shownNode p⟩]) { next := 1 } :=
    (runs_literal p h tightBudgets oneTextFloats shownHistories).step
      (by simpa [Operation.operands] using hknown []) rfl
  exact hstr.step (o := .binary .add (literalNode p) (literalNode p) 1)
    (by simpa [Operation.operands] using hknown _) rfl

end

/-- A sum that fits, and a product that is refused. -/
theorem ints_fit_arith :
    (selfResult .mul (.num (.int (2 ^ 100)))
      (selfResult .add (.num (.int (2 ^ 100))) {}).2).1.isMiss
      = true ∧
    ((selfResult .add (.num (.int (2 ^ 100))) {}).1.isMiss = true ∨
      (selfResult .add (.num (.int (2 ^ 100))) {}).1.int? = some (2 ^ 101)) := by
  have hfit := (ints_fit (runs_arithRun (.num (.int (2 ^ 100))) rfl) ?_).2
  · have hsum := hfit _ (List.mem_cons_of_mem _ List.mem_cons_self) (2 ^ 101) (by decide +kernel)
    have hproduct := hfit _ (List.mem_cons_of_mem _ (List.mem_cons_of_mem _ List.mem_cons_self))
      (2 ^ 200) (by decide +kernel)
    exact ⟨hproduct.2 ⟨128, rfl, by decide +kernel⟩, hsum.1⟩
  · intro e he
    simp only [arithRun, List.mem_cons, List.not_mem_nil, or_false] at he
    rcases he with rfl | rfl | rfl
    · intro n hn
      obtain rfl := List.mem_singleton.mp hn
      rintro _ ⟨⟩
      decide +kernel
    · exact List.forall_mem_nil _
    · exact List.forall_mem_nil _

/-- A literal is not charged. -/
theorem ints_not_fit :
    ¬∀ (B : Budgets) (F : FloatOps) (H : Histories) (run : List Entry) (t : Tally),
      Runs B F H run t → ∀ v, Reachable run v → ∀ n : ℤ, v.value = .num (.int n) →
        ∀ cap ∈ B.maxIntBits, bitLength n ≤ cap := by
  intro h
  have hbits := h _ _ _ _ _
    (runs_literal (.num (.int (2 ^ 200))) rfl tightBudgets oneTextFloats shownHistories)
    (literalNode (.num (.int (2 ^ 200)))) ⟨_, List.mem_singleton_self _, .refl⟩
      (2 ^ 200) rfl 128 rfl
  revert hbits
  decide +kernel

/-- A text that is shown and fits, and a text that is refused. -/
theorem sizes_fit_text :
    ((∀ cap ∈ tightBudgets.maxValue, 2 ≤ cap) ∨
      Quoted (textRun (.str "ab") rfl) (shownNode (.str "ab"))) ∧
    (selfResult .add (.str "ab") { next := 1 }).1.isMiss = true := by
  have hfit := sizes_fit (runs_textRun (.str "ab") rfl) ?_
  · have hsum := hfit.2 _ (List.mem_cons_of_mem _ (List.mem_cons_of_mem _ List.mem_cons_self)) 4
      (by decide +kernel)
    refine ⟨hfit.1 (shownNode (.str "ab")) ?_ 2 (by decide +kernel), hsum.2 ⟨3, rfl, by decide⟩⟩
    exact ⟨_, List.mem_cons_of_mem _ List.mem_cons_self, .refl⟩
  · intro e he
    simp only [textRun, List.mem_cons, List.not_mem_nil, or_false] at he
    rcases he with rfl | rfl | rfl
    · exact List.forall_mem_nil _
    · have hshort : ∀ size ∈ BuiltinName.unchargedSizes oneTextFloats shownHistories .str
          [literalNode (.str "ab")] [], size ≤ 3 := by
        decide +kernel
      rintro size hsize _ ⟨⟩
      exact hshort size hsize
    · exact List.forall_mem_nil _

/-- `str` does not charge the text it makes. -/
theorem sizes_not_fit :
    ¬∀ (B : Budgets) (F : FloatOps) (H : Histories) (run : List Entry) (t : Tally),
      Runs B F H run t → ∀ v, Reachable run v → ∀ size ∈ v.value.size?,
        (∀ cap ∈ B.maxValue, size ≤ cap) ∨ Quoted run v := by
  intro h
  have hsize := h _ _ _ _ _ (runs_textRun (.num (.int 12345)) rfl) (shownNode (.num (.int 12345)))
    ⟨_, List.mem_cons_of_mem _ List.mem_cons_self, .refl⟩ 5 (by decide +kernel)
  have hop : (shownNode (.num (.int 12345))).op = "str" := rfl
  rcases hsize with hsize | hquoted
  · exact absurd (hsize 3 rfl) (by decide)
  · cases hquoted with
    | source he hwrites =>
        simp only [textRun, List.mem_cons, List.not_mem_nil, or_false] at he
        rcases he with rfl | rfl | rfl
        · rw [show shownNode (.num (.int 12345)) =
            literalNode (.num (.int 12345)) from hwrites] at hop
          exact absurd hop (by decide)
        · exact hwrites
        · exact hwrites
    | handed _ hhand _ _ =>
        rw [hop] at hhand
        exact absurd hhand (by decide)
    | cutOff _ _ hcut _ _ =>
        rw [hop] at hcut
        exact absurd hcut (by decide)

end NucLlm.Whence
