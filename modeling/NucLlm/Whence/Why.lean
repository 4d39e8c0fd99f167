import NucLlm.Whence.History
import NucLlm.Whence.Show

/-!
# Explanations

The text of an explanation is a walk over a history that stops at a depth and at
a number of lines, and marks a step that it meets again.  The lines are the first
ones of the walk that has no bound on their number.
-/

namespace NucLlm.Whence

/-- A step as the walk meets it. -/
structure Visit where
  node : Node
  depth : ℕ
  again : Bool

/-- A line of the text. -/
inductive WhyLine where
  | step (lead : String) (x : Visit)
  | deeper (lead : String)
  | truncated (maxNodes : ℤ)

namespace WhyLine

def visit? : WhyLine → Option Visit
  | .step _ x => some x
  | _ => none

def isTruncated : WhyLine → Bool
  | .truncated _ => true
  | _ => false

/-- `label`. -/
def stepText (F : FloatOps) (v : Node) : String :=
  let head := if v.show F = "" then "?" else v.show F
  let loc := if v.line = 0 then "" else s!"  (line {v.line})"
  let times := if 1 < v.count then s!" ×{v.count}" else ""
  s!"{head} ← {v.label}{times}{loc}"

def text (F : FloatOps) : WhyLine → String
  | .step lead x => lead ++ stepText F x.node ++ if x.again then "  ⟲ shown above" else ""
  | .deeper lead => lead ++ "└─ …"
  | .truncated maxNodes => s!"… (tree truncated at {maxNodes} nodes)"

end WhyLine

/-- The visits among the lines. -/
def visits (lines : List WhyLine) : List Visit := lines.filterMap WhyLine.visit?

structure WhyState where
  lines : List WhyLine
  seen : List Node
  budget : ℤ

mutual

/-- `walk` of a step whose line starts with the one text and those below it with the other. -/
def explainNode (maxDepth : ℤ) : Node → String → String → ℕ → WhyState → WhyState
  | .mk id op detail line inputs count value, lead, below, depth, s =>
      let v : Node := .mk id op detail line inputs count value
      if s.budget ≤ 0 then s
      else
        let again := decide (v ∈ s.seen) && !inputs.isEmpty
        let s' : WhyState := ⟨s.lines ++ [.step lead ⟨v, depth, again⟩], v :: s.seen, s.budget - 1⟩
        if again || inputs.isEmpty then s'
        else if maxDepth ≤ depth then { s' with lines := s'.lines ++ [.deeper below] }
        else explainInputs maxDepth inputs below (depth + 1) s'
termination_by structural v => v

def explainInputs (maxDepth : ℤ) : List Node → String → ℕ → WhyState → WhyState
  | [], _, _, s => s
  | v :: vs, below, depth, s =>
      let lead := below ++ if vs.isEmpty then "└─ " else "├─ "
      let under := below ++ if vs.isEmpty then "   " else "│  "
      explainInputs maxDepth vs below depth (explainNode maxDepth v lead under depth s)
termination_by structural vs => vs

end

/-- The lines of `render_why`. -/
def whyLines (maxDepth maxNodes : ℤ) (root : Node) : List WhyLine :=
  let s := explainNode maxDepth root "" "" 0 ⟨[], [], maxNodes⟩
  if s.budget ≤ 0 then s.lines ++ [.truncated maxNodes] else s.lines

/-- `render_why`. -/
def renderWhy (F : FloatOps) (maxDepth maxNodes : ℤ) (root : Node) : String :=
  "\n".intercalate ((whyLines maxDepth maxNodes root).map (WhyLine.text F))

/-! ## The walk without a bound on its lines -/

mutual

/-- The visits of a walk from a step at a depth, behind those made before. -/
def tourNode (maxDepth : ℤ) : Node → ℕ → List Visit → List Visit
  | .mk id op detail line inputs count value, depth, out =>
      let v : Node := .mk id op detail line inputs count value
      let again := decide (v ∈ out.map Visit.node) && !inputs.isEmpty
      if again || inputs.isEmpty || decide (maxDepth ≤ depth) then out ++ [⟨v, depth, again⟩]
      else tourInputs maxDepth inputs (depth + 1) (out ++ [⟨v, depth, again⟩])
termination_by structural v => v

def tourInputs (maxDepth : ℤ) : List Node → ℕ → List Visit → List Visit
  | [], _, out => out
  | v :: vs, depth, out => tourInputs maxDepth vs depth (tourNode maxDepth v depth out)
termination_by structural vs => vs

end

/-- The walk over a history down to a depth. -/
def tour (maxDepth : ℤ) (root : Node) : List Visit := tourNode maxDepth root 0 []

/-! ### What the walk makes of a step -/

/-- The walk goes on to the inputs of the step. -/
def Visit.Expands (maxDepth : ℤ) (x : Visit) : Prop :=
  x.again = false ∧ x.node.inputs ≠ [] ∧ x.depth < maxDepth

/-- Behind the visit come those below it, and then one that is no deeper. -/
structure Opened (maxDepth : ℤ) (x : Visit) (inner after : List Visit) : Prop where
  deeper : ∀ y ∈ inner, x.depth < y.depth
  lower : ∀ y ∈ inner, y.node.height < x.node.height
  back : ∀ y ∈ after.head?, y.depth ≤ x.depth
  inputs : x.Expands maxDepth → ∀ m ∈ x.node.inputs, ∃ y ∈ inner, y.node = m ∧ y.depth = x.depth + 1
  closed : ¬x.Expands maxDepth → inner = []
  marked : x.again = true → x.node.inputs ≠ []

/-- Every visit is followed by those below it. -/
def Nested (maxDepth : ℤ) : List Visit → Prop
  | [] => True
  | x :: behind =>
      (∃ inner after, behind = inner ++ after ∧ Opened maxDepth x inner after) ∧
        Nested maxDepth behind

variable {maxDepth : ℤ}

theorem Nested.at {before behind : List Visit} {x : Visit}
    (h : Nested maxDepth (before ++ x :: behind)) :
    ∃ inner after, behind = inner ++ after ∧ Opened maxDepth x inner after := by
  induction before with
  | nil => exact h.1
  | cons _ _ ih => exact ih h.2

theorem Nested.append {l l' : List Visit} (h : Nested maxDepth l) (h' : Nested maxDepth l')
    (hback : ∀ x ∈ l, ∀ y ∈ l'.head?, y.depth ≤ x.depth) : Nested maxDepth (l ++ l') := by
  induction l with
  | nil => exact h'
  | cons x l ih =>
      obtain ⟨⟨inner, after, rfl, hopened⟩, hrest⟩ := h
      constructor
      · refine ⟨inner, after ++ l', List.append_assoc _ _ _, { hopened with back := ?_ }⟩
        intro y hy
        cases after with
        | nil => exact hback x List.mem_cons_self y hy
        | cons z after => exact hopened.back y hy
      · exact ih hrest fun z hz ↦ hback z (List.mem_cons_of_mem x hz)

/-- What the walk from one step adds. -/
structure Branch (maxDepth : ℤ) (v : Node) (depth : ℕ) (branch : List Visit) : Prop where
  head : ∃ again, branch.head? = some ⟨v, depth, again⟩
  deep : ∀ y ∈ branch, depth ≤ y.depth
  low : ∀ y ∈ branch, y.node.height ≤ v.height
  nested : Nested maxDepth branch

/-- What the walks from several steps at a depth add. -/
structure Branches (maxDepth : ℤ) (vs : List Node) (depth : ℕ) (branches : List Visit) : Prop where
  head : ∀ y ∈ branches.head?, y.depth = depth
  deep : ∀ y ∈ branches, depth ≤ y.depth
  low : ∀ y ∈ branches, y.node.height ≤ heights vs
  all : ∀ v ∈ vs, ∃ y ∈ branches, y.node = v ∧ y.depth = depth
  nested : Nested maxDepth branches

theorem Branches.nil (depth : ℕ) : Branches maxDepth [] depth [] := by
  constructor <;> simp [Nested]

theorem Branches.cons {v : Node} {vs : List Node} {depth : ℕ} {branch branches : List Visit}
    (h : Branch maxDepth v depth branch) (hs : Branches maxDepth vs depth branches) :
    Branches maxDepth (v :: vs) depth (branch ++ branches) := by
  obtain ⟨again, hhead⟩ := h.head
  obtain ⟨rest, rfl⟩ : ∃ rest, branch = ⟨v, depth, again⟩ :: rest := by
    cases branch with
    | nil => contradiction
    | cons y rest => exact ⟨rest, by simpa using hhead⟩
  constructor
  · simp
  · intro y hy
    exact (List.mem_append.mp hy).elim (h.deep y) (hs.deep y)
  · intro y hy
    rw [heights]
    rcases List.mem_append.mp hy with hy | hy
    · exact (h.low y hy).trans (Nat.le_max_left _ _)
    · exact (hs.low y hy).trans (Nat.le_max_right _ _)
  · intro w hw
    rcases List.mem_cons.mp hw with rfl | hw
    · exact ⟨_, List.mem_append_left _ List.mem_cons_self, rfl, rfl⟩
    · obtain ⟨y, hy, hnode⟩ := hs.all w hw
      exact ⟨y, List.mem_append_right _ hy, hnode⟩
  · apply h.nested.append hs.nested
    intro x hx y hy
    rw [hs.head y hy]
    exact h.deep x hx

theorem Branch.single {v : Node} {depth : ℕ} {again : Bool} (hagain : again = true → v.inputs ≠ [])
    (hclosed : ¬(Visit.mk v depth again).Expands maxDepth) :
    Branch maxDepth v depth [⟨v, depth, again⟩] := by
  constructor
  · exact ⟨again, rfl⟩
  · simp
  · simp
  · refine ⟨⟨[], [], rfl, ?_⟩, trivial⟩
    constructor
    · simp
    · simp
    · simp
    · exact fun h ↦ absurd h hclosed
    · exact fun _ ↦ rfl
    · exact hagain

theorem Branch.expanded {v : Node} {depth : ℕ} {branches : List Visit} (hne : v.inputs ≠ [])
    (hdepth : depth < maxDepth) (h : Branches maxDepth v.inputs (depth + 1) branches) :
    Branch maxDepth v depth (⟨v, depth, false⟩ :: branches) := by
  have hlow : ∀ y ∈ branches, y.node.height < v.height := by
    intro y hy
    have hle := h.low y hy
    rw [Node.height_eq v]
    omega
  constructor
  · exact ⟨false, rfl⟩
  · intro y hy
    rcases List.mem_cons.mp hy with rfl | hy
    · exact le_rfl
    · exact Nat.le_of_succ_le (h.deep y hy)
  · intro y hy
    rcases List.mem_cons.mp hy with rfl | hy
    · exact le_rfl
    · exact (hlow y hy).le
  · refine ⟨⟨branches, [], (List.append_nil _).symm, ?_⟩, h.nested⟩
    constructor
    · exact h.deep
    · exact hlow
    · simp
    · exact fun _ ↦ h.all
    · exact fun hclosed ↦ absurd ⟨rfl, hne, hdepth⟩ hclosed
    · exact fun hagain ↦ absurd hagain Bool.false_ne_true

mutual

theorem tourNode_adds (maxDepth : ℤ) : ∀ (v : Node) (depth : ℕ) (out : List Visit),
    ∃ branch, tourNode maxDepth v depth out = out ++ branch ∧ Branch maxDepth v depth branch
  | .mk id op detail line inputs count value, depth, out => by
      rw [tourNode]
      generalize hagain :
        (decide (Node.mk id op detail line inputs count value ∈ out.map Visit.node) &&
        !inputs.isEmpty) = again
      split
      · rename_i hclosed
        refine ⟨_, rfl, Branch.single ?_ ?_⟩
        · rintro rfl
          have hne := (Bool.and_eq_true_iff.mp hagain).2
          simpa [Node.inputs] using hne
        · rintro ⟨hfirst, hne, hdepth⟩
          have hempty : inputs.isEmpty = false := by simpa [Node.inputs] using hne
          have hfirst' : again = false := hfirst
          have hdepth' : ¬maxDepth ≤ depth := not_le.mpr hdepth
          simp [hfirst', hempty, hdepth'] at hclosed
      · rename_i hopen
        simp only [Bool.or_eq_true, decide_eq_true_eq, not_or, not_le, Bool.not_eq_true] at hopen
        obtain ⟨⟨rfl, hne⟩, hdepth⟩ := hopen
        obtain ⟨branches, hbranches, h⟩ := tourInputs_adds maxDepth inputs (depth + 1)
          (out ++ [⟨.mk id op detail line inputs count value, depth, false⟩])
        refine ⟨_ :: branches, ?_, Branch.expanded ?_ hdepth h⟩
        · rw [hbranches, List.append_assoc]
          rfl
        · simpa [Node.inputs] using hne

theorem tourInputs_adds (maxDepth : ℤ) : ∀ (vs : List Node) (depth : ℕ) (out : List Visit),
    ∃ branches, tourInputs maxDepth vs depth out = out ++ branches ∧
      Branches maxDepth vs depth branches
  | [], depth, out => ⟨[], by simp [tourInputs], Branches.nil depth⟩
  | v :: vs, depth, out => by
      obtain ⟨branch, hbranch, h⟩ := tourNode_adds maxDepth v depth out
      obtain ⟨branches, hbranches, hs⟩ := tourInputs_adds maxDepth vs depth (out ++ branch)
      refine ⟨branch ++ branches, ?_, Branches.cons h hs⟩
      rw [tourInputs, hbranch, hbranches, List.append_assoc]

end

theorem length_tour_pos (maxDepth : ℤ) (root : Node) : 0 < (tour maxDepth root).length := by
  obtain ⟨branch, hbranch, h⟩ := tourNode_adds maxDepth root 0 []
  obtain ⟨again, hhead⟩ := h.head
  rw [tour, hbranch, List.nil_append]
  exact List.length_pos_of_mem (List.mem_of_head? hhead)

theorem nested_tour (maxDepth : ℤ) (root : Node) : Nested maxDepth (tour maxDepth root) := by
  obtain ⟨branch, hbranch, h⟩ := tourNode_adds maxDepth root 0 []
  rw [tour, hbranch]
  exact h.nested

/-! ### The lines are the first visits -/

/-- The lines stand for the visits made so far, as many of them as there may be. -/
structure Follows (maxNodes : ℤ) (out : List Visit) (s : WhyState) : Prop where
  lines : visits s.lines = out.take maxNodes.toNat
  seen : ∀ v, v ∈ s.seen ↔ v ∈ (visits s.lines).map Visit.node
  budget : s.budget = maxNodes - min out.length maxNodes.toNat
  untruncated : s.lines.any WhyLine.isTruncated = false

variable {maxNodes : ℤ} {out : List Visit} {s : WhyState}

theorem Follows.spent_iff (h : Follows maxNodes out s) : s.budget ≤ 0 ↔ maxNodes ≤ out.length := by
  rw [h.budget]
  omega

theorem Follows.spent (h : Follows maxNodes out s) (hspent : s.budget ≤ 0) (more : List Visit) :
    Follows maxNodes (out ++ more) s := by
  have hlength : maxNodes ≤ out.length := h.spent_iff.mp hspent
  constructor
  · rw [h.lines, List.take_append_of_le_length (by omega)]
  · exact h.seen
  · rw [h.budget, List.length_append]
    omega
  · exact h.untruncated

/-- A line for one more visit. -/
theorem Follows.visit (h : Follows maxNodes out s) (hroom : 0 < s.budget) (lead : String)
    (x : Visit) :
    Follows maxNodes (out ++ [x]) ⟨s.lines ++ [.step lead x], x.node :: s.seen, s.budget - 1⟩ := by
  have hlength : (out.length : ℤ) < maxNodes := by
    have hspent := h.spent_iff
    omega
  have hvisits : visits (s.lines ++ [.step lead x]) = out ++ [x] := by
    have hall : visits s.lines = out := by
      rw [h.lines]
      exact List.take_of_length_le (by omega)
    rw [visits, List.filterMap_append]
    exact congrArg (· ++ [x]) hall
  have hseen := h.seen
  rw [h.lines, List.take_of_length_le (by omega)] at hseen
  constructor
  · rw [hvisits, List.take_of_length_le]
    rw [List.length_append, List.length_singleton]
    omega
  · intro v
    rw [hvisits, List.map_append, List.mem_append, List.mem_cons, hseen v]
    simp [or_comm]
  · rw [List.length_append, List.length_singleton]
    have hbudget := h.budget
    simp only
    omega
  · rw [List.any_append, h.untruncated]
    rfl

theorem Follows.deeper (h : Follows maxNodes out s) (lead : String) :
    Follows maxNodes out { s with lines := s.lines ++ [.deeper lead] } := by
  have hvisits : visits (s.lines ++ [.deeper lead]) = visits s.lines := by
    rw [visits, List.filterMap_append]
    exact List.append_nil _
  constructor
  · exact hvisits.trans h.lines
  · intro v
    rw [hvisits]
    exact h.seen v
  · exact h.budget
  · rw [List.any_append, h.untruncated]
    rfl

mutual

theorem follows_explainNode (maxDepth : ℤ) : ∀ (v : Node) (lead below : String) (depth : ℕ)
    (out : List Visit) (s : WhyState), Follows maxNodes out s →
    Follows maxNodes (tourNode maxDepth v depth out) (explainNode maxDepth v lead below depth s)
  | .mk id op detail line inputs count value, lead, below, depth, out, s, h => by
      by_cases hspent : s.budget ≤ 0
      · obtain ⟨branch, hbranch, _⟩ :=
          tourNode_adds maxDepth (.mk id op detail line inputs count value) depth out
        rw [hbranch, explainNode, if_pos hspent]
        exact h.spent hspent branch
      · -- With lines left, both have met the same steps.
        have hseen : Node.mk id op detail line inputs count value ∈ s.seen ↔
            Node.mk id op detail line inputs count value ∈ out.map Visit.node := by
          have hlength := mt h.spent_iff.mpr hspent
          rw [h.seen, h.lines, List.take_of_length_le (by omega)]
        rw [tourNode, explainNode, if_neg hspent, decide_eq_decide.mpr hseen]
        generalize (decide (Node.mk id op detail line inputs count value ∈ out.map Visit.node) &&
          !inputs.isEmpty) = again
        have hvisit := h.visit (not_le.mp hspent) lead
          ⟨.mk id op detail line inputs count value, depth, again⟩
        by_cases hclosed : (again || inputs.isEmpty) = true
        · simpa [hclosed] using hvisit
        · by_cases hdepth : maxDepth ≤ depth
          · simpa [hclosed, hdepth] using hvisit.deeper below
          · simpa [hclosed, hdepth] using
              follows_explainInputs maxDepth inputs below (depth + 1) _ _ hvisit

theorem follows_explainInputs (maxDepth : ℤ) : ∀ (vs : List Node) (below : String) (depth : ℕ)
    (out : List Visit) (s : WhyState), Follows maxNodes out s →
    Follows maxNodes (tourInputs maxDepth vs depth out) (explainInputs maxDepth vs below depth s)
  | [], below, depth, out, s, h => h
  | v :: vs, below, depth, out, s, h => by
      rw [tourInputs, explainInputs]
      exact follows_explainInputs maxDepth vs below depth _ _
        (follows_explainNode maxDepth v _ _ depth _ _ h)

end

theorem follows_start (maxNodes : ℤ) : Follows maxNodes [] ⟨[], [], maxNodes⟩ := by
  constructor <;> simp [visits]

theorem visits_whyLines (maxDepth maxNodes : ℤ) (root : Node) :
    visits (whyLines maxDepth maxNodes root) = (tour maxDepth root).take maxNodes.toNat := by
  have h := follows_explainNode maxDepth root "" "" 0 [] _ (follows_start maxNodes)
  rw [← tour] at h
  rw [← h.lines, whyLines]
  split
  · rw [visits, List.filterMap_append]
    exact List.append_nil _
  · rfl

theorem isTruncated_whyLines (maxDepth maxNodes : ℤ) (root : Node) :
    (whyLines maxDepth maxNodes root).any WhyLine.isTruncated = true ↔
      maxNodes ≤ (tour maxDepth root).length := by
  have h := follows_explainNode maxDepth root "" "" 0 [] _ (follows_start maxNodes)
  rw [← tour] at h
  rw [← h.spent_iff, whyLines]
  split
  · rename_i hspent
    simp [hspent, WhyLine.isTruncated]
  · rename_i hspent
    simp [hspent, h.untruncated]

/-! ## Honest texts -/

/-- The inputs of the step stand below its line, before the lines are back at its depth. -/
def InputsShown (x : Visit) (behind : List Visit) : Prop :=
  ∀ m ∈ x.node.inputs, ∃ before y after, behind = before ++ y :: after ∧
    y.node = m ∧ y.depth = x.depth + 1 ∧ ∀ z ∈ before, x.depth < z.depth

/-- A step that is marked as shown above has a line above, and its inputs have. -/
def MarksEarned (lines : List Visit) : Prop :=
  ∀ above x below, lines = above ++ x :: below → x.again = true →
    ∃ before y between, above = before ++ y :: between ∧ y.node = x.node ∧ y.again = false ∧
      InputsShown y between

/-- A step that has no line would have one if there might be more lines. -/
def OmitsSteps (maxDepth maxNodes : ℤ) (root : Node) : Prop :=
  ∃ more, maxNodes ≤ more ∧
    visits (whyLines maxDepth more root) ≠ visits (whyLines maxDepth maxNodes root)

/-- The text of an explanation is honest. -/
structure Honest (maxDepth maxNodes : ℤ) (root : Node) : Prop where
  marks : MarksEarned (visits (whyLines maxDepth maxNodes root))
  notice : (whyLines maxDepth maxNodes root).any WhyLine.isTruncated = true ↔
    OmitsSteps maxDepth maxNodes root
  bounded : (visits (whyLines maxDepth maxNodes root)).length ≤ maxNodes.toNat

theorem omitsSteps_iff (maxDepth maxNodes : ℤ) (root : Node) :
    OmitsSteps maxDepth maxNodes root ↔ maxNodes < (tour maxDepth root).length := by
  simp only [OmitsSteps, visits_whyLines]
  constructor
  · rintro ⟨more, hmore, hne⟩
    by_contra hall
    apply hne
    rw [List.take_of_length_le (by omega), List.take_of_length_le (by omega)]
  · intro hlt
    refine ⟨(tour maxDepth root).length, hlt.le, ?_⟩
    intro heq
    have hlength := congrArg List.length heq
    have hpos := length_tour_pos maxDepth root
    simp only [List.length_take] at hlength
    omega

/-- Each step that is met again among the first so many was first met above the greatest depth. -/
def MetHighFirst (maxDepth maxNodes : ℤ) (root : Node) : Prop :=
  ∀ above x below, (tour maxDepth root).take maxNodes.toNat = above ++ x :: below →
    x.again = true → ∃ y ∈ above, y.node = x.node ∧ y.again = false ∧ y.depth < maxDepth

/-- The visits up to the next one of the same step hold all that lies below it. -/
theorem Opened.between {x y : Visit} {inner after between rest : List Visit}
    (h : Opened maxDepth y inner after) (hnode : y.node = x.node)
    (hbehind : between ++ x :: rest = inner ++ after) : ∃ more, between = inner ++ more := by
  have hnot : x ∉ inner := by
    intro hx
    have hlower := h.lower x hx
    rw [hnode] at hlower
    exact absurd hlower (lt_irrefl _)
  rcases List.append_eq_append_iff.mp hbehind with ⟨l, hinner, hl⟩ | ⟨l, hbetween, _⟩
  · cases l with
    | nil => exact ⟨[], by rw [hinner, List.append_nil, List.append_nil]⟩
    | cons z l =>
        obtain ⟨rfl, _⟩ := List.cons_eq_cons.mp hl
        exact absurd (by rw [hinner]; simp) hnot
  · exact ⟨l, hbetween⟩

theorem Opened.inputsShown {y : Visit} {inner after more : List Visit}
    (h : Opened maxDepth y inner after) (hexpands : y.Expands maxDepth) :
    InputsShown y (inner ++ more) := by
  intro m hm
  obtain ⟨z, hz, hnode, hdepth⟩ := h.inputs hexpands m hm
  obtain ⟨before, behind, rfl⟩ := List.append_of_mem hz
  refine ⟨before, z, behind ++ more, by simp, hnode, hdepth, ?_⟩
  exact fun w hw ↦ h.deeper w (List.mem_append_left _ hw)

/-- A step whose inputs are shown has been gone on from. -/
theorem Opened.expands {y : Visit} {inner after between rest : List Visit}
    (h : Opened maxDepth y inner after) (hne : y.node.inputs ≠ [])
    (hbehind : between ++ rest = inner ++ after) (hshown : InputsShown y between) :
    y.Expands maxDepth := by
  by_contra hclosed
  obtain rfl := h.closed hclosed
  obtain ⟨m, hm⟩ := List.exists_mem_of_ne_nil _ hne
  obtain ⟨before, z, behind, rfl, _, hdepth, hdeeper⟩ := hshown m hm
  rw [List.nil_append] at hbehind
  have hback := h.back
  rw [← hbehind] at hback
  cases before with
  | nil =>
      have hle := hback z (by simp)
      omega
  | cons w before =>
      have hle := hback w (by simp)
      have hlt := hdeeper w List.mem_cons_self
      omega

theorem marksEarned_iff (maxDepth maxNodes : ℤ) (root : Node) :
    MarksEarned (visits (whyLines maxDepth maxNodes root)) ↔
      MetHighFirst maxDepth maxNodes root := by
  rw [visits_whyLines]
  have hnested := nested_tour maxDepth root
  rw [← List.take_append_drop maxNodes.toNat (tour maxDepth root)] at hnested
  generalize hrest : (tour maxDepth root).drop maxNodes.toNat = rest at hnested
  have hmarked : ∀ above x below, (tour maxDepth root).take maxNodes.toNat = above ++ x :: below →
      x.again = true → x.node.inputs ≠ [] := by
    intro above x below hlines hagain
    rw [hlines, List.append_assoc, List.cons_append] at hnested
    obtain ⟨_, _, _, hopened⟩ := hnested.at
    exact hopened.marked hagain
  have hopen : ∀ before y between x below,
      (tour maxDepth root).take maxNodes.toNat = before ++ y :: between ++ x :: below →
      ∃ inner after, between ++ x :: (below ++ rest) = inner ++ after ∧
        Opened maxDepth y inner after := by
    intro before y between x below hlines
    rw [hlines] at hnested
    simp only [List.append_assoc, List.cons_append] at hnested
    exact hnested.at
  constructor
  · intro h above x below hlines hagain
    have hne := hmarked above x below hlines hagain
    obtain ⟨before, y, between, rfl, hnode, hfirst, hshown⟩ := h above x below hlines hagain
    obtain ⟨inner, after, hbehind, hopened⟩ := hopen before y between x below hlines
    exact ⟨y, by simp, hnode, hfirst, (hopened.expands (hnode ▸ hne) hbehind hshown).2.2⟩
  · intro h above x below hlines hagain
    have hne := hmarked above x below hlines hagain
    obtain ⟨y, hy, hnode, hfirst, hdepth⟩ := h above x below hlines hagain
    obtain ⟨before, between, rfl⟩ := List.append_of_mem hy
    obtain ⟨inner, after, hbehind, hopened⟩ := hopen before y between x below hlines
    obtain ⟨more, rfl⟩ := hopened.between hnode hbehind
    exact ⟨before, y, _, rfl, hnode, hfirst, hopened.inputsShown ⟨hfirst, hnode ▸ hne, hdepth⟩⟩

/-- The text of an explanation is honest just if each step that is met again among the first so many
was first met above the greatest depth, and the walk does not have exactly so many. -/
theorem explanation_honest_iff (maxDepth maxNodes : ℤ) (root : Node) :
    Honest maxDepth maxNodes root ↔
      MetHighFirst maxDepth maxNodes root ∧ maxNodes ≠ (tour maxDepth root).length := by
  have hmarks := marksEarned_iff maxDepth maxNodes root
  have hnotice : ((whyLines maxDepth maxNodes root).any WhyLine.isTruncated = true ↔
      OmitsSteps maxDepth maxNodes root) ↔ maxNodes ≠ (tour maxDepth root).length := by
    rw [isTruncated_whyLines, omitsSteps_iff]
    omega
  constructor
  · intro h
    exact ⟨hmarks.mp h.marks, hnotice.mp h.notice⟩
  · rintro ⟨hhigh, hlength⟩
    refine ⟨hmarks.mpr hhigh, hnotice.mpr hlength, ?_⟩
    rw [visits_whyLines]
    exact List.length_take_le _ _

/-! ### Texts that are not honest -/

def leafStep (n : ℕ) (value : ℤ) : Node := .mk (.made n) "literal" "" 1 [] 1 (.num (.int value))

def sharedStep : Node := .mk (.made 1) "+" "" 1 [leafStep 0 7] 1 (.num (.int 7))

/-- The shared step is met at the depth 2 and then at the depth 1. -/
def metLowFirst : Node :=
  .mk (.made 3) "*" "" 1 [.mk (.made 2) "call" "f" 1 [sharedStep] 1 (.num (.int 7)), sharedStep] 1
    (.num (.int 49))

/-- A text of just as many lines as there may be says that it is cut off; and a step whose inputs
are cut off at the greatest depth is marked as shown when it is met again. -/
theorem explanation_not_honest : ¬Honest 10 1 (leafStep 0 7) ∧ ¬Honest 2 200 metLowFirst := by
  constructor
  · intro h
    have homits := h.notice.mp (by decide)
    rw [omitsSteps_iff] at homits
    revert homits
    decide
  · intro h
    have hhigh := (marksEarned_iff 2 200 metLowFirst).mp h.marks
    obtain ⟨y, hy, hnode, _, hdepth⟩ :=
      hhigh ((tour 2 metLowFirst).take 3) ⟨sharedStep, 1, true⟩ [] rfl rfl
    have hlow : ∀ y ∈ (tour 2 metLowFirst).take 3, y.node = sharedStep → ¬(y.depth : ℤ) < 2 := by
      decide
    exact hlow y hy hnode hdepth

end NucLlm.Whence
