import NucLlm.Swe.Literals
import NucLlm.Swe.ShrinkFrame

/-!
# Killers

A program on which a mutant behaves otherwise than the original is searched for and shrunk.  Every
measurement runs under a wall clock, and any of them may time out.
-/

namespace NucLlm.Swe

inductive Behaviour (β : Type) where
  | timeout
  | importError
  | done (b : β)
deriving DecidableEq

inductive Verdict where
  | same
  | differs
  | undecided
deriving DecidableEq

/-- What `compare` returns, with the program it is about. -/
structure Comparison (β : Type) where
  program : Text
  verdict : Verdict
  expected : Behaviour β
  got : Behaviour β
deriving DecidableEq

/-- What a measurement of a program may give. -/
def Measures {β : Type} (run : Text → β) (src : Text) : Behaviour β → Prop
  | .timeout => True
  | .importError => False
  | .done b => b = run src

def Measured {β : Type} (run : Text → β) (src : Text) : Type :=
  { b : Behaviour β // Measures run src b }

variable {β : Type}

/-- Measurements of the original, shared between mutants. -/
structure OrigCache (orig : Text → β) where
  find : Text → Option (Behaviour β)
  measured : ∀ src b, find src = some b → Measures orig src b

def OrigCache.insert {orig : Text → β} (cache : OrigCache orig) (src : Text)
    (b : Measured orig src) : OrigCache orig where
  find src' := if src' = src then some b.1 else cache.find src'
  measured src' b' h := by
    split at h
    · rename_i heq
      cases h
      rw [heq]
      exact b.2
    · exact cache.measured src' b' h

/-- The state of a search.  The next measurement times out if `timeouts 0` says so. -/
structure Bench (orig : Text → β) where
  timeouts : ℕ → Bool
  cache : OrigCache orig
  comparisons : List (Comparison β)

variable {orig : Text → β}

def Bench.tick (s : Bench orig) : Bench orig := { s with timeouts := fun n ↦ s.timeouts (n + 1) }

def Bench.reading (s : Bench orig) (run : Text → β) (src : Text) : Measured run src :=
  if s.timeouts 0 then ⟨.timeout, trivial⟩ else ⟨.done (run src), rfl⟩

def behaviour (run : Text → β) (src : Text) : Exec ShrinkRaised (Bench orig) (Measured run src) :=
  fun s ↦ (.ok (s.reading run src), s.tick)

/-- A comparison is returned; the state keeps it. -/
def compared (c : Comparison β) : Exec ShrinkRaised (Bench orig) (Comparison β) := do
  Exec.modify fun s ↦ { s with comparisons := s.comparisons ++ [c] }
  pure c

theorem reading_of_timeout {s : Bench orig} {run : Text → β} (h : s.timeouts 0 = true)
    (src : Text) :
    (s.reading run src).1 = .timeout := by
  unfold Bench.reading
  rw [h]
  rfl

theorem reading_of_done {s : Bench orig} {run : Text → β} (h : s.timeouts 0 = false) (src : Text) :
    (s.reading run src).1 = .done (run src) := by
  unfold Bench.reading
  rw [h]
  rfl

variable {E : ShrinkRaised → Bench orig → Prop} {s : Bench orig}

theorem wp_behaviour {run : Text → β} {src : Text} {Q : Measured run src → Bench orig → Prop} :
    (behaviour run src).wp Q E s ↔ Q (s.reading run src) s.tick := Iff.rfl

theorem wp_compared {c : Comparison β} {Q : Comparison β → Bench orig → Prop} :
    (compared c).wp Q E s ↔ Q c { s with comparisons := s.comparisons ++ [c] } := Iff.rfl

variable [DecidableEq β]

/-- `compare`; its last two cases are one. -/
def compare (mutPkg : Text → β) (src : Text) (expected : Behaviour β) :
    Exec ShrinkRaised (Bench orig) (Comparison β) := do
  let got ← behaviour mutPkg src
  if got.1 = expected then compared ⟨src, .same, expected, got.1⟩
  else if got.1 ≠ .timeout ∨ expected = .timeout then compared ⟨src, .differs, expected, got.1⟩
  else do
    let againOrig ← behaviour orig src
    let againMut ← behaviour mutPkg src
    if againOrig.1 = .timeout then compared ⟨src, .undecided, againOrig.1, againMut.1⟩
    else if againMut.1 = againOrig.1 then compared ⟨src, .same, againOrig.1, againMut.1⟩
    else compared ⟨src, .differs, againOrig.1, againMut.1⟩

/-- The behaviour of the original from the cache, or measured again if it timed out once. -/
def originalBehaviour (src : Text) : Exec ShrinkRaised (Bench orig) (Measured orig src) := do
  let s ← Exec.get
  match h : s.cache.find src with
  | some b => pure ⟨b, s.cache.measured src b h⟩
  | none => do
    let first ← behaviour orig src
    let e ← if first.1 = .timeout then behaviour orig src else pure first
    Exec.modify fun s ↦ { s with cache := s.cache.insert src e }
    pure e

structure SearchResult (β : Type) where
  hit : Option (Comparison β)
  tried : ℕ
  undecided : ℕ
  unmeasured : ℕ

/-- The loop of `find_killer` up to the first program whose behaviour differs. -/
def searchPrograms (mutPkg : Text → β) : List Text → ℕ → ℕ → ℕ →
    Exec ShrinkRaised (Bench orig) (SearchResult β)
  | [], tried, undecided, unmeasured => pure ⟨none, tried, undecided, unmeasured⟩
  | src :: programs, tried, undecided, unmeasured => do
    let expected ← originalBehaviour src
    if expected.1 = .timeout then
      searchPrograms mutPkg programs (tried + 1) undecided (unmeasured + 1)
    else do
      let c ← compare mutPkg src expected.1
      match c.verdict with
      | .undecided => searchPrograms mutPkg programs (tried + 1) (undecided + 1) unmeasured
      | .differs => pure ⟨some c, tried + 1, undecided, unmeasured⟩
      | .same => searchPrograms mutPkg programs (tried + 1) undecided unmeasured

/-- `keep` of `find_killer`. -/
def keepCandidate (mutPkg : Text → β) (cand : Text) : Exec ShrinkRaised (Bench orig) Bool := do
  let e ← behaviour orig cand
  if e.1 = .timeout then pure false
  else do
    let c ← compare mutPkg cand e.1
    pure (c.verdict = .differs)

structure Killer (β : Type) where
  program : Option Text
  expected : Option (Behaviour β)
  mutantBehaviour : Option (Behaviour β)
  tried : ℕ
  undecided : ℕ
  unmeasured : ℕ

/-- `shrink(src, keep) or src`. -/
def orSource (small : Option Text) (src : Text) : Text :=
  match small with
  | some (c :: text) => c :: text
  | _ => src

/-- What `find_killer` does with a program whose behaviour differs. -/
def shrinkHit (A : Alphabet) (mutPkg : Text → β) (r : SearchResult β) (hit : Comparison β) :
    Exec ShrinkRaised (Bench orig) (Killer β) := do
  let small := orSource (← shrink A (keepCandidate mutPkg) hit.program 3) hit.program
  if small = hit.program then
    pure ⟨some small, some hit.expected, some hit.got, r.tried, r.undecided, r.unmeasured⟩
  else do
    let e ← behaviour orig small
    let c ← compare mutPkg small e.1
    pure ⟨some small, some c.expected, some c.got, r.tried, r.undecided, r.unmeasured⟩

/-- `find_killer`, for a mutant that may fail to import. -/
def findKiller (A : Alphabet) (mutant : Option (Text → β)) (programs : List Text) :
    Exec ShrinkRaised (Bench orig) (Killer β) :=
  match mutant with
  | none => pure ⟨none, none, some .importError, 0, 0, 0⟩
  | some mutPkg => do
    let r ← searchPrograms mutPkg programs 0 0 0
    match r.hit with
    | none => pure ⟨none, none, none, r.tried, r.undecided, r.unmeasured⟩
    | some hit => shrinkHit A mutPkg r hit

/-- A comparison with a completed behaviour of the original says that the mutant differs. -/
def Settled (orig mutPkg : Text → β) (src : Text) (timeouts : ℕ → Bool) : Prop :=
  if timeouts 0 then timeouts 1 = false ∧ (timeouts 2 = true ∨ mutPkg src ≠ orig src)
  else mutPkg src ≠ orig src

/-- The original completed, and the mutant did something else. -/
@[mk_iff] structure Comparison.Tells (orig : Text → β) (src : Text) (c : Comparison β) : Prop where
  program : c.program = src
  expected : c.expected = .done (orig src)
  got : c.got ≠ .done (orig src)

/-- What `compare` says with a completed behaviour of the original. -/
structure Comparison.Spec (orig mutPkg : Text → β) (src : Text) (timeouts : ℕ → Bool)
    (c : Comparison β) : Prop where
  program : c.program = src
  differs_iff : c.verdict = .differs ↔ c.Tells orig src
  settled_iff : c.verdict = .differs ↔ Settled orig mutPkg src timeouts

theorem wp_compare_done (mutPkg : Text → β) (src : Text) :
    (compare mutPkg src (.done (orig src))).wp (fun c s' ↦ c ∈ s'.comparisons ∧
      c.Spec orig mutPkg src s.timeouts) E s := by
  unfold compare
  rw [Exec.wp_bind, wp_behaviour]
  cases h0 : s.timeouts 0 with
  | false =>
    rw [reading_of_done h0]
    by_cases heq : mutPkg src = orig src
    · rw [if_pos (by rw [heq]), wp_compared]
      refine ⟨by simp, rfl, ?_, ?_⟩
      · simp [Comparison.tells_iff, heq]
      · simp [Settled, h0, heq]
    · rw [if_neg (by simpa using heq), if_pos (by simp), wp_compared]
      refine ⟨by simp, rfl, ?_, ?_⟩
      · simp [Comparison.tells_iff, heq]
      · simp [Settled, h0, heq]
  | true =>
    rw [reading_of_timeout h0, if_neg (by simp), if_neg (by simp), Exec.wp_bind, wp_behaviour,
      Exec.wp_bind, wp_behaviour]
    cases h1 : s.timeouts 1 with
    | true =>
      rw [if_pos (reading_of_timeout h1 src), wp_compared]
      refine ⟨by simp, rfl, ?_, ?_⟩
      · simp [Comparison.tells_iff, reading_of_timeout (s := s.tick) h1]
      · simp [Settled, h0, h1]
    | false =>
      rw [reading_of_done (s := s.tick) h1, if_neg (by simp)]
      cases h2 : s.timeouts 2 with
      | true =>
        rw [reading_of_timeout (s := s.tick.tick) h2, if_neg (by simp), wp_compared]
        refine ⟨by simp, rfl, ?_, ?_⟩
        · simp [Comparison.tells_iff]
        · simp [Settled, h0, h1, h2]
      | false =>
        rw [reading_of_done (s := s.tick.tick) h2]
        by_cases heq : mutPkg src = orig src
        · rw [if_pos (by rw [heq]), wp_compared]
          refine ⟨by simp, rfl, ?_, ?_⟩
          · simp [Comparison.tells_iff, heq]
          · simp [Settled, h0, h1, h2, heq]
        · rw [if_neg (by simpa using heq), wp_compared]
          refine ⟨by simp, rfl, ?_, ?_⟩
          · simp [Comparison.tells_iff, heq]
          · simp [Settled, h0, h1, h2, heq]

/-- With a timeout for the original no comparison tells anything. -/
theorem wp_compare_timeout (mutPkg : Text → β) (src : Text) :
    (compare mutPkg src .timeout).wp (fun c s' ↦ c ∈ s'.comparisons ∧
      c.program = src ∧ ¬c.Tells orig src) E s := by
  unfold compare
  rw [Exec.wp_bind, wp_behaviour]
  split
  · rw [wp_compared]
    simp [Comparison.tells_iff]
  · rw [if_pos (.inr rfl), wp_compared]
    simp [Comparison.tells_iff]

/-- The last measurement of the original completes, and the comparison with it is settled. -/
def Resettled (orig mutPkg : Text → β) (src : Text) (timeouts : ℕ → Bool) : Prop :=
  timeouts 0 = false ∧ Settled orig mutPkg src fun n ↦ timeouts (n + 1)

theorem wp_remeasured (mutPkg : Text → β) (src : Text) :
    (behaviour orig src >>= fun e ↦ compare mutPkg src e.1).wp (fun c s' ↦ c ∈ s'.comparisons ∧
      c.program = src ∧ (c.Tells orig src ↔ Resettled orig mutPkg src s.timeouts) ∧
      (c.Tells orig src → c.verdict = .differs)) E s := by
  rw [Exec.wp_bind, wp_behaviour]
  unfold Resettled
  cases h0 : s.timeouts 0 with
  | true =>
    rw [reading_of_timeout h0]
    apply Exec.wp_mono (wp_compare_timeout mutPkg src)
    · rintro c s' ⟨hmem, hprogram, hnot⟩
      exact ⟨hmem, hprogram, iff_of_false hnot fun h ↦ Bool.noConfusion h.1, fun h ↦ absurd h hnot⟩
    · exact fun _ _ h ↦ h
  | false =>
    rw [reading_of_done h0]
    apply Exec.wp_mono (wp_compare_done mutPkg src)
    · rintro c s' ⟨hmem, hspec⟩
      refine ⟨hmem, hspec.program, ?_, hspec.differs_iff.mpr⟩
      rw [← hspec.differs_iff, hspec.settled_iff]
      exact (and_iff_right rfl).symm
    · exact fun _ _ h ↦ h

omit [DecidableEq β] in
theorem done_of_measured {src : Text} (b : Measured orig src) (h : b.1 ≠ .timeout) :
    b.1 = .done (orig src) := by
  obtain ⟨_ | _ | b, hb⟩ := b
  · exact absurd rfl h
  · exact hb.elim
  · exact congrArg Behaviour.done hb

/-- A hit was compared in this run, and the comparison tells that the mutant differs. -/
structure Comparison.Hit (c : Comparison β) (s : Bench orig) : Prop where
  mem : c ∈ s.comparisons
  differs : c.verdict = .differs
  tells : c.Tells orig c.program

theorem searchPrograms_hits (mutPkg : Text → β) (programs : List Text)
    (tried undecided unmeasured : ℕ) (s : Bench orig) :
    (searchPrograms mutPkg programs tried undecided unmeasured).wp
      (fun r s' ↦ ∀ hit, r.hit = some hit → hit.Hit s') (fun _ _ ↦ True) s := by
  induction programs generalizing tried undecided unmeasured s with
  | nil => exact fun hit h ↦ (Option.some_ne_none hit h.symm).elim
  | cons src programs ih =>
    apply Exec.wp_bind_of (Exec.wp_true _)
    intro expected s' _
    split
    · exact ih _ _ _ s'
    · rename_i hdone
      rw [done_of_measured expected hdone]
      apply Exec.wp_bind_of (wp_compare_done mutPkg src)
      rintro c s' ⟨hmem, hspec⟩
      split
      · exact ih _ _ _ s'
      · rename_i hdiffers
        have htells := hspec.differs_iff.mp hdiffers
        intro hit hhit
        cases hhit
        exact ⟨hmem, hdiffers, by rw [htells.program]; exact htells⟩
      · exact ih _ _ _ s'

/-- A killer with a program stores a completed behaviour of the original, another one of the
mutant, and the comparison of the program that gave them. -/
def Killer.IsEvidence (orig : Text → β) (comparisons : List (Comparison β)) (k : Killer β) : Prop :=
  ∀ program, k.program = some program → ∃ expected got, k.expected = some expected ∧
    k.mutantBehaviour = some got ∧ expected = .done (orig program) ∧ got ≠ expected ∧
    ⟨program, .differs, expected, got⟩ ∈ comparisons

/-- The program was not changed by shrinking, or the comparison that is made of what it was shrunk
to is settled. -/
def LastSettled (A : Alphabet) (mutant : Option (Text → β)) (programs : List Text)
    (start : Bench orig) : Prop :=
  ∀ mutPkg r s hit small s', mutant = some mutPkg →
    searchPrograms mutPkg programs 0 0 0 start = (.ok r, s) → r.hit = some hit →
    shrink A (keepCandidate mutPkg) hit.program 3 s = (.ok small, s') →
    orSource small hit.program = hit.program ∨
      Resettled orig mutPkg (orSource small hit.program) s'.timeouts

theorem compare_preserves (mutPkg : Text → β) (c : Comparison β) (src : Text)
    (expected : Behaviour β) :
    (compare mutPkg src expected).Preserves fun s : Bench orig ↦ c ∈ s.comparisons := by
  have hbehaviour (run : Text → β) :
      (behaviour run src).Preserves fun s : Bench orig ↦ c ∈ s.comparisons := fun _ h ↦ h
  have hcompared (d : Comparison β) :
      (compared d).Preserves fun s : Bench orig ↦ c ∈ s.comparisons :=
    fun _ h ↦ List.mem_append_left _ h
  unfold compare
  apply (hbehaviour mutPkg).bind
  intro got
  split
  · exact hcompared _
  split
  · exact hcompared _
  apply (hbehaviour orig).bind
  intro againOrig
  apply (hbehaviour mutPkg).bind
  intro againMut
  split
  · exact hcompared _
  split
  · exact hcompared _
  · exact hcompared _

theorem keepCandidate_preserves (mutPkg : Text → β) (c : Comparison β) (cand : Text) :
    (keepCandidate mutPkg cand).Preserves fun s : Bench orig ↦ c ∈ s.comparisons := by
  have hbehaviour :
      (behaviour orig cand).Preserves fun s : Bench orig ↦ c ∈ s.comparisons := fun _ h ↦ h
  apply hbehaviour.bind
  intro e
  split
  · exact Exec.preserves_pure _ _
  · apply (compare_preserves mutPkg c cand e.1).bind
    exact fun d ↦ Exec.preserves_pure _ _

theorem shrinkHit_evidence_iff (A : Alphabet) (mutPkg : Text → β) (r : SearchResult β)
    {hit : Comparison β} {s : Bench orig} (hhit : hit.Hit s) :
    (∀ k s', shrinkHit A mutPkg r hit s = (.ok k, s') → k.IsEvidence orig s'.comparisons) ↔
      ∀ small s', shrink A (keepCandidate mutPkg) hit.program 3 s = (.ok small, s') →
        orSource small hit.program = hit.program ∨
          Resettled orig mutPkg (orSource small hit.program) s'.timeouts := by
  have hkept := shrink_preserves (A := A) (keepCandidate_preserves mutPkg hit) hit.program 3 s
    hhit.mem
  unfold shrinkHit
  rcases hrun : shrink A (keepCandidate mutPkg) hit.program 3 s with ⟨_ | small, s₁⟩
  · rw [Exec.bind_error hrun]
    simp
  · have hmem : hit ∈ s₁.comparisons := by
      have := hkept.state
      rwa [hrun] at this
    rw [Exec.bind_ok hrun]
    have hsmall {P : Option Text → Bench orig → Prop} :
        (∀ small' s', (Except.ok small, s₁) = ((Except.ok small', s') :
          Except ShrinkRaised (Option Text) × Bench orig) → P small' s') ↔ P small s₁ := by
      constructor
      · exact fun h ↦ h small s₁ rfl
      · rintro h small' s' ⟨⟩
        exact h
    rw [hsmall]
    by_cases heq : orSource small hit.program = hit.program
    · rw [if_pos heq]
      refine iff_of_true ?_ (.inl heq)
      rintro k s' ⟨⟩ program hprogram
      obtain rfl := Option.some.inj hprogram
      refine ⟨hit.expected, hit.got, rfl, rfl, ?_, ?_, ?_⟩
      · rw [heq]
        exact hhit.tells.expected
      · rw [hhit.tells.expected]
        exact hhit.tells.got
      · rw [heq, ← hhit.differs]
        exact hmem
    · rw [if_neg heq, or_iff_right heq]
      obtain ⟨c, s₂, hlast, hc, hprogram, htells, hdiffers⟩ | ⟨e, s₂, -, hfalse⟩ :=
        Exec.wp_cases (wp_remeasured (E := fun _ _ ↦ False) (s := s₁) mutPkg
          (orSource small hit.program))
      · rw [← htells]
        have hassoc := Exec.bind_assoc (behaviour orig (orSource small hit.program))
          (fun e ↦ compare mutPkg (orSource small hit.program) e.1) fun c ↦
            (pure ⟨some (orSource small hit.program), some c.expected, some c.got, r.tried,
              r.undecided, r.unmeasured⟩ : Exec ShrinkRaised (Bench orig) (Killer β))
        rw [← hassoc, Exec.bind_ok hlast]
        constructor
        · intro h
          obtain ⟨expected, got, hexpected, hgot, hdone, hne, -⟩ := h _ s₂ rfl _ rfl
          obtain rfl := Option.some.inj hexpected
          obtain rfl := Option.some.inj hgot
          rw [hdone] at hne
          exact ⟨hprogram, hdone, hne⟩
        · rintro h k s' ⟨⟩ program hsome
          obtain rfl := Option.some.inj hsome
          refine ⟨c.expected, c.got, rfl, rfl, h.expected, ?_, ?_⟩
          · rw [h.expected]
            exact h.got
          · rw [← hdiffers h, ← hprogram]
            exact hc
      · exact hfalse.elim

/-- For every mutant, programs, timeouts and cache, a killer that is returned is evidence exactly
if the last comparison is settled. -/
theorem killer_is_evidence_iff (A : Alphabet) (orig : Text → β) (mutant : Option (Text → β))
    (programs : List Text) (timeouts : ℕ → Bool) (cache : OrigCache orig) :
    (∀ k s, findKiller A mutant programs ⟨timeouts, cache, []⟩ = (.ok k, s) →
      k.IsEvidence orig s.comparisons) ↔ LastSettled A mutant programs ⟨timeouts, cache, []⟩ := by
  unfold LastSettled findKiller
  cases mutant with
  | none =>
    refine iff_of_true ?_ fun mutPkg r s hit small s' h ↦ absurd h (Option.some_ne_none _).symm
    rintro k s ⟨⟩ program hprogram
    exact absurd hprogram (Option.some_ne_none _).symm
  | some mutPkg =>
    have hhits := searchPrograms_hits mutPkg programs 0 0 0 ⟨timeouts, cache, []⟩
    dsimp only
    rcases hrun : searchPrograms mutPkg programs 0 0 0 (⟨timeouts, cache, []⟩ : Bench orig)
      with ⟨_ | r, s⟩
    · rw [Exec.bind_error hrun]
      refine iff_of_true (fun k s h ↦ by cases h) ?_
      rintro _ r s' hit small s'' ⟨⟩ h
      rw [hrun] at h
      cases h
    · rw [Exec.bind_ok hrun]
      unfold Exec.wp at hhits
      rw [hrun] at hhits
      cases hhit : r.hit with
      | none =>
        refine iff_of_true ?_ ?_
        · rintro k s' ⟨⟩ program hprogram
          exact absurd hprogram (Option.some_ne_none _).symm
        · rintro _ r' s' hit small s'' ⟨⟩ h hhit'
          rw [hrun] at h
          cases h
          rw [hhit] at hhit'
          cases hhit'
      | some hit =>
        rw [shrinkHit_evidence_iff A mutPkg r (hhits hit hhit)]
        constructor
        · rintro h _ r' s' hit' small s'' ⟨⟩ hr hhit' hsmall
          rw [hrun] at hr
          cases hr
          rw [hhit] at hhit'
          cases hhit'
          exact h small s'' hsmall
        · exact fun h small s' hsmall ↦ h mutPkg r s hit small s' rfl hrun hhit hsmall

def noCache (orig : Text → β) : OrigCache orig := ⟨fun _ ↦ none, fun _ _ h ↦ by cases h⟩

/-- The original times out when the shrunk program is measured for the last time. -/
theorem timeout_expected : ¬∀ (A : Alphabet) (orig : Text → ℕ) (mutant : Option (Text → ℕ))
    (programs : List Text) (timeouts : ℕ → Bool) (cache : OrigCache orig) k s,
    findKiller A mutant programs ⟨timeouts, cache, []⟩ = (.ok k, s) →
      k.IsEvidence orig s.comparisons := by
  intro h
  have hevidence := h plain (fun _ ↦ 0) (some fun _ ↦ 1) ["x\n\n".toList] (fun n ↦ n = 4)
    (noCache _) _ _ rfl
  obtain ⟨expected, got, hexpected, -, hdone, -⟩ := hevidence "x\n".toList rfl
  rw [hdone] at hexpected
  exact absurd hexpected (by decide)

end NucLlm.Swe
