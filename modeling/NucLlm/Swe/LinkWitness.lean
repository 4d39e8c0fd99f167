import NucLlm.Swe.LinkRuns

/-!
# The deep witness

The snapshot that is taken at the staging has the digest of every file of the master.
If no digest has changed after a run, and no content that was written collides with one
of the project, the master is the copy of the project still.
-/

namespace NucLlm.Swe.LinkCopy

open NucLlm.Inodes

section

variable {name : Name} {p : Path} {i : ℕ}

theorem lookup_map_cons (name' : Name) (l : List (Path × ℕ)) (p : Path) :
    (l.map fun e ↦ (name :: e.1, e.2)).lookup (name' :: p) =
      if name' = name then l.lookup p else none := by
  induction l with
  | nil => simp
  | cons e l ih =>
      obtain ⟨q, j⟩ := e
      rw [List.map_cons, List.lookup_cons, List.lookup_cons, ih]
      by_cases hname : name' = name
      · subst hname
        simp
      · have hne : (name' :: p == name :: q) = false := beq_false_of_ne (by simp [hname])
        simp only [hne, if_neg hname]

theorem lookup_walkEntries {es : List (Name × Node Name)} {n : Node Name}
    (hname : ¬ ignored name) (hes : (Node.dir es).child name = some n)
    (hn : (walkNode n).lookup p = some i) : (walkEntries es).lookup (name :: p) = some i := by
  induction es with
  | nil => simp [Node.child_nil] at hes
  | cons e es ih =>
      obtain ⟨key, m⟩ := e
      rw [walkEntries, List.lookup_append]
      by_cases hkey : name = key
      · subst hkey
        rw [Node.child_cons_self] at hes
        obtain rfl := Option.some.inj hes
        rw [if_neg hname, lookup_map_cons, if_pos rfl, hn]
        rfl
      · rw [Node.child_cons_ne m es hkey] at hes
        have hhead : (if ignored key then [] else
            (walkNode m).map fun e ↦ (key :: e.1, e.2)).lookup (name :: p) = none := by
          split
          · rfl
          · rw [lookup_map_cons, if_neg hkey]
        rw [hhead, ih hes]
        rfl

theorem file_of_held {d : Disk Bytes} {root : Node Name} {content : Bytes} (hroot : root.Plain)
    (h : d.held root p = some (.file content)) :
    ∃ i inode, root.find p = some (.file i) ∧ d[i]? = some inode ∧ inode.content = content := by
  obtain ⟨n, hn, hlook⟩ := Option.bind_eq_some_iff.mp h
  cases n with
  | file i =>
      obtain ⟨inode, hinode, hcontent⟩ := Option.map_eq_some_iff.mp hlook
      exact ⟨i, inode, hn, hinode, by simpa using hcontent⟩
  | dangling target => exact (plain_find hroot hn).elim
  | symlink target n => exact (plain_find hroot hn).elim
  | dir es => simp [Disk.look] at hlook

/-- The walk of the witness meets every file that can be found. -/
theorem lookup_walkNode {n : Node Name} (hn : n.Plain) (hp : ¬ p.any ignored)
    (h : n.find p = some (.file i)) : (walkNode n).lookup p = some i := by
  induction p generalizing n with
  | nil =>
      rw [Node.find_nil] at h
      obtain rfl := Option.some.inj h
      rfl
  | cons name rest ih =>
      rw [List.any_cons, Bool.or_eq_true, not_or] at hp
      rw [Node.find_cons] at h
      obtain ⟨m, hm, h⟩ := Option.bind_eq_some_iff.mp h
      have hrest := ih (Node.plain_child hn hm) hp.2 h
      cases n with
      | file i => simp [Node.child_file] at hm
      | dangling target => exact hn.elim
      | symlink target n => exact hn.elim
      | dir es => exact lookup_walkEntries hp.1 hm hrest

theorem lookup_snapshot (hash : Bytes → Bytes) {d : Disk Bytes} {root : Node Name}
    {inode : Inode Bytes} (hdir : root.isDir) (hroot : root.Plain) (hp : ¬ p.any ignored)
    (h : root.find p = some (.file i)) (hi : d[i]? = some inode) :
    ∃ stat, (snapshot (some hash) d root).lookup p = some stat ∧
      stat.digest = some (hash inode.content) := by
  obtain ⟨es, rfl⟩ := (isDir_iff hroot).mp hdir
  have hwalk : (walkEntries es).lookup p = some i := lookup_walkNode hroot hp h
  change ∃ stat, ((walkEntries es).filterMap _).lookup p = some stat ∧ _
  generalize walkEntries es = walk at hwalk
  induction walk with
  | nil => simp at hwalk
  | cons e walk ih =>
      obtain ⟨q, j⟩ := e
      by_cases hq : p = q
      · subst hq
        rw [List.lookup_cons_self] at hwalk
        obtain rfl := Option.some.inj hwalk
        rw [List.filterMap_cons]
        simp only [hi, Option.map_some, List.lookup_cons_self]
        exact ⟨_, rfl, rfl⟩
      · rw [List.lookup_cons, beq_false_of_ne hq] at hwalk
        obtain ⟨stat, hstat, hdigest⟩ := ih hwalk
        refine ⟨stat, ?_, hdigest⟩
        rw [List.filterMap_cons]
        cases hj : d[j]? with
        | none => exact hstat
        | some inode' =>
            simp only [Option.map_some, List.lookup_cons, beq_false_of_ne hq]
            exact hstat

/-- Where nothing has drifted, the digests are the ones of the snapshot. -/
theorem digest_of_drift_nil {snap now : Snapshot} {old new : Stat} (h : drift true snap now = [])
    (hold : (p, old) ∈ snap) (hnew : now.lookup p = some new) : new.digest = old.digest := by
  have hnone := (List.append_eq_nil_iff.mp h).1
  have hmem : (p, old) ∈ byPath snap := List.mem_mergeSort.mpr hold
  have hat := List.filterMap_eq_nil_iff.mp hnone _ hmem
  unfold driftAt at hat
  rw [hnew] at hat
  by_contra hne
  simp [hne] at hat

end

namespace MasterTree

variable {c : Config} {s s' : MasterTree}

/-- The snapshot has the digest of every file of the project. -/
def Seen (c : Config) (snap : Snapshot) : Prop :=
  ∀ p content, c.project.projected p = some (.file content) →
    ∃ stat, (p, stat) ∈ snap ∧ stat.digest = some (c.blake2b content)

/-- The master is sound, and its deep witness has seen it. -/
structure Watched (c : Config) (s : MasterTree) : Prop where
  sound : Sound c s
  seen : ∀ root, s.path = some root → ∃ snap, s.deep = some snap ∧ Seen c snap
  unstaged : s.path = none → s.witness = none ∧ s.deep = none

theorem watched_init (c : Config) : Watched c (init c) where
  sound := sound_init c
  seen _ h := by simp [init] at h
  unstaged _ := ⟨rfl, rfl⟩

theorem seen_of_holds {d : Disk Bytes} {root : Node Name} (h : c.project.Holds d root) :
    Seen c (snapshot (some c.blake2b) d root) := by
  intro p content hp
  have hclean : ¬ p.any ignored := by
    intro hignored
    rw [projected_ignored _ hignored] at hp
    simp at hp
  obtain ⟨i, inode, hfind, hinode, hcontent⟩ := file_of_held h.plain ((h.same p).trans hp)
  obtain ⟨stat, hstat, hdigest⟩ := lookup_snapshot c.blake2b h.dir h.plain hclean hfind hinode
  obtain ⟨before, after, hsnap, -⟩ := List.lookup_eq_some_iff.mp hstat
  refine ⟨stat, ?_, hdigest.trans (by rw [hcontent])⟩
  rw [hsnap]
  simp

theorem stage_watched (hwitness : c.wantWitness) (hdeep : c.wantDeep)
    (hs : c.project.Kept s.disk) (h : stage c s = some s') : Watched c s' := by
  obtain ⟨hsound, -, root, hroot⟩ := stage_sound hs h
  refine ⟨hsound, fun root' hroot' ↦ ?_, fun hnone ↦ by simp [hnone] at hroot⟩
  obtain ⟨r, -, rfl⟩ := Option.map_eq_some_iff.mp h
  refine ⟨_, if_pos (by simp [hwitness, hdeep]), ?_⟩
  exact seen_of_holds (hsound.master r.2 rfl)

theorem ready_watched (hwitness : c.wantWitness) (hdeep : c.wantDeep) (hs : Watched c s)
    (h : ready c s = some s') : Watched c s' := by
  unfold ready at h
  split at h
  · exact Option.some.inj h ▸ hs
  · exact stage_watched hwitness hdeep hs.sound.kept h

/-- What a run makes of the state: the disk changes through the names of its sandbox only. -/
structure Ran (c : Config) (run : Run) (s s' : MasterTree) : Prop where
  kept : c.project.Kept s'.disk
  touched : ∃ box box', (∀ i ∈ box.inodes, c.project.disk.length ≤ i) ∧
    Touched run.writes s.disk s'.disk box box'
  path : s'.path = s.path
  deep : s'.deep = s.deep

theorem kept_of_touched {project : Project} {written : Bytes → Prop} {d d' : Disk Bytes}
    {box box' : Node Name} (hd : project.Kept d) (h : Touched written d d' box box')
    (habove : ∀ i ∈ box.inodes, project.disk.length ≤ i) : project.Kept d' where
  long := Nat.le_trans hd.long h.long
  same i hi := by
    rcases h.kept i (Nat.lt_of_lt_of_le hi hd.long) with hkept | ⟨hmem, -⟩
    · rw [hkept, hd.same i hi]
    · exact absurd hi (Nat.not_lt.mpr (habove i hmem))

theorem touched_of_wrote {written : Bytes → Prop} {d d' : Disk Bytes} {root root' : Node Name}
    {path : Path} {content : Bytes} (h : Wrote d d' root root' path content) :
    Touched written d d' root root' where
  long := h.grows.length_le
  kept _ hi := .inl (block_of_grows h.grows hi)
  names := h.names

theorem runMutant_ran (run : Run) (hs : Sound c s) :
    runMutant c run s = s ∧ call c run.refuses s = none ∨
      ∃ s₁ box, call c run.refuses s = some (s₁, box) ∧ Ran c run s₁ (runMutant c run s) := by
  unfold runMutant
  cases hcall : call c run.refuses s with
  | none => exact .inl ⟨rfl, rfl⟩
  | some r =>
      obtain ⟨s₁, box⟩ := r
      obtain ⟨hsound, -, hholds, -⟩ := call_sound hs hcall
      refine .inr ⟨s₁, box, rfl, ?_⟩
      dsimp only
      cases hwrite : writeMutant c.host run.mutant s₁.disk box with
      | none => exact ⟨hsound.kept, ⟨box, box, hholds.above, .refl⟩, rfl, rfl⟩
      | some w =>
          have hwrote := writeMutant_wrote hholds.plain hholds.within hwrite
          have htouched := (touched_of_wrote hwrote).trans (Run.suite_touched c.host run.suite w)
          exact ⟨kept_of_touched hsound.kept htouched hholds.above,
            ⟨box, _, hholds.above, htouched⟩, rfl, rfl⟩

/-! ## Suites that work on names -/

theorem ran_names {run : Run} (hrun : run.OnNames) (hs : Sound c s) (h : Ran c run s s') :
    Sound c s' ∧ s.disk <+: s'.disk := by
  obtain ⟨box, box', habove, htouched⟩ := h.touched
  have hgrows : s.disk <+: s'.disk := by
    rw [List.prefix_iff_getElem?]
    intro i hi
    rcases htouched.kept i hi with hkept | ⟨-, inode, -, op, hop, hwrites⟩
    · rw [hkept, List.getElem?_eq_getElem hi]
    · exact absurd hwrites (Op.not_writes (hrun op hop) _)
  refine ⟨⟨h.kept, fun root hroot ↦ ?_, fun hsome ↦ hs.staged (h.path ▸ hsome)⟩, hgrows⟩
  exact holds_of_grows (hs.master root (h.path ▸ hroot)) hgrows

theorem runMutant_names {run : Run} (hrun : run.OnNames) (hs : Sound c s) :
    Sound c (runMutant c run s) ∧ s.disk <+: (runMutant c run s).disk ∧
      ∀ root, s.path = some root → (runMutant c run s).path = some root := by
  rcases runMutant_ran run hs with ⟨hsame, -⟩ | ⟨s₁, box, hcall, hran⟩
  · rw [hsame]
    exact ⟨hs, List.prefix_rfl, fun _ h ↦ h⟩
  · obtain ⟨hsound, hgrows, -, s₂, hready, hpath, -⟩ := call_sound hs hcall
    obtain ⟨hsound', hgrows'⟩ := ran_names hrun hsound hran
    refine ⟨hsound', hgrows.trans hgrows', fun root hroot ↦ ?_⟩
    obtain ⟨-, -, -, hsame⟩ := ready_sound hs hready
    rw [hran.path, hpath, hsame root hroot, hroot]

theorem runAll_names {runs : List Run} (hruns : ∀ run ∈ runs, run.OnNames) (hs : Sound c s) :
    Sound c (runAll c runs s) ∧ s.disk <+: (runAll c runs s).disk ∧
      ∀ root, s.path = some root → (runAll c runs s).path = some root := by
  induction runs generalizing s with
  | nil => exact ⟨hs, List.prefix_rfl, fun _ h ↦ h⟩
  | cons run runs ih =>
      obtain ⟨hrun, hruns⟩ := List.forall_mem_cons.mp hruns
      obtain ⟨hsound, hgrows, hpath⟩ := runMutant_names hrun hs
      obtain ⟨hsound', hgrows', hpath'⟩ := ih hruns hsound
      exact ⟨hsound', hgrows.trans hgrows', fun root hroot ↦ hpath' root (hpath root hroot)⟩

/-! ## Suites that write in place -/

/-- No content that is written has the digest of another one of the project. -/
def CollisionFree (c : Config) (runs : List Run) : Prop :=
  ∀ run ∈ runs, ∀ content content', run.writes content →
    (∃ p, heldAt (byteCopy c (init c)) p = some (.file content')) →
      c.blake2b content = c.blake2b content' → content = content'

theorem call_watched {refuses : Path → Bool} {box : Node Name} (hwitness : c.wantWitness)
    (hdeep : c.wantDeep) (hs : Watched c s) (h : call c refuses s = some (s', box)) :
    Watched c s' ∧ ∃ root, s'.path = some root := by
  obtain ⟨hsound, -, -, s₁, hready, hpath, hseen⟩ := call_sound hs.sound h
  have hwatched := ready_watched hwitness hdeep hs hready
  obtain ⟨-, -, ⟨root, hroot⟩, -⟩ := ready_sound hs.sound hready
  refine ⟨⟨hsound, fun root' hroot' ↦ ?_, fun hnone ↦ ?_⟩, root, hpath.trans hroot⟩
  · rw [hseen]
    exact hwatched.seen root' (hpath ▸ hroot')
  · rw [hpath, hroot] at hnone
    simp at hnone

/-- A written content that the deep witness does not see is the content of the project. -/
theorem holds_of_drift_nil {written : Bytes → Prop} {d d' : Disk Bytes} {root box box' : Node Name}
    {snap : Snapshot} (hroot : c.project.Holds d root) (h : Touched written d d' box box')
    (hseen : Seen c snap) (hdrift : drift true snap (snapshot (some c.blake2b) d' root) = [])
    (hfree : ∀ content content', written content →
      (∃ p, c.project.projected p = some (.file content')) →
        c.blake2b content = c.blake2b content' → content = content') :
    c.project.Holds d' root where
  plain := hroot.plain
  dir := hroot.dir
  within := hroot.within.mono h.long
  above := hroot.above
  same p := by
    rw [← hroot.same p]
    unfold Disk.held
    cases hn : root.find p with
    | none => rfl
    | some n =>
        cases n with
        | dangling target => rfl
        | symlink target n => rfl
        | dir es => rfl
        | file i =>
            have hi := hroot.within i (Node.inodes_find hn (by simp))
            rcases h.kept i hi with hkept | ⟨-, inode, hinode, hwritten⟩
            · simp [Disk.look, hkept]
            · have hheld : c.project.projected p = some (.file d[i].content) := by
                rw [← hroot.same p, Disk.held, hn]
                simp [Disk.look, hi]
              have hclean : ¬ p.any ignored := by
                intro hignored
                rw [projected_ignored _ hignored] at hheld
                simp at hheld
              obtain ⟨old, hold, hdigest⟩ := hseen p _ hheld
              obtain ⟨new, hnew, hdigest'⟩ :=
                lookup_snapshot c.blake2b hroot.dir hroot.plain hclean hn hinode
              have hsame := digest_of_drift_nil hdrift hold hnew
              rw [hdigest, hdigest', Option.some.injEq] at hsame
              have hcontent := hfree _ _ hwritten ⟨p, hheld⟩ hsame
              simp [Disk.look, hinode, hi, hcontent]

theorem restaged (hwitness : c.wantWitness) (hdeep : c.wantDeep) (hs : c.project.Kept s.disk)
    (haccepted : c.project.accepted) (found : List (Path × Drift)) :
    ∃ r, (stage c s).map (fun s ↦ (s, found)) = some r ∧ Watched c r.1 := by
  obtain ⟨s', hstage⟩ := Option.isSome_iff_exists.mp ((stage_isSome hs).trans haccepted)
  rw [hstage]
  exact ⟨_, rfl, stage_watched hwitness hdeep hs hstage⟩

theorem check_watched {run : Run} {root : Node Name} (hwitness : c.wantWitness)
    (hdeep : c.wantDeep) (hs : Watched c s) (hroot : s.path = some root) (h : Ran c run s s')
    (hfree : ∀ content content', run.writes content →
      (∃ p, c.project.projected p = some (.file content')) →
        c.blake2b content = c.blake2b content' → content = content') :
    ∃ r, check c none true true s' = some r ∧ Watched c r.1 := by
  obtain ⟨snap, hsnap, hseen⟩ := hs.seen root hroot
  obtain ⟨box, box', -, htouched⟩ := h.touched
  have hpath : s'.path = some root := h.path.trans hroot
  have hsnap' : s'.deep = some snap := h.deep.trans hsnap
  unfold check
  simp only [hsnap', hpath, Option.isSome_some, Bool.and_self, if_true, Option.map_some,
    Option.getD_some]
  split
  · rename_i hnil
    refine ⟨_, rfl, ⟨h.kept, fun root' hroot' ↦ ?_, fun _ ↦ ?_⟩, fun _ _ ↦ ⟨snap, hsnap', hseen⟩,
      fun hnone ↦ ?_⟩
    · rw [hpath] at hroot'
      obtain rfl := Option.some.inj hroot'
      exact holds_of_drift_nil (hs.sound.master root hroot) htouched hseen hnil hfree
    · exact hs.sound.staged (by rw [hroot]; rfl)
    · rw [hpath] at hnone
      simp at hnone
  · have haccepted := hs.sound.staged (by rw [hroot]; rfl)
    refine restaged hwitness hdeep ?_ haccepted _
    exact h.kept

/-- One mutant and the check after it. -/
def checkedRun (c : Config) (s : MasterTree) (run : Run) : Option MasterTree :=
  (check c none true true (runMutant c run s)).map Prod.fst

theorem projected_of_heldAt {content : Bytes}
    (h : ∃ p, c.project.projected p = some (.file content)) (haccepted : c.project.accepted) :
    ∃ p, heldAt (byteCopy c (init c)) p = some (.file content) := by
  have hinit := (sound_init c).kept
  obtain ⟨p, hp⟩ := h
  refine ⟨p, ?_⟩
  rw [heldAt_of_holds (byteCopy_isSome hinit) fun _ _ h ↦ byteCopy_holds hinit h, if_pos haccepted,
    hp]

theorem checkedRun_watched {run : Run} (hwitness : c.wantWitness) (hdeep : c.wantDeep)
    (hs : Watched c s) (hfree : CollisionFree c [run]) :
    ∃ s', checkedRun c s run = some s' ∧ Watched c s' := by
  rcases runMutant_ran run hs.sound with ⟨hsame, hnone⟩ | ⟨s₁, box, hcall, hran⟩
  · have hrejected := call_isSome run.refuses hs.sound
    rw [hnone] at hrejected
    have hpath : s.path = none := by
      rw [← Option.not_isSome_iff_eq_none]
      intro hsome
      exact absurd (hs.sound.staged hsome) (by rw [← hrejected]; simp)
    obtain ⟨hw, hd⟩ := hs.unstaged hpath
    refine ⟨s, ?_, hs⟩
    unfold checkedRun
    rw [hsame]
    simp [check, hw, hd]
  · obtain ⟨hwatched, root, hroot⟩ := call_watched hwitness hdeep hs hcall
    have haccepted := hwatched.sound.staged (by rw [hroot]; rfl)
    obtain ⟨r, hcheck, hr⟩ := check_watched hwitness hdeep hwatched hroot hran
      fun content content' hw hp hsame ↦ hfree run List.mem_cons_self content content' hw
        (projected_of_heldAt hp haccepted) hsame
    refine ⟨r.1, ?_, hr⟩
    unfold checkedRun
    rw [hcheck]
    rfl

theorem runChecked_watched {runs : List Run} (hwitness : c.wantWitness) (hdeep : c.wantDeep)
    (hs : Watched c s) (hfree : CollisionFree c runs) :
    ∃ s', runChecked c runs s = some s' ∧ Watched c s' := by
  induction runs generalizing s with
  | nil => exact ⟨s, rfl, hs⟩
  | cons run runs ih =>
      have hhead : CollisionFree c [run] := fun run' hrun' ↦
        hfree run' (List.mem_cons.mpr (.inl (List.mem_singleton.mp hrun')))
      have htail : CollisionFree c runs :=
        fun run' hrun' ↦ hfree run' (List.mem_cons_of_mem _ hrun')
      obtain ⟨s₁, hs₁, hwatched⟩ := checkedRun_watched hwitness hdeep hs hhead
      obtain ⟨s₂, hs₂, hwatched'⟩ := ih hwatched htail
      refine ⟨s₂, ?_, hwatched'⟩
      unfold runChecked
      rw [List.foldlM_cons]
      change (checkedRun c s run).bind _ = _
      rw [hs₁]
      exact hs₂

/-- Suites that work on names start in the copy of the project with their mutant in it, and leave
the master alone.  With a deep check after each run, suites may write in place as well. -/
theorem linked_sandboxes_isolated (c : Config) :
    (∀ (done : List Run) (run : Run), (∀ r ∈ done, r.OnNames) →
      (∀ p, heldAt (started c (call c run.refuses) run.mutant (runAll c done (init c))) p =
        heldAt (started c (byteCopy c) run.mutant (init c)) p) ∧
      ∀ s box, started c (call c run.refuses) run.mutant (runAll c done (init c)) = some (s, box) →
        s.disk.held box run.mutant.path = some (.file run.mutant.source) ∧
        ∀ p, p ≠ run.mutant.path → s.disk.held box p = heldAt (byteCopy c (init c)) p) ∧
    (∀ (done more : List Run) (master : Node Name), (∀ r ∈ done ++ more, r.OnNames) →
      (runAll c done (init c)).path = some master →
        (runAll c (done ++ more) (init c)).path = some master ∧
          (∀ i ∈ master.inodes, (runAll c (done ++ more) (init c)).disk[i]? =
            (runAll c done (init c)).disk[i]?) ∧
          ∀ p, (runAll c done (init c)).disk.held master p = heldAt (byteCopy c (init c)) p) ∧
    (c.wantWitness → c.wantDeep → ∀ done : List Run, CollisionFree c done →
      ∃ s, runChecked c done (init c) = some s ∧
        ∀ refuses p, heldAt (call c refuses s) p = heldAt (byteCopy c (init c)) p) := by
  refine ⟨fun done run hdone ↦ ?_, fun done more master hruns hpath ↦ ?_,
    fun hwitness hdeep done hfree ↦ ?_⟩
  · obtain ⟨hsound, -⟩ := runAll_names hdone (sound_init c)
    refine ⟨heldAt_started hsound, fun s box hstarted ↦ ?_⟩
    obtain ⟨⟨s₁, box₁⟩, hcall, hstarted⟩ := Option.bind_eq_some_iff.mp hstarted
    obtain ⟨w, hwrite, hr⟩ := Option.map_eq_some_iff.mp hstarted
    obtain ⟨rfl, rfl⟩ := Prod.mk.inj hr
    obtain ⟨-, -, hholds, -⟩ := call_sound hsound hcall
    have hwrote := writeMutant_wrote hholds.plain hholds.within hwrite
    refine ⟨hwrote.self, fun p hp ↦ ?_⟩
    rw [hwrote.beside p hp, ← heldAt_call hsound p, hcall]
    rfl
  · have hdone : ∀ r ∈ done, r.OnNames := fun r hr ↦ hruns r (List.mem_append_left _ hr)
    have hmore : ∀ r ∈ more, r.OnNames := fun r hr ↦ hruns r (List.mem_append_right _ hr)
    obtain ⟨hsound, -⟩ := runAll_names hdone (sound_init c)
    obtain ⟨-, hgrows, hpath'⟩ := runAll_names hmore hsound
    have hholds := hsound.master master hpath
    have hall : runAll c (done ++ more) (init c) = runAll c more (runAll c done (init c)) :=
      List.foldl_append
    rw [hall]
    refine ⟨hpath' master hpath, fun i hi ↦ block_of_grows hgrows (hholds.within i hi),
      fun p ↦ ?_⟩
    have hinit := (sound_init c).kept
    have haccepted := hsound.staged (by rw [hpath]; rfl)
    rw [heldAt_of_holds (byteCopy_isSome hinit) fun _ _ h ↦ byteCopy_holds hinit h,
      if_pos haccepted, hholds.same]
  · obtain ⟨s, hs, hwatched⟩ := runChecked_watched hwitness hdeep (watched_init c) hfree
    exact ⟨s, hs, fun refuses p ↦ heldAt_call hwatched.sound p⟩

/-- A project of one file, with a hash that keeps everything. -/
def oneFile : Config where
  host := ⟨id, id, 420⟩
  project :=
    { disk := [⟨7, 0, 420, [1, 2]⟩]
      tree := .dir [("a.py".toList, .file 0)]
      within := by simp [Within, Node.inodesIn]
      abspath := "/repo".toList
      exampleNames := none }
  wantWitness := true
  wantDeep := true
  blake2b := id

def deleting : Run := ⟨⟨["a.py".toList], [3]⟩, fun _ ↦ false, [.delete ["a.py".toList]]⟩

def writing : Run :=
  ⟨⟨["b.py".toList], [3]⟩, fun _ ↦ false, [.write ["a.py".toList] [9, 9] 5]⟩

theorem oneFile_isolated :
    (∀ p, heldAt (started oneFile (call oneFile deleting.refuses) deleting.mutant
        (runAll oneFile [deleting] (init oneFile))) p =
      heldAt (started oneFile (byteCopy oneFile) deleting.mutant (init oneFile)) p) ∧
    ∃ s, runChecked oneFile [writing] (init oneFile) = some s ∧
      ∀ refuses p, heldAt (call oneFile refuses s) p = heldAt (byteCopy oneFile (init oneFile)) p :=
  ⟨((linked_sandboxes_isolated oneFile).1 [deleting] deleting
      (by simp [Run.OnNames, deleting, Op.OnNames])).1,
    (linked_sandboxes_isolated oneFile).2.2 rfl rfl [writing] fun _ _ _ _ _ _ h ↦ h⟩

end MasterTree

end NucLlm.Swe.LinkCopy
