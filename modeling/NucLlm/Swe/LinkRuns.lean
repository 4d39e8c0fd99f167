import NucLlm.Swe.LinkMutants

/-!
# Runs over one master

Whatever the suites do to the names of their sandboxes, the master stays the copy of the
project.  When they write in place, the deep witness is asked after each run, and a
master that has drifted is staged again.
-/

namespace NucLlm.Swe.LinkCopy

open NucLlm.Inodes

/-- What happens in a sandbox: new inodes, and contents that are written through its names. -/
structure Touched (written : Bytes → Prop) (d d' : Disk Bytes) (root root' : Node Name) : Prop where
  long : d.length ≤ d'.length
  kept : ∀ i < d.length, d'[i]? = d[i]? ∨
    i ∈ root.inodes ∧ ∃ inode, d'[i]? = some inode ∧ written inode.content
  names : ∀ i ∈ root'.inodes, i ∈ root.inodes ∨ d.length ≤ i

namespace Touched

variable {written : Bytes → Prop} {d d₁ d₂ : Disk Bytes} {root root₁ root₂ : Node Name}

theorem refl : Touched written d d root root where
  long := Nat.le_refl _
  kept _ _ := .inl rfl
  names _ hi := .inl hi

theorem trans (h : Touched written d d₁ root root₁) (h' : Touched written d₁ d₂ root₁ root₂) :
    Touched written d d₂ root root₂ where
  long := Nat.le_trans h.long h'.long
  kept i hi := by
    rcases h'.kept i (Nat.lt_of_lt_of_le hi h.long) with hkept | ⟨hmem, hwritten⟩
    · rw [hkept]
      exact h.kept i hi
    · rcases h.names i hmem with hmem | hnew
      · exact .inr ⟨hmem, hwritten⟩
      · exact absurd hi (Nat.not_lt.mpr hnew)
  names i hi := by
    rcases h'.names i hi with hi | hi
    · exact h.names i hi
    · exact .inr (Nat.le_trans h.long hi)

theorem mono {written' : Bytes → Prop} (h : Touched written d d₁ root root₁)
    (hsub : ∀ content, written content → written' content) :
    Touched written' d d₁ root root₁ where
  long := h.long
  kept i hi := (h.kept i hi).imp_right fun ⟨hmem, inode, hinode, hcontent⟩ ↦
    ⟨hmem, inode, hinode, hsub _ hcontent⟩
  names := h.names

theorem of_edit {f : Option (Node Name) → Option (Option (Node Name))} {path : Path}
    (more : List (Inode Bytes)) (h : root.edit f path = some root₁)
    (hnew : ∀ m, root₁.find path = some m → ∀ i ∈ m.inodes, i ∈ root.inodes ∨ d.length ≤ i) :
    Touched written d (d ++ more) root root₁ where
  long := by simp
  kept i hi := .inl (List.getElem?_append_left hi)
  names i hi := by
    rcases Node.inodes_edit h hi with hi | ⟨m, hm, hi⟩
    · exact .inl hi
    · exact hnew m hm i hi

end Touched

namespace Op

def writes (content : Bytes) : Op → Prop
  | write _ content' _ => content' = content
  | _ => False

theorem run_touched {host : Host} {d : Disk Bytes} {root : Node Name} {op : Op}
    {r : Disk Bytes × Node Name} (h : op.run host d root = some r) :
    Touched op.writes d r.1 root r.2 := by
  cases op with
  | make path content =>
      obtain ⟨root', hedit, rfl⟩ := Option.map_eq_some_iff.mp h
      refine .of_edit _ hedit fun m hm i hi ↦ ?_
      have hfind := Node.find_edit hedit
      have hfile : m = .file d.length := by
        rw [hm] at hfind
        unfold replaceFile at hfind
        split at hfind
        · simp at hfind
        · exact (Option.some.inj (Option.some.inj hfind)).symm
      subst hfile
      exact .inr (Nat.le_of_eq (List.mem_singleton.mp hi).symm)
  | delete path =>
      obtain ⟨root', hedit, rfl⟩ := Option.map_eq_some_iff.mp h
      have hgone : root'.find path = none := by
        have hfind := Node.find_edit hedit
        obtain ⟨-, -, hnone⟩ := Option.map_eq_some_iff.mp hfind
        exact hnone.symm
      have htouched : Touched (delete path).writes d (d ++ []) root root' :=
        .of_edit [] hedit fun m hm ↦ by simp [hgone] at hm
      rwa [List.append_nil] at htouched
  | mkdir path =>
      obtain ⟨root', hedit, rfl⟩ := Option.map_eq_some_iff.mp h
      have htouched : Touched (mkdir path).writes d (d ++ []) root root' := by
        refine .of_edit [] hedit fun m hm i hi ↦ ?_
        have hfind := Node.find_edit hedit
        rw [hm] at hfind
        split at hfind
        · simp at hfind
        · obtain rfl := Option.some.inj (Option.some.inj hfind)
          simp [Node.inodesIn] at hi
      rwa [List.append_nil] at htouched
  | rename path target =>
      obtain ⟨n, hn, h⟩ := Option.bind_eq_some_iff.mp h
      obtain ⟨root₁, hdelete, h⟩ := Option.bind_eq_some_iff.mp h
      obtain ⟨root₂, hput, rfl⟩ := Option.map_eq_some_iff.mp h
      have hsub := Node.inodes_find hn
      have hgone : root₁.find path = none := by
        have hfind := Node.find_edit hdelete
        obtain ⟨-, -, hnone⟩ := Option.map_eq_some_iff.mp hfind
        exact hnone.symm
      refine ⟨Nat.le_refl _, fun _ _ ↦ .inl rfl, fun i hi ↦ ?_⟩
      rcases Node.inodes_edit hput hi with hi | ⟨m, hm, hi⟩
      · rcases Node.inodes_edit hdelete hi with hi | ⟨m, hm, -⟩
        · exact .inl hi
        · simp [hgone] at hm
      · have hfind := Node.find_edit hput
        rw [hm] at hfind
        obtain rfl := Option.some.inj (Option.some.inj hfind)
        exact .inl (hsub hi)
  | write path content mtime =>
      obtain ⟨i, hi, rfl⟩ := Option.map_eq_some_iff.mp h
      obtain ⟨n, hn, hinode⟩ := Option.bind_eq_some_iff.mp hi
      refine ⟨by simp [Disk.write], fun j hj ↦ ?_, fun _ hj ↦ .inl hj⟩
      by_cases hij : i = j
      · subst hij
        refine .inr ⟨Node.inodes_find hn (Node.inodes_of_inode? hinode), ?_⟩
        have hget : d[i]? = some d[i] := List.getElem?_eq_getElem hj
        exact ⟨{ d[i] with content, mtime }, by simp [Disk.write, hget], rfl⟩
      · exact .inl (by simp [Disk.write, hij])

theorem apply_touched (host : Host) (s : Disk Bytes × Node Name) (op : Op) :
    Touched op.writes s.1 (op.apply host s).1 s.2 (op.apply host s).2 := by
  unfold apply
  cases h : op.run host s.1 s.2 with
  | none => exact .refl
  | some r => exact run_touched h

theorem not_writes {op : Op} (h : op.OnNames) (content : Bytes) : ¬ op.writes content := by
  cases op <;> simp_all [OnNames, writes]

end Op

namespace Run

def writes (run : Run) (content : Bytes) : Prop := ∃ op ∈ run.suite, op.writes content

def OnNames (run : Run) : Prop := ∀ op ∈ run.suite, op.OnNames

theorem suite_touched (host : Host) (suite : List Op) (s : Disk Bytes × Node Name) :
    Touched (fun content ↦ ∃ op ∈ suite, op.writes content) s.1
      (suite.foldl (Op.apply host) s).1 s.2 (suite.foldl (Op.apply host) s).2 := by
  induction suite generalizing s with
  | nil => exact .refl
  | cons op suite ih =>
      have hop := (Op.apply_touched host s op).mono fun content h ↦
        (⟨op, List.mem_cons_self, h⟩ : ∃ op' ∈ op :: suite, op'.writes content)
      have hrest := (ih (op.apply host s)).mono fun content ⟨op', hmem, h⟩ ↦
        (⟨op', List.mem_cons_of_mem _ hmem, h⟩ : ∃ op' ∈ op :: suite, op'.writes content)
      exact hop.trans hrest

end Run

namespace MasterTree

variable {c : Config} {s s' : MasterTree} {box : Node Name}

/-- The master is the copy of the project, and the project is as it was. -/
structure Sound (c : Config) (s : MasterTree) : Prop where
  kept : c.project.Kept s.disk
  master : ∀ root, s.path = some root → c.project.Holds s.disk root
  staged : s.path.isSome → c.project.accepted

theorem sound_init (c : Config) : Sound c (init c) where
  kept := ⟨Nat.le_refl _, fun _ _ ↦ rfl⟩
  master _ h := by simp [init] at h
  staged h := by simp [init] at h

theorem kept_of_grows {project : Project} {d d' : Disk Bytes} (hd : project.Kept d)
    (h : d <+: d') : project.Kept d' where
  long := Nat.le_trans hd.long h.length_le
  same i hi := (block_of_grows h (Nat.lt_of_lt_of_le hi hd.long)).trans (hd.same i hi)

theorem holds_of_grows {project : Project} {d d' : Disk Bytes} {root : Node Name}
    (hd : project.Holds d root) (h : d <+: d') : project.Holds d' root where
  plain := hd.plain
  dir := hd.dir
  within := hd.within.mono h.length_le
  above := hd.above
  same p := (held_of_grows hd.within h p).trans (hd.same p)

theorem projected_ignored (project : Project) {p : Path} (h : p.any ignored) :
    project.projected p = none := by
  have hnone := copied_ignored project.disk project.tree h
  unfold Project.projected
  cases project.manifest with
  | none => exact hnone
  | some body =>
      dsimp only
      rw [if_neg, hnone]
      rintro rfl
      exact not_ignored_manifest h

/-- What is linked from a copy of the project is a copy of the project. -/
theorem linkTree_holds {project : Project} {d : Disk Bytes} {root : Node Name} (host : Host)
    (refuses : Path → Bool) (hd : project.Kept d) (h : project.Holds d root) :
    d <+: (linkTree host refuses root d).1.disk ∧
      project.Holds (linkTree host refuses root d).1.disk (linkTree host refuses root d).2 := by
  have hmade := linkTree_made host refuses hd.long h.dir h.plain h.within h.above
  refine ⟨hmade.grows, hmade.plain, rfl, hmade.within, hmade.above, fun p ↦ ?_⟩
  rw [hmade.same]
  by_cases hp : p.any ignored
  · rw [copied_ignored _ _ hp, projected_ignored _ hp]
  · rw [copied_of_plain _ h.plain hp, h.same]

theorem stage_sound (hs : c.project.Kept s.disk) (h : stage c s = some s') :
    Sound c s' ∧ s.disk <+: s'.disk ∧ ∃ root, s'.path = some root := by
  obtain ⟨r, hcopy, rfl⟩ := Option.map_eq_some_iff.mp h
  obtain ⟨hgrows, hholds⟩ := copyProject_holds hs hcopy
  have haccepted := copyProject_isSome c.host hs
  rw [hcopy] at haccepted
  refine ⟨⟨kept_of_grows hs hgrows, fun root hroot ↦ ?_, fun _ ↦ haccepted.symm⟩, hgrows, _, rfl⟩
  obtain rfl := Option.some.inj hroot
  exact hholds

theorem stage_isSome (hs : c.project.Kept s.disk) :
    (stage c s).isSome = c.project.accepted := by
  rw [stage, Option.isSome_map]
  exact copyProject_isSome c.host hs

/-- The master that a call links from: the one there is, or a new one. -/
def ready (c : Config) (s : MasterTree) : Option MasterTree :=
  if s.path.isSome then some s else stage c s

theorem ready_sound (hs : Sound c s) (h : ready c s = some s') :
    Sound c s' ∧ s.disk <+: s'.disk ∧ (∃ root, s'.path = some root) ∧
      ∀ root, s.path = some root → s' = s := by
  unfold ready at h
  split at h
  · rename_i hsome
    obtain rfl := Option.some.inj h
    exact ⟨hs, List.prefix_rfl, Option.isSome_iff_exists.mp hsome, fun _ _ ↦ rfl⟩
  · rename_i hnone
    obtain ⟨hsound, hgrows, hroot⟩ := stage_sound hs.kept h
    refine ⟨hsound, hgrows, hroot, fun root hpath ↦ ?_⟩
    rw [hpath] at hnone
    exact absurd rfl hnone

theorem ready_isSome (hs : Sound c s) : (ready c s).isSome = c.project.accepted := by
  unfold ready
  split
  · rename_i hsome
    exact (hs.staged hsome).symm
  · exact stage_isSome hs.kept

/-- A call makes a sandbox that holds the project, and changes no inode. -/
theorem call_sound {refuses : Path → Bool} (hs : Sound c s)
    (h : call c refuses s = some (s', box)) :
    Sound c s' ∧ s.disk <+: s'.disk ∧ c.project.Holds s'.disk box ∧
      ∃ s₁, ready c s = some s₁ ∧ s'.path = s₁.path ∧ s'.deep = s₁.deep := by
  obtain ⟨s₁, hready, h⟩ := Option.bind_eq_some_iff.mp h
  obtain ⟨master, hmaster, hr⟩ := Option.map_eq_some_iff.mp h
  obtain ⟨rfl, rfl⟩ := Prod.mk.inj hr
  obtain ⟨hsound, hgrows, -, -⟩ := ready_sound hs hready
  obtain ⟨hlinked, hholds⟩ :=
    linkTree_holds c.host refuses hsound.kept (hsound.master master hmaster)
  refine ⟨⟨kept_of_grows hsound.kept hlinked, fun root hroot ↦ ?_, hsound.staged⟩,
    hgrows.trans hlinked, hholds, s₁, hready, rfl, rfl⟩
  exact holds_of_grows (hsound.master root hroot) hlinked

theorem call_isSome (refuses : Path → Bool) (hs : Sound c s) :
    (call c refuses s).isSome = c.project.accepted := by
  rw [← ready_isSome hs]
  change ((ready c s).bind _).isSome = _
  cases hready : ready c s with
  | none => rfl
  | some s₁ =>
      obtain ⟨-, -, ⟨root, hroot⟩, -⟩ := ready_sound hs hready
      rw [Option.bind_some, Option.isSome_map, hroot]
      rfl

/-- What a suite finds in the sandbox that is made for it. -/
def heldAt (r : Option (MasterTree × Node Name)) (p : Path) : Option (Held Name Bytes) :=
  r.bind fun r ↦ r.1.disk.held r.2 p

theorem byteCopy_holds (hs : c.project.Kept s.disk) (h : byteCopy c s = some (s', box)) :
    c.project.Holds s'.disk box := by
  obtain ⟨r, hcopy, hr⟩ := Option.map_eq_some_iff.mp h
  obtain ⟨rfl, rfl⟩ := Prod.mk.inj hr
  exact (copyProject_holds hs hcopy).2

theorem byteCopy_isSome (hs : c.project.Kept s.disk) :
    (byteCopy c s).isSome = c.project.accepted := by
  rw [byteCopy, Option.isSome_map]
  exact copyProject_isSome c.host hs

theorem heldAt_of_holds {r : Option (MasterTree × Node Name)}
    (hsome : r.isSome = c.project.accepted)
    (h : ∀ s' box, r = some (s', box) → c.project.Holds s'.disk box) (p : Path) :
    heldAt r p = if c.project.accepted then c.project.projected p else none := by
  rw [← hsome]
  cases r with
  | none => rfl
  | some r => exact (h r.1 r.2 rfl).same p

theorem heldAt_call {refuses : Path → Bool} (hs : Sound c s) (p : Path) :
    heldAt (call c refuses s) p = heldAt (byteCopy c (init c)) p := by
  have hinit := (sound_init c).kept
  rw [heldAt_of_holds (call_isSome refuses hs) fun _ _ h ↦ (call_sound hs h).2.2.1,
    heldAt_of_holds (byteCopy_isSome hinit) fun _ _ h ↦ byteCopy_holds hinit h]

/-- A mutant is written alike into two copies of the project. -/
theorem heldAt_writeMutant {m : Mutant} {s₁ s₂ : MasterTree} {box₁ box₂ : Node Name}
    (h₁ : c.project.Holds s₁.disk box₁) (h₂ : c.project.Holds s₂.disk box₂) (p : Path) :
    heldAt ((writeMutant c.host m s₁.disk box₁).map fun w ↦ ({ s₁ with disk := w.1 }, w.2)) p =
      heldAt ((writeMutant c.host m s₂.disk box₂).map fun w ↦
        ({ s₂ with disk := w.1 }, w.2)) p := by
  have hsome : (writeMutant c.host m s₁.disk box₁).isSome ↔
      (writeMutant c.host m s₂.disk box₂).isSome := by
    rw [writeMutant_isSome h₁.plain, writeMutant_isSome h₂.plain, h₁.same, h₁.same, h₂.same,
      h₂.same]
  cases hw₁ : writeMutant c.host m s₁.disk box₁ with
  | none =>
      cases hw₂ : writeMutant c.host m s₂.disk box₂ with
      | none => rfl
      | some w => simp [hw₁, hw₂] at hsome
  | some w₁ =>
      cases hw₂ : writeMutant c.host m s₂.disk box₂ with
      | none => simp [hw₁, hw₂] at hsome
      | some w₂ =>
          have hwrote₁ := writeMutant_wrote h₁.plain h₁.within hw₁
          have hwrote₂ := writeMutant_wrote h₂.plain h₂.within hw₂
          change w₁.1.held w₁.2 p = w₂.1.held w₂.2 p
          by_cases hp : p = m.path
          · rw [hp, hwrote₁.self, hwrote₂.self]
          · rw [hwrote₁.beside p hp, hwrote₂.beside p hp, h₁.same, h₂.same]

theorem heldAt_started {refuses : Path → Bool} {m : Mutant} (hs : Sound c s) (p : Path) :
    heldAt (started c (call c refuses) m s) p = heldAt (started c (byteCopy c) m (init c)) p := by
  have hinit := (sound_init c).kept
  have hsome := (call_isSome refuses hs).trans (byteCopy_isSome hinit).symm
  unfold started
  cases hcall : call c refuses s with
  | none =>
      rw [hcall] at hsome
      have hnone : byteCopy c (init c) = none := by
        rw [← Option.not_isSome_iff_eq_none, ← hsome]
        simp
      rw [hnone]
  | some r₁ =>
      cases hbyte : byteCopy c (init c) with
      | none => simp [hcall, hbyte] at hsome
      | some r₂ =>
          exact heldAt_writeMutant (call_sound hs hcall).2.2.1 (byteCopy_holds hinit hbyte) p

end MasterTree

end NucLlm.Swe.LinkCopy
