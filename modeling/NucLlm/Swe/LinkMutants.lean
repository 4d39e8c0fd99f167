import NucLlm.Swe.LinkSound

/-!
# The copy of the project, and the mutant in it

The byte copier makes a tree that holds the project, with the manifest of its examples.
A mutant is a new file under its name, and nothing beside it changes.
-/

namespace NucLlm.Swe.LinkCopy

open NucLlm.Inodes

namespace Project

/-- The text of the manifest that a copy of the project gets. -/
def manifest (project : Project) : Option Bytes :=
  if copied project.disk project.tree [examples] = some .directory ∧
      copied project.disk project.tree [examples, curationManifest] = none then
    project.exampleNames.map fun names ↦ encode (curationBody project names)
  else none

/-- What a copy of the project holds. -/
def projected (project : Project) (p : Path) : Option (Held Name Bytes) :=
  match project.manifest with
  | none => copied project.disk project.tree p
  | some body =>
    if p = [examples, curationManifest] then some (.file body)
    else copied project.disk project.tree p

/-- The tree is a copy of the project, in inodes of its own. -/
structure Holds (project : Project) (d : Disk Bytes) (root : Node Name) : Prop where
  plain : root.Plain
  dir : root.isDir
  within : Within d root
  above : ∀ i ∈ root.inodes, project.disk.length ≤ i
  same : ∀ p, d.held root p = project.projected p

def accepted (project : Project) : Bool := project.tree.isDir && copyable project.tree

/-- The inodes of the project are as they were. -/
structure Kept (project : Project) (d : Disk Bytes) : Prop where
  long : project.disk.length ≤ d.length
  same : ∀ i < project.disk.length, d[i]? = project.disk[i]?

end Project

theorem isDir_iff {n : Node Name} (hn : n.Plain) : n.isDir ↔ ∃ es, n = .dir es := by
  unfold Node.isDir
  rw [Node.resolve_of_plain hn]
  cases n <;> simp

theorem not_ignored_manifest : ¬ ([examples, curationManifest] : Path).any ignored := by
  decide

theorem copied_dir {d : Disk Bytes} {n : Node Name} (h : n.isDir) :
    copied d n [] = some .directory := by
  unfold Node.isDir at h
  rw [copied]
  split at h
  · rename_i es heq
    rw [heq]
    rfl
  · simp at h

section

variable {host : Host} {project : Project} {d d' : Disk Bytes} {root : Node Name}

theorem copied_kept (hd : project.Kept d) (p : Path) :
    copied d project.tree p = copied project.disk project.tree p :=
  copied_congr (fun i hi ↦ hd.same i (project.within i hi)) p

/-- The directory of the examples and its manifest, as the writer of the manifest looks them up. -/
theorem examples_iff (hplain : root.Plain) (d : Disk Bytes) :
    (root.find [examples]).any Node.isDir ↔ d.held root [examples] = some .directory := by
  rw [held_eq_directory]
  cases hn : root.find [examples] with
  | none => simp
  | some n =>
      have hchild : n.Plain := by
        rw [Node.find_cons] at hn
        obtain ⟨m, hm, hmn⟩ := Option.bind_eq_some_iff.mp hn
        rw [Node.find_nil] at hmn
        exact Option.some.inj hmn ▸ Node.plain_child hplain hm
      simpa using isDir_iff hchild

theorem openWrite_new {path : Path} {content : Bytes} (mtime : ℕ) (hplain : root.Plain)
    (hn : Within d root) (hnone : root.find path = none) {r : Disk Bytes × Node Name}
    (h : openWrite host mtime path content d root = some r) :
    Wrote d r.1 root r.2 path content := by
  rw [openWrite, hnone] at h
  obtain ⟨root', hedit, rfl⟩ := Option.map_eq_some_iff.mp h
  refine wrote_of_edit hplain hn (fun name rest ↦ ?_) (newInode host d content) hedit ?_
  · rw [Node.find_append, hnone]
    rfl
  · have hself := Node.find_edit hedit
    exact (Option.some.inj hself).symm

theorem openWrite_isSome (path : Path) (content : Bytes) (mtime : ℕ) (hplain : root.Plain)
    (hnone : root.find path = none) :
    (openWrite host mtime path content d root).isSome ↔
      path ≠ [] ∧ d.held root path.dropLast = some .directory := by
  rw [openWrite, hnone, held_eq_directory]
  dsimp only
  rw [Option.isSome_map, Node.edit_isSome hplain]
  simp

theorem writeExampleCuration_cases (host : Host) (hplain : root.Plain) (hn : Within d root)
    (hsame : ∀ p, d.held root p = copied project.disk project.tree p) :
    (project.manifest = none ∧ writeExampleCuration host project d root = some (d, root)) ∨
      ∃ body, project.manifest = some body ∧ root.find [examples, curationManifest] = none ∧
        writeExampleCuration host project d root =
          openWrite host (host.clock d.length) [examples, curationManifest] body d root := by
  have hdir := (examples_iff hplain d).trans (by rw [hsame])
  have hfile := (held_isSome hn (p := [examples, curationManifest])).symm
  rw [hsame] at hfile
  unfold writeExampleCuration Project.manifest
  by_cases hexamples : copied project.disk project.tree [examples] = some .directory
  · rw [if_pos (hdir.mpr hexamples)]
    by_cases hthere : (copied project.disk project.tree [examples, curationManifest]).isSome
    · rw [if_pos (hfile.mpr hthere), if_neg]
      · exact .inl ⟨rfl, rfl⟩
      · rintro ⟨-, hnone⟩
        simp [hnone] at hthere
    · have hnone := Option.not_isSome_iff_eq_none.mp hthere
      rw [if_neg (hfile.not.mpr hthere), if_pos ⟨hexamples, hnone⟩]
      cases project.exampleNames with
      | none => exact .inl ⟨rfl, rfl⟩
      | some names =>
          exact .inr ⟨_, rfl, Option.not_isSome_iff_eq_none.mp (hfile.not.mpr hthere), rfl⟩
  · rw [if_neg (hdir.not.mpr hexamples), if_neg fun h ↦ hexamples h.1]
    exact .inl ⟨rfl, rfl⟩

theorem copytree_made (hd : project.Kept d) {r : Disk Bytes × Node Name}
    (h : copytree host project.tree d = some r) :
    project.tree.isDir ∧ Made project.disk.length d r.1 project.tree r.2 := by
  unfold copytree at h
  split at h
  · rename_i hdir
    exact ⟨hdir, copyNode_made _ hd.long (project.within.mono hd.long) h⟩
  · simp at h

theorem copyProject_holds (hd : project.Kept d) {r : Disk Bytes × Node Name}
    (h : copyProject host project d = some r) : d <+: r.1 ∧ project.Holds r.1 r.2 := by
  obtain ⟨⟨d₁, root⟩, htree, h⟩ := Option.bind_eq_some_iff.mp h
  obtain ⟨hdir, hmade⟩ := copytree_made hd htree
  have hsame : ∀ p, d₁.held root p = copied project.disk project.tree p :=
    fun p ↦ (hmade.same p).trans (copied_kept hd p)
  have hroot : root.isDir := by
    rw [isDir_iff hmade.plain]
    have hnil := hsame []
    rw [copied_dir hdir] at hnil
    obtain ⟨es, hes⟩ := held_eq_directory.mp hnil
    exact ⟨es, Option.some.inj hes⟩
  rcases writeExampleCuration_cases host hmade.plain hmade.within hsame with
    ⟨hnone, hwrite⟩ | ⟨body, hbody, hthere, hwrite⟩
  · rw [hwrite] at h
    obtain rfl := Option.some.inj h
    refine ⟨hmade.grows, hmade.plain, hroot, hmade.within, hmade.above, fun p ↦ ?_⟩
    rw [hsame, Project.projected, hnone]
  · rw [hwrite] at h
    have hwrote := openWrite_new _ hmade.plain hmade.within hthere h
    refine ⟨hmade.grows.trans hwrote.grows, hwrote.plain, ?_, hwrote.within, ?_, fun p ↦ ?_⟩
    · rw [isDir_iff hwrote.plain]
      have hnil := (hwrote.beside [] (by simp)).trans (hsame [])
      rw [copied_dir hdir] at hnil
      obtain ⟨es, hes⟩ := held_eq_directory.mp hnil
      exact ⟨es, Option.some.inj hes⟩
    · intro i hi
      rcases hwrote.names i hi with hi | hi
      · exact hmade.above i hi
      · exact Nat.le_trans (Nat.le_trans hd.long hmade.grows.length_le) hi
    · rw [Project.projected, hbody]
      dsimp only
      split
      · rename_i hp
        rw [hp, hwrote.self]
      · rename_i hp
        rw [hwrote.beside p hp, hsame]

/-- The byte copier accepts the project on any disk that has it, or on none. -/
theorem copyProject_isSome (host : Host) (hd : project.Kept d) :
    (copyProject host project d).isSome = project.accepted := by
  have htree : (copytree host project.tree d).isSome = project.accepted := by
    unfold copytree Project.accepted
    cases project.tree.isDir with
    | false => rfl
    | true =>
        rw [if_pos rfl, Bool.true_and]
        exact copyNode_isSome host _ (project.within.mono hd.long)
  rw [← htree, copyProject]
  cases h : copytree host project.tree d with
  | none => rfl
  | some r =>
      obtain ⟨hdir, hmade⟩ := copytree_made hd h
      have hsame : ∀ p, r.1.held r.2 p = copied project.disk project.tree p :=
        fun p ↦ (hmade.same p).trans (copied_kept hd p)
      rw [Option.bind_some, Option.isSome_some]
      rcases writeExampleCuration_cases host hmade.plain hmade.within hsame with
        ⟨-, hwrite⟩ | ⟨body, hbody, hthere, hwrite⟩
      · rw [hwrite]
        rfl
      · rw [hwrite, openWrite_isSome _ _ _ hmade.plain hthere]
        refine ⟨by simp, ?_⟩
        rw [hsame]
        unfold Project.manifest at hbody
        split at hbody
        · rename_i hneeds
          exact hneeds.1
        · simp at hbody

theorem plain_find {p : Path} {n : Node Name} (hplain : root.Plain) (h : root.find p = some n) :
    n.Plain := by
  induction p generalizing root with
  | nil =>
      rw [Node.find_nil] at h
      exact Option.some.inj h ▸ hplain
  | cons name rest ih =>
      rw [Node.find_cons] at h
      obtain ⟨m, hm, h⟩ := Option.bind_eq_some_iff.mp h
      exact ih (Node.plain_child hplain hm) h

/-- In a tree without links, only the name of a file is unlinked. -/
theorem unlink_cases {path : Path} {root' : Node Name} (hplain : root.Plain)
    (h : unlink path root = some root') :
    root'.find path = none ∧ ∃ i, root.find path = some (.file i) := by
  have hfind := Node.find_edit h
  cases hn : root.find path with
  | none => simp [hn] at hfind
  | some n =>
      rw [hn] at hfind
      cases n with
      | file i => exact ⟨(Option.some.inj hfind).symm, i, rfl⟩
      | dangling target => exact (plain_find hplain hn).elim
      | symlink target n => exact (plain_find hplain hn).elim
      | dir es => simp at hfind

theorem writeMutant_wrote {m : Mutant} (hplain : root.Plain) (hn : Within d root)
    {r : Disk Bytes × Node Name} (h : writeMutant host m d root = some r) :
    Wrote d r.1 root r.2 m.path m.source := by
  obtain ⟨root', hunlink, h⟩ := Option.bind_eq_some_iff.mp h
  split at hunlink
  · obtain ⟨hnone, i, hi⟩ := unlink_cases hplain hunlink
    have hinodes : ∀ j ∈ root'.inodes, j ∈ root.inodes := by
      intro j hj
      rcases Node.inodes_edit hunlink hj with hj | ⟨n, hsome, -⟩
      · exact hj
      · simp [hnone] at hsome
    have hplain' : root'.Plain := by
      refine Node.plain_edit hplain hunlink fun n hsome ↦ ?_
      simp [hnone] at hsome
    have hwrote := openWrite_new _ hplain' (fun j hj ↦ hn j (hinodes j hj)) hnone h
    refine { hwrote with names := fun j hj ↦ ?_, beside := fun p hp ↦ ?_ }
    · exact (hwrote.names j hj).imp_left (hinodes j)
    · rw [hwrote.beside p hp]
      by_cases hpre : m.path <+: p
      · obtain ⟨more, rfl⟩ := hpre
        cases more with
        | nil => simp at hp
        | cons name rest =>
            unfold Disk.held
            rw [Node.find_append, Node.find_append, hnone, hi]
            simp [Node.child_file]
      · exact held_edit d hunlink hpre
  · rename_i hnone
    obtain rfl := Option.some.inj hunlink
    exact openWrite_new _ hplain hn (Option.not_isSome_iff_eq_none.mp hnone) h

theorem writeMutant_isSome {m : Mutant} (hplain : root.Plain) :
    (writeMutant host m d root).isSome ↔
      m.path ≠ [] ∧ d.held root m.path.dropLast = some .directory ∧
        d.held root m.path ≠ some .directory := by
  unfold writeMutant
  cases hn : root.find m.path with
  | none =>
      have hheld : d.held root m.path = none := by rw [Disk.held, hn, Option.bind_none]
      rw [Option.isSome_none, if_neg Bool.false_ne_true, Option.bind_some,
        openWrite_isSome _ _ _ hplain hn, hheld]
      simp
  | some n =>
      rw [Option.isSome_some, if_pos rfl]
      have hunlink : (unlink m.path root).isSome ↔ _ := Node.edit_isSome hplain
      rw [← held_eq_directory (d := d), hn] at hunlink
      cases hr : unlink m.path root with
      | none =>
          rw [hr] at hunlink
          have hfile := hunlink.mpr.mt (by simp)
          constructor
          · simp
          · rintro ⟨hne, hdir, hself⟩
            refine absurd ⟨hne, hdir, ?_⟩ hfile
            rw [Ne, held_eq_directory, hn] at hself
            cases n with
            | file i => rfl
            | dangling target => rfl
            | symlink target n => rfl
            | dir es => exact absurd ⟨es, rfl⟩ hself
      | some root' =>
          obtain ⟨hnone, i, hi⟩ := unlink_cases hplain hr
          have hplain' : root'.Plain := by
            refine Node.plain_edit hplain hr fun n hsome ↦ ?_
            simp [hnone] at hsome
          have hdir := (hunlink.mp (by rw [hr]; rfl))
          have hself : d.held root m.path ≠ some .directory := by
            rw [Ne, held_eq_directory, hi]
            simp
          have hshort : ¬ m.path <+: m.path.dropLast := by
            intro hpre
            have hlength := hpre.length_le
            have hpos := List.length_pos_iff.mpr hdir.1
            rw [List.length_dropLast] at hlength
            omega
          rw [Option.bind_some, openWrite_isSome _ _ _ hplain' hnone, held_edit d hr hshort]
          exact ⟨fun h ↦ ⟨h.1, h.2, hself⟩, fun h ↦ ⟨h.1, h.2.1⟩⟩

end

end NucLlm.Swe.LinkCopy
