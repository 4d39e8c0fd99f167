import NucLlm.Swe.LinkCopy

/-!
# Linked sandboxes hold the project

A copy and a linked tree hold what the project holds, less the ignored names.  A suite
that works on names leaves the inodes of the master alone, and a write in place that
reaches them is seen by the deep witness.
-/

namespace NucLlm.Swe.LinkCopy

open NucLlm.Inodes

/-- What a copy of a tree holds at a path. -/
def copied (d : Disk Bytes) : Node Name → Path → Option (Held Name Bytes)
  | n, [] => d.look n.resolve
  | n, name :: rest =>
    if ignored name then none else (n.child name).bind fun m ↦ copied d m rest

theorem copied_congr {d d' : Disk Bytes} {n : Node Name}
    (h : ∀ i ∈ n.inodes, d'[i]? = d[i]?) (p : Path) : copied d' n p = copied d n p := by
  induction p generalizing n with
  | nil =>
      rw [← Node.inodes_resolve] at h
      unfold copied
      cases hn : n.resolve with
      | file i =>
          rw [hn] at h
          simp [Disk.look, h i (by simp)]
      | dangling target => rfl
      | symlink target m => rfl
      | dir es => rfl
  | cons name rest ih =>
      unfold copied
      cases hm : n.child name with
      | none => rfl
      | some m =>
          simp [ih fun i hi ↦ h i (Node.inodes_child hm hi)]

theorem copied_ignored (d : Disk Bytes) (n : Node Name) {p : Path} (h : p.any ignored) :
    copied d n p = none := by
  induction p generalizing n with
  | nil => simp at h
  | cons name rest ih =>
      rw [List.any_cons, Bool.or_eq_true] at h
      unfold copied
      split
      · rfl
      · rename_i hname
        have hrest := h.resolve_left hname
        cases n.child name with
        | none => rfl
        | some m => exact ih m hrest

/-- In a tree without links, a copy is a filter of the paths. -/
theorem copied_of_plain (d : Disk Bytes) {n : Node Name} (hn : n.Plain) {p : Path}
    (h : ¬ p.any ignored) : copied d n p = d.held n p := by
  induction p generalizing n with
  | nil =>
      rw [copied, Node.resolve_of_plain hn]
      rfl
  | cons name rest ih =>
      rw [List.any_cons, Bool.or_eq_true, not_or] at h
      rw [copied, if_neg h.1, Disk.held, Node.find_cons]
      cases hm : n.child name with
      | none => rfl
      | some m => exact ih (Node.plain_child hn hm) h.2

/-- A tree that was made of another: new inodes, no links, the same contents. -/
structure Made (base : ℕ) (d d' : Disk Bytes) (n n' : Node Name) : Prop where
  grows : d <+: d'
  plain : n'.Plain
  within : Within d' n'
  above : ∀ i ∈ n'.inodes, base ≤ i
  same : ∀ p, d'.held n' p = copied d n p

theorem within_cons {d : Disk Bytes} {name : Name} {n : Node Name} {es : List (Name × Node Name)} :
    Within d (.dir ((name, n) :: es)) ↔ Within d n ∧ Within d (.dir es) := by
  simp [Within, or_imp, forall_and]

namespace Made

variable {base : ℕ} {d d₁ d₂ : Disk Bytes} {name : Name} {n m : Node Name}
  {es ms : List (Name × Node Name)}

theorem nil : Made base d d (.dir []) (.dir []) where
  grows := List.prefix_rfl
  plain := trivial
  within := by simp [Within, Node.inodesIn]
  above := by simp [Node.inodesIn]
  same p := by
    cases p with
    | nil => rfl
    | cons name rest => simp [Disk.held, copied, Node.child_nil]

theorem skip (h : Made base d d₁ (.dir es) (.dir ms)) (hname : ignored name) :
    Made base d d₁ (.dir ((name, n) :: es)) (.dir ms) where
  grows := h.grows
  plain := h.plain
  within := h.within
  above := h.above
  same p := by
    rw [h.same]
    cases p with
    | nil => rfl
    | cons other rest =>
        by_cases hother : other = name
        · subst hother
          simp [copied, hname]
        · simp only [copied, Node.child_cons_ne n es hother]

theorem cons (hn : Made base d d₁ n m) (hes : Made base d₁ d₂ (.dir es) (.dir ms))
    (hwithin : Within d (.dir es)) (hname : ¬ ignored name) :
    Made base d d₂ (.dir ((name, n) :: es)) (.dir ((name, m) :: ms)) where
  grows := hn.grows.trans hes.grows
  plain := ⟨hn.plain, hes.plain⟩
  within := within_cons.mpr ⟨hn.within.mono hes.grows.length_le, hes.within⟩
  above i hi := by
    rcases List.mem_append.mp hi with hi | hi
    · exact hn.above i hi
    · exact hes.above i hi
  same p := by
    cases p with
    | nil => rfl
    | cons other rest =>
        by_cases hother : other = name
        · subst hother
          have hheld := held_of_grows hn.within hes.grows rest
          rw [hn.same] at hheld
          simpa [Disk.held, copied, Node.child_cons_self, hname] using hheld
        · have hrest := hes.same (other :: rest)
          rw [copied_congr fun i hi ↦ block_of_grows hn.grows (hwithin i hi)] at hrest
          simpa [Disk.held, copied, Node.child_cons_ne _ _ hother] using hrest

end Made

theorem copy2_made {host : Host} {d d' : Disk Bytes} {i j base : ℕ} (hbase : base ≤ d.length)
    (h : copy2 host d i = some (d', j)) : Made base d d' (.file i) (.file j) := by
  obtain ⟨inode, hi, hr⟩ := Option.map_eq_some_iff.mp h
  obtain ⟨rfl, rfl⟩ := Prod.mk.inj hr
  exact
    { grows := List.prefix_append _ _
      plain := trivial
      within := by simp [Within]
      above := by simpa using hbase
      same := fun p ↦ by
        cases p with
        | nil => simp [Disk.held, copied, Disk.look, Node.resolve, hi]
        | cons name rest => simp [Disk.held, copied, Node.child_file] }

mutual

/-- The byte copier makes the tree of new inodes. -/
theorem copyNode_made {host : Host} {base : ℕ} (n : Node Name) {n' : Node Name}
    {d d' : Disk Bytes} (hbase : base ≤ d.length) (hn : Within d n)
    (h : copyNode host n d = some (d', n')) : Made base d d' n n' := by
  cases n with
  | file i =>
      obtain ⟨⟨d₁, j⟩, hcopy, hr⟩ := Option.map_eq_some_iff.mp h
      obtain ⟨rfl, rfl⟩ := Prod.mk.inj hr
      exact copy2_made hbase hcopy
  | dangling target => simp [copyNode] at h
  | symlink target m =>
      have hm := copyNode_made m hbase hn h
      exact { hm with same := fun p ↦ by rw [hm.same]; cases p <;> rfl }
  | dir es =>
      obtain ⟨⟨d₁, ms⟩, hcopy, hr⟩ := Option.map_eq_some_iff.mp h
      obtain ⟨rfl, rfl⟩ := Prod.mk.inj hr
      exact copyEntries_made es hbase hn hcopy

theorem copyEntries_made {host : Host} {base : ℕ} (es : List (Name × Node Name))
    {es' : List (Name × Node Name)} {d d' : Disk Bytes} (hbase : base ≤ d.length)
    (hes : Within d (.dir es)) (h : copyEntries host es d = some (d', es')) :
    Made base d d' (.dir es) (.dir es') := by
  cases es with
  | nil =>
      obtain ⟨rfl, rfl⟩ := Prod.mk.inj (Option.some.inj h)
      exact .nil
  | cons e es =>
      obtain ⟨name, n⟩ := e
      obtain ⟨hn, hes⟩ := within_cons.mp hes
      rw [copyEntries] at h
      split at h
      · rename_i hname
        exact (copyEntries_made es hbase hes h).skip hname
      · rename_i hname
        obtain ⟨⟨d₁, m⟩, hm, h⟩ := Option.bind_eq_some_iff.mp h
        obtain ⟨⟨d₂, ms⟩, hms, hr⟩ := Option.map_eq_some_iff.mp h
        obtain ⟨rfl, rfl⟩ := Prod.mk.inj hr
        have hmade := copyNode_made n hbase hn hm
        have hlong := hmade.grows.length_le
        have hrest := copyEntries_made es (Nat.le_trans hbase hlong) (hes.mono hlong) hms
        exact hmade.cons hrest hes hname

end

theorem linkFile_made {host : Host} {base i : ℕ} {st : Linking} (refused : Bool)
    (hbase : base ≤ st.disk.length) (hi : i < st.disk.length) (habove : base ≤ i) :
    ∃ m, (linkFile host refused i st).2 = some m ∧
      Made base st.disk (linkFile host refused i st).1.disk (.file i) m := by
  cases refused with
  | true =>
      have hcopy : copy2 host st.disk i = some (st.disk ++
          [{ st.disk[i] with number := host.number st.disk.length }], st.disk.length) := by
        simp [copy2, hi]
      refine ⟨.file st.disk.length, ?_, ?_⟩
      · simp [linkFile, hcopy]
      · simpa [linkFile, hcopy] using copy2_made hbase hcopy
  | false =>
      refine ⟨.file i, rfl, ?_⟩
      exact
        { grows := List.prefix_rfl
          plain := trivial
          within := by simpa [Within, linkFile] using hi
          above := by simpa using habove
          same := fun p ↦ by
            cases p with
            | nil => rfl
            | cons name rest => simp [Disk.held, copied, Node.child_file] }

mutual

/-- The linked tree shares inodes with the tree it is made of, or has new ones. -/
theorem linkNode_made (host : Host) (refuses : Path → Bool) {base : ℕ} (path : Path)
    (n : Node Name) (st : Linking) (hbase : base ≤ st.disk.length) (hplain : n.Plain)
    (hn : Within st.disk n) (habove : ∀ i ∈ n.inodes, base ≤ i) :
    ∃ m, (linkNode host refuses path n st).2 = some m ∧
      Made base st.disk (linkNode host refuses path n st).1.disk n m := by
  cases n with
  | file i => exact linkFile_made _ hbase (hn i (by simp)) (habove i (by simp))
  | dangling target => exact hplain.elim
  | symlink target n => exact hplain.elim
  | dir es =>
      refine ⟨_, rfl, ?_⟩
      exact linkEntries_made host refuses path es
        ⟨st.disk, { st.stats with dirs := st.stats.dirs + 1 }⟩ hbase hplain hn habove

theorem linkEntries_made (host : Host) (refuses : Path → Bool) {base : ℕ} (path : Path)
    (es : List (Name × Node Name)) (st : Linking) (hbase : base ≤ st.disk.length)
    (hplain : Node.PlainIn es) (hes : Within st.disk (.dir es))
    (habove : ∀ i ∈ Node.inodesIn es, base ≤ i) :
    Made base st.disk (linkEntries host refuses path es st).1.disk (.dir es)
      (.dir (linkEntries host refuses path es st).2) := by
  cases es with
  | nil => exact .nil
  | cons e es =>
      obtain ⟨name, n⟩ := e
      obtain ⟨hn, hes⟩ := within_cons.mp hes
      have haboven : ∀ i ∈ n.inodes, base ≤ i := fun i hi ↦ habove i (List.mem_append_left _ hi)
      have haboves : ∀ i ∈ Node.inodesIn es, base ≤ i :=
        fun i hi ↦ habove i (List.mem_append_right _ hi)
      rw [linkEntries]
      split
      · rename_i hname
        exact (linkEntries_made host refuses path es st hbase hplain.2 hes haboves).skip hname
      · rename_i hname
        obtain ⟨m, hm, hmade⟩ :=
          linkNode_made host refuses (path ++ [name]) n st hbase hplain.1 hn haboven
        have hlong := hmade.grows.length_le
        have hrest := linkEntries_made host refuses path es _ (Nat.le_trans hbase hlong)
          hplain.2 (hes.mono hlong) haboves
        simp only [hm]
        exact hmade.cons hrest hes hname

end

theorem linkTree_made (host : Host) (refuses : Path → Bool) {base : ℕ} {d : Disk Bytes}
    {n : Node Name} (hbase : base ≤ d.length) (hdir : n.isDir) (hplain : n.Plain)
    (hn : Within d n) (habove : ∀ i ∈ n.inodes, base ≤ i) :
    Made base d (linkTree host refuses n d).1.disk n (linkTree host refuses n d).2 := by
  cases n with
  | file i => simp [Node.isDir, Node.resolve] at hdir
  | dangling target => exact hplain.elim
  | symlink target n => exact hplain.elim
  | dir es => exact linkEntries_made host refuses [] es ⟨d, ⟨1, 0, 0, 0⟩⟩ hbase hplain hn habove

/-! ## What the copier accepts -/

mutual

/-- No link that leads nowhere is copied. -/
def copyable : Node Name → Bool
  | .file _ => true
  | .dangling _ => false
  | .symlink _ n => copyable n
  | .dir es => copyableIn es

def copyableIn : List (Name × Node Name) → Bool
  | [] => true
  | (name, n) :: es => (ignored name || copyable n) && copyableIn es

end

mutual

theorem copyNode_isSome (host : Host) (n : Node Name) {d : Disk Bytes} (hn : Within d n) :
    (copyNode host n d).isSome = copyable n := by
  cases n with
  | file i =>
      have hi := hn i (by simp)
      simp [copyNode, copy2, copyable, hi]
  | dangling target => rfl
  | symlink target n => exact copyNode_isSome host n hn
  | dir es =>
      rw [copyNode, Option.isSome_map]
      exact copyEntries_isSome host es hn

theorem copyEntries_isSome (host : Host) (es : List (Name × Node Name)) {d : Disk Bytes}
    (hes : Within d (.dir es)) : (copyEntries host es d).isSome = copyableIn es := by
  cases es with
  | nil => rfl
  | cons e es =>
      obtain ⟨name, n⟩ := e
      obtain ⟨hn, hes⟩ := within_cons.mp hes
      rw [copyEntries, copyableIn]
      split
      · rename_i hname
        rw [hname, copyEntries_isSome host es hes]
        rfl
      · rename_i hname
        have hhead := copyNode_isSome host n hn
        rw [eq_false_of_ne_true hname, Bool.false_or, ← hhead]
        cases hm : copyNode host n d with
        | none => rfl
        | some r =>
            have hmade := copyNode_made n (Nat.le_refl _) hn hm
            have hrest := copyEntries_isSome host es (hes.mono hmade.grows.length_le)
            simpa using hrest

end

end NucLlm.Swe.LinkCopy
