import Mathlib.Data.List.Basic

/-!
# Names and inodes

A tree of names that stand for inodes.  Two names may stand for one inode, and a
write in place through the one is seen through the other.  Making a name,
replacing it and dropping it change the tree of the name only.
-/

namespace NucLlm.Inodes

variable {ν α : Type}

/-- What a name stands for.  A symbolic link is kept with what its target leads to. -/
inductive Node (ν : Type) where
  | file (inode : ℕ)
  | dangling (target : ν)
  | symlink (target : ν) (leads : Node ν)
  | dir (entries : List (ν × Node ν))

structure Inode (α : Type) where
  number : ℕ
  mtime : ℕ
  mode : ℕ
  content : α

abbrev Disk (α : Type) := List (Inode α)

/-- What a reader finds at a path. -/
inductive Held (ν α : Type) where
  | directory
  | file (content : α)
  | symlink (target : ν)
deriving DecidableEq

namespace Node

mutual

/-- The inodes that can be reached from a node. -/
def inodes : Node ν → List ℕ
  | file i => [i]
  | dangling _ => []
  | symlink _ n => n.inodes
  | dir es => inodesIn es

def inodesIn : List (ν × Node ν) → List ℕ
  | [] => []
  | (_, n) :: es => n.inodes ++ inodesIn es

end

mutual

/-- No symbolic link is in the tree. -/
def Plain : Node ν → Prop
  | file _ => True
  | dangling _ => False
  | symlink _ _ => False
  | dir es => PlainIn es

def PlainIn : List (ν × Node ν) → Prop
  | [] => True
  | (_, n) :: es => n.Plain ∧ PlainIn es

end

def resolve : Node ν → Node ν
  | symlink _ n => n.resolve
  | n => n

def entries (n : Node ν) : List (ν × Node ν) :=
  match n.resolve with
  | dir es => es
  | _ => []

def isDir (n : Node ν) : Bool :=
  match n.resolve with
  | dir _ => true
  | _ => false

/-- The inode that is opened under a name. -/
def inode? (n : Node ν) : Option ℕ :=
  match n.resolve with
  | file i => some i
  | _ => none

variable [DecidableEq ν]

def child (n : Node ν) (name : ν) : Option (Node ν) := n.entries.lookup name

def find : Node ν → List ν → Option (Node ν)
  | n, [] => some n
  | n, name :: rest => (n.child name).bind fun m ↦ m.find rest

/-- The entry of a name is set, or is dropped. -/
def put (name : ν) (entry : Option (Node ν)) (es : List (ν × Node ν)) : List (ν × Node ν) :=
  match entry with
  | none => es.filter fun e ↦ e.1 ≠ name
  | some n => (name, n) :: es.filter fun e ↦ e.1 ≠ name

/-- The entry at a path is changed in its directory.  The change may be refused, and the way to the
directory leads through directories only. -/
def edit (f : Option (Node ν) → Option (Option (Node ν))) : List ν → Node ν → Option (Node ν)
  | [name], dir es => (f (es.lookup name)).map fun entry ↦ dir (put name entry es)
  | name :: rest, dir es =>
    (es.lookup name).bind fun n ↦ (edit f rest n).map fun m ↦ dir (put name (some m) es)
  | _, _ => none

attribute [grind =] inodes inodesIn Plain PlainIn resolve entries isDir inode? child find put edit

end Node

/-- The content of an inode is written in place. -/
def Disk.write (d : Disk α) (i : ℕ) (content : α) (mtime : ℕ) : Disk α :=
  d.modify i fun inode ↦ { inode with content, mtime }

def Disk.look (d : Disk α) : Node ν → Option (Held ν α)
  | .file i => d[i]?.map fun inode ↦ .file inode.content
  | .dangling target => some (.symlink target)
  | .symlink target _ => some (.symlink target)
  | .dir _ => some .directory

/-- What a tree holds at a path. -/
def Disk.held [DecidableEq ν] (d : Disk α) (root : Node ν) (path : List ν) : Option (Held ν α) :=
  (root.find path).bind d.look

/-- Every inode of the tree is on the disk. -/
def Within (d : Disk α) (n : Node ν) : Prop :=
  ∀ i ∈ n.inodes, i < d.length

namespace Node

@[simp] theorem inodes_file (i : ℕ) : (file i : Node ν).inodes = [i] := rfl

@[simp] theorem inodes_dir (es : List (ν × Node ν)) : (dir es).inodes = inodesIn es := rfl

@[simp] theorem inodesIn_cons (e : ν × Node ν) (es : List (ν × Node ν)) :
    inodesIn (e :: es) = e.2.inodes ++ inodesIn es := rfl

@[simp] theorem plain_dir (es : List (ν × Node ν)) : (dir es).Plain ↔ PlainIn es := .rfl

@[simp] theorem plainIn_cons (e : ν × Node ν) (es : List (ν × Node ν)) :
    PlainIn (e :: es) ↔ e.2.Plain ∧ PlainIn es := .rfl

theorem resolve_of_plain {n : Node ν} (h : n.Plain) : n.resolve = n := by
  cases n with
  | file i => rfl
  | dangling target => rfl
  | symlink target n => exact h.elim
  | dir es => rfl

theorem inodes_resolve (n : Node ν) : n.resolve.inodes = n.inodes := by
  cases n with
  | file i => rfl
  | dangling target => rfl
  | symlink target n =>
      rw [resolve, inodes]
      exact inodes_resolve n
  | dir es => rfl

theorem inodesIn_entries (n : Node ν) : inodesIn n.entries ⊆ n.inodes := by
  rw [← inodes_resolve, entries]
  split
  · rename_i es heq
    rw [heq]
    exact List.Subset.refl _
  · exact List.nil_subset _

theorem mem_inodesIn {es : List (ν × Node ν)} {i : ℕ} :
    i ∈ inodesIn es ↔ ∃ e ∈ es, i ∈ e.2.inodes := by
  induction es with
  | nil => simp [inodesIn]
  | cons e es ih => simp [ih]

theorem inodes_of_inode? {n : Node ν} {i : ℕ} (h : n.inode? = some i) : i ∈ n.inodes := by
  rw [← inodes_resolve]
  unfold inode? at h
  split at h
  · rename_i j heq
    obtain rfl := Option.some.inj h
    simp [heq]
  · simp at h

variable [DecidableEq ν]

@[simp] theorem find_nil (n : Node ν) : n.find [] = some n := by
  unfold find
  rfl

@[simp] theorem find_cons (n : Node ν) (name : ν) (rest : List ν) :
    n.find (name :: rest) = (n.child name).bind fun m ↦ m.find rest := by
  rw [find]

theorem mem_of_lookup {es : List (ν × Node ν)} {name : ν} {n : Node ν}
    (h : es.lookup name = some n) : (name, n) ∈ es := by
  obtain ⟨before, after, rfl, -⟩ := List.lookup_eq_some_iff.mp h
  simp

theorem inodes_lookup {es : List (ν × Node ν)} {name : ν} {n : Node ν}
    (h : es.lookup name = some n) : n.inodes ⊆ inodesIn es :=
  fun _ hi ↦ mem_inodesIn.mpr ⟨_, mem_of_lookup h, hi⟩

theorem inodes_child {n m : Node ν} {name : ν} (h : n.child name = some m) :
    m.inodes ⊆ n.inodes :=
  List.Subset.trans (inodes_lookup h) (inodesIn_entries n)

theorem inodes_find {path : List ν} {n m : Node ν} (h : n.find path = some m) :
    m.inodes ⊆ n.inodes := by
  induction path generalizing n with
  | nil =>
      rw [find_nil] at h
      exact Option.some.inj h ▸ List.Subset.refl _
  | cons name rest ih =>
      rw [find_cons] at h
      obtain ⟨c, hc, hm⟩ := Option.bind_eq_some_iff.mp h
      exact List.Subset.trans (ih hm) (inodes_child hc)

theorem plain_lookup {es : List (ν × Node ν)} {name : ν} {n : Node ν} (hplain : PlainIn es)
    (h : es.lookup name = some n) : n.Plain := by
  have hall : ∀ e ∈ es, e.2.Plain := by
    clear h
    induction es with
    | nil => simp
    | cons e es ih =>
        intro e' he'
        rcases List.mem_cons.mp he' with rfl | he'
        · exact hplain.1
        · exact ih hplain.2 e' he'
  exact hall _ (mem_of_lookup h)

theorem plain_child {n m : Node ν} {name : ν} (hn : n.Plain) (h : n.child name = some m) :
    m.Plain := by
  cases n with
  | file i => simp [child, entries, resolve] at h
  | dangling target => exact hn.elim
  | symlink target n => exact hn.elim
  | dir es => exact plain_lookup hn h

theorem child_nil (name : ν) : (dir [] : Node ν).child name = none := rfl

theorem child_file (i : ℕ) (name : ν) : (file i : Node ν).child name = none := rfl

theorem child_cons_self (name : ν) (n : Node ν) (es : List (ν × Node ν)) :
    (dir ((name, n) :: es)).child name = some n :=
  List.lookup_cons_self

theorem find_append (n : Node ν) (path rest : List ν) :
    n.find (path ++ rest) = (n.find path).bind fun m ↦ m.find rest := by
  induction path generalizing n with
  | nil => simp
  | cons name path ih =>
      rw [List.cons_append, find_cons, find_cons]
      cases n.child name with
      | none => rfl
      | some m => exact ih m

theorem lookup_cons_ne {name other : ν} (n : Node ν) (es : List (ν × Node ν))
    (h : other ≠ name) : ((name, n) :: es).lookup other = es.lookup other := by
  rw [List.lookup_cons, beq_false_of_ne h]

theorem child_cons_ne {name other : ν} (n : Node ν) (es : List (ν × Node ν))
    (h : other ≠ name) : (dir ((name, n) :: es)).child other = (dir es).child other :=
  lookup_cons_ne n es h

theorem lookup_filter_ne (es : List (ν × Node ν)) {name other : ν} (h : other ≠ name) :
    (es.filter fun e ↦ e.1 ≠ name).lookup other = es.lookup other := by
  induction es with
  | nil => rfl
  | cons e es ih =>
      obtain ⟨key, n⟩ := e
      by_cases hkey : key = name
      · subst hkey
        rw [List.filter_cons_of_neg (by simp), lookup_cons_ne n es h, ih]
      · rw [List.filter_cons_of_pos (by simpa using hkey)]
        by_cases hother : other = key
        · subst hother
          rw [List.lookup_cons_self, List.lookup_cons_self]
        · rw [lookup_cons_ne _ _ hother, lookup_cons_ne _ _ hother, ih]

theorem lookup_put_self (es : List (ν × Node ν)) (name : ν) (entry : Option (Node ν)) :
    (put name entry es).lookup name = entry := by
  cases entry with
  | none =>
      rw [put, List.lookup_eq_none_iff]
      intro e he
      have hne : e.1 ≠ name := of_decide_eq_true (List.mem_filter.mp he).2
      exact bne_iff_ne.mpr hne.symm
  | some n => exact List.lookup_cons_self

theorem lookup_put_ne (es : List (ν × Node ν)) (entry : Option (Node ν)) {name other : ν}
    (h : other ≠ name) : (put name entry es).lookup other = es.lookup other := by
  cases entry with
  | none => exact lookup_filter_ne es h
  | some n => exact (lookup_cons_ne n _ h).trans (lookup_filter_ne es h)

theorem inodes_put {es : List (ν × Node ν)} {name : ν} {entry : Option (Node ν)} {i : ℕ}
    (h : i ∈ inodesIn (put name entry es)) :
    i ∈ inodesIn es ∨ ∃ n, entry = some n ∧ i ∈ n.inodes := by
  obtain ⟨e, he, hi⟩ := mem_inodesIn.mp h
  cases entry with
  | none => exact .inl (mem_inodesIn.mpr ⟨e, List.mem_of_mem_filter he, hi⟩)
  | some n =>
      rcases List.mem_cons.mp he with rfl | he
      · exact .inr ⟨n, rfl, hi⟩
      · exact .inl (mem_inodesIn.mpr ⟨e, List.mem_of_mem_filter he, hi⟩)

variable {f : Option (Node ν) → Option (Option (Node ν))}

/-- What a change of an entry needs and makes: the way to it leads through directories. -/
theorem edit_cases {path : List ν} {n n' : Node ν} (h : edit f path n = some n') :
    ∃ name rest es, path = name :: rest ∧ n = dir es ∧
      ((rest = [] ∧ ∃ entry, f (es.lookup name) = some entry ∧ n' = dir (put name entry es)) ∨
        (rest ≠ [] ∧ ∃ m m', es.lookup name = some m ∧ edit f rest m = some m' ∧
          n' = dir (put name (some m') es))) := by
  unfold edit at h
  split at h
  · obtain ⟨entry, hentry, rfl⟩ := Option.map_eq_some_iff.mp h
    exact ⟨_, _, _, rfl, rfl, .inl ⟨rfl, entry, hentry, rfl⟩⟩
  · rename_i hne
    obtain ⟨m, hm, h⟩ := Option.bind_eq_some_iff.mp h
    obtain ⟨m', hm', rfl⟩ := Option.map_eq_some_iff.mp h
    exact ⟨_, _, _, rfl, rfl, .inr ⟨hne, m, m', hm, hm', rfl⟩⟩
  · simp at h

theorem find_edit {path : List ν} {n n' : Node ν} (h : edit f path n = some n') :
    f (n.find path) = some (n'.find path) := by
  induction path generalizing n n' with
  | nil => simp [edit] at h
  | cons name rest ih =>
      obtain ⟨name, rest, es, hpath, rfl, hcases⟩ := edit_cases h
      obtain ⟨rfl, rfl⟩ := List.cons.inj hpath
      rcases hcases with ⟨rfl, entry, hentry, rfl⟩ | ⟨-, m, m', hm, hm', rfl⟩
      · have hself := lookup_put_self es name entry
        simpa [child, entries, resolve, hself] using hentry
      · have hself := lookup_put_self es name (some m')
        simpa [child, entries, resolve, hself, hm] using ih hm'

theorem plain_put {es : List (ν × Node ν)} (name : ν) {entry : Option (Node ν)} (hes : PlainIn es)
    (h : ∀ m, entry = some m → m.Plain) : PlainIn (put name entry es) := by
  have hfilter : PlainIn (es.filter fun e ↦ e.1 ≠ name) := by
    clear h
    induction es with
    | nil => trivial
    | cons e es ih =>
        rw [List.filter_cons]
        split
        · exact ⟨hes.1, ih hes.2⟩
        · exact ih hes.2
  cases entry with
  | none => exact hfilter
  | some m => exact ⟨h m rfl, hfilter⟩

theorem plain_edit {path : List ν} {n n' : Node ν} (hn : n.Plain) (h : edit f path n = some n')
    (hpath : ∀ m, n'.find path = some m → m.Plain) : n'.Plain := by
  induction path generalizing n n' with
  | nil => simp [edit] at h
  | cons name rest ih =>
      obtain ⟨name, rest, es, hpath', rfl, hcases⟩ := edit_cases h
      obtain ⟨rfl, rfl⟩ := List.cons.inj hpath'
      rcases hcases with ⟨rfl, entry, hentry, rfl⟩ | ⟨-, m, m', hm, hm', rfl⟩
      · refine plain_put name hn fun m hm ↦ hpath m ?_
        simp [child, entries, resolve, lookup_put_self, hm]
      · refine plain_put name hn fun c hc ↦ ?_
        obtain rfl := Option.some.inj hc
        refine ih (plain_lookup hn hm) hm' fun c hc ↦ hpath c ?_
        simpa [child, entries, resolve, lookup_put_self] using hc

/-- In a tree without links, an entry can be changed if its directory is there. -/
theorem edit_isSome {path : List ν} {n : Node ν} (hn : n.Plain) :
    (edit f path n).isSome ↔
      path ≠ [] ∧ (∃ es, n.find path.dropLast = some (dir es)) ∧ (f (n.find path)).isSome := by
  induction path generalizing n with
  | nil => simp [edit]
  | cons name rest ih =>
      cases n with
      | file i => cases rest <;> simp [edit, child_file]
      | dangling target => exact hn.elim
      | symlink target n => exact hn.elim
      | dir es =>
          have hchild : (dir es).child name = es.lookup name := rfl
          cases rest with
          | nil =>
              rw [edit, Option.isSome_map]
              simp [hchild]
          | cons next rest =>
              rw [edit, List.dropLast_cons_cons, find_cons, find_cons, hchild]
              · cases hm : es.lookup name with
                | none => simp
                | some m =>
                    have hrest := ih (plain_lookup hn hm)
                    simpa using hrest
              · simp

theorem inodes_edit {path : List ν} {n n' : Node ν} {i : ℕ} (h : edit f path n = some n')
    (hi : i ∈ n'.inodes) : i ∈ n.inodes ∨ ∃ m, n'.find path = some m ∧ i ∈ m.inodes := by
  induction path generalizing n n' with
  | nil => simp [edit] at h
  | cons name rest ih =>
      obtain ⟨name, rest, es, hpath, rfl, hcases⟩ := edit_cases h
      obtain ⟨rfl, rfl⟩ := List.cons.inj hpath
      rcases hcases with ⟨rfl, entry, hentry, rfl⟩ | ⟨-, m, m', hm, hm', rfl⟩
      · rcases inodes_put hi with hi | ⟨c, rfl, hc⟩
        · exact .inl hi
        · exact .inr ⟨c, by simp [child, entries, resolve, lookup_put_self], hc⟩
      · rcases inodes_put hi with hi | ⟨c, hc, hi⟩
        · exact .inl hi
        · obtain rfl := Option.some.inj hc
          rcases ih hm' hi with hi | ⟨c, hc, hi⟩
          · exact .inl (inodes_lookup hm hi)
          · refine .inr ⟨c, ?_, hi⟩
            simpa [child, entries, resolve, lookup_put_self] using hc

end Node

open Node

section

variable [DecidableEq ν]

/-- A change of an entry is not seen beside the entry. -/
theorem held_edit {f : Option (Node ν) → Option (Option (Node ν))} {path p : List ν}
    {n n' : Node ν} (d : Disk α) (h : edit f path n = some n') (hp : ¬ path <+: p) :
    d.held n' p = d.held n p := by
  induction path generalizing n n' p with
  | nil => simp [edit] at h
  | cons name rest ih =>
      obtain ⟨name, rest, es, hpath, rfl, hcases⟩ := edit_cases h
      obtain ⟨rfl, rfl⟩ := List.cons.inj hpath
      cases p with
      | nil => rcases hcases with ⟨-, -, -, rfl⟩ | ⟨-, -, -, -, -, rfl⟩ <;> rfl
      | cons name' p =>
          by_cases hname : name' = name
          · subst hname
            rcases hcases with ⟨rfl, -⟩ | ⟨-, m, m', hm, hm', rfl⟩
            · exact absurd (List.prefix_cons_inj _ |>.mpr (List.nil_prefix)) hp
            · have hinner := ih hm' fun hpre ↦ hp ((List.prefix_cons_inj _).mpr hpre)
              simpa [Disk.held, child, entries, resolve, lookup_put_self, hm] using hinner
          · rcases hcases with ⟨rfl, entry, -, rfl⟩ | ⟨-, m, m', -, -, rfl⟩ <;>
              simp [Disk.held, child, entries, resolve, lookup_put_ne es _ hname]

theorem held_eq_directory {d : Disk α} {n : Node ν} {p : List ν} :
    d.held n p = some .directory ↔ ∃ es, n.find p = some (dir es) := by
  unfold Disk.held
  cases n.find p with
  | none => simp
  | some m =>
      cases m with
      | file i => cases hi : d[i]? <;> simp [Disk.look, hi]
      | dangling target => simp [Disk.look]
      | symlink target m => simp [Disk.look]
      | dir es => simp [Disk.look]

theorem held_isSome {d : Disk α} {n : Node ν} (hn : Within d n) {p : List ν} :
    (d.held n p).isSome ↔ (n.find p).isSome := by
  unfold Disk.held
  cases hm : n.find p with
  | none => simp
  | some m =>
      cases m with
      | file i =>
          have hi := hn i (inodes_find hm (by simp))
          simp [Disk.look, hi]
      | dangling target => simp [Disk.look]
      | symlink target m => simp [Disk.look]
      | dir es => simp [Disk.look]

/-- A reader finds what the inodes of the tree hold. -/
theorem held_congr {d d' : Disk α} {n : Node ν}
    (h : ∀ i ∈ n.inodes, d'[i]?.map Inode.content = d[i]?.map Inode.content) (p : List ν) :
    d'.held n p = d.held n p := by
  unfold Disk.held
  cases hm : n.find p with
  | none => rfl
  | some m =>
      have hsub := inodes_find hm
      cases m with
      | file i =>
          have hi := congrArg (Option.map (Held.file (ν := ν))) (h i (hsub (by simp)))
          simpa [Disk.look, Function.comp_def] using hi
      | dangling target => rfl
      | symlink target m => rfl
      | dir es => rfl

theorem block_of_grows {d d' : Disk α} {i : ℕ} (h : d <+: d') (hi : i < d.length) :
    d'[i]? = d[i]? := by
  obtain ⟨more, rfl⟩ := h
  exact List.getElem?_append_left hi

/-- New inodes do not change what a tree holds. -/
theorem held_of_grows {d d' : Disk α} {n : Node ν} (hn : Within d n) (h : d <+: d')
    (p : List ν) : d'.held n p = d.held n p :=
  held_congr (fun i hi ↦ by rw [block_of_grows h (hn i hi)]) p

/-- A new file has been written at a path of a tree. -/
structure Wrote (d d' : Disk α) (n n' : Node ν) (path : List ν) (content : α) : Prop where
  grows : d <+: d'
  plain : n'.Plain
  within : Within d' n'
  names : ∀ i ∈ n'.inodes, i ∈ n.inodes ∨ d.length ≤ i
  self : d'.held n' path = some (.file content)
  beside : ∀ p, p ≠ path → d'.held n' p = d.held n p

theorem wrote_of_edit {f : Option (Node ν) → Option (Option (Node ν))} {path : List ν}
    {n n' : Node ν} {d : Disk α} (hplain : n.Plain) (hn : Within d n)
    (hnone : ∀ name rest, n.find (path ++ name :: rest) = none) (inode : Inode α)
    (h : edit f path n = some n') (hself : n'.find path = some (file d.length)) :
    Wrote d (d ++ [inode]) n n' path inode.content := by
  have hnames : ∀ i ∈ n'.inodes, i ∈ n.inodes ∨ i = d.length := by
    intro i hi
    rcases inodes_edit h hi with hi | ⟨m, hm, hi⟩
    · exact .inl hi
    · rw [hself] at hm
      obtain rfl := Option.some.inj hm
      exact .inr (by simpa using hi)
  have hlong : Within (d ++ [inode]) n' := by
    intro i hi
    rw [List.length_append, List.length_singleton]
    rcases hnames i hi with hi | rfl
    · exact Nat.lt_succ_of_lt (hn i hi)
    · exact Nat.lt_succ_self _
  exact
    { grows := List.prefix_append _ _
      plain := plain_edit hplain h fun m hm ↦ by
        rw [hself] at hm
        exact Option.some.inj hm ▸ trivial
      within := hlong
      names := fun i hi ↦ (hnames i hi).imp_right fun heq ↦ Nat.le_of_eq heq.symm
      self := by simp [Disk.held, hself, Disk.look]
      beside := fun p hp ↦ by
        by_cases hpre : path <+: p
        · obtain ⟨more, rfl⟩ := hpre
          cases more with
          | nil => simp at hp
          | cons name rest =>
              unfold Disk.held
              rw [hnone, find_append, hself]
              simp [child_file]
        · rw [held_edit _ h hpre]
          exact held_of_grows hn (List.prefix_append _ _) p }

end

theorem Within.mono {d d' : Disk α} {n : Node ν} (hn : Within d n) (h : d.length ≤ d'.length) :
    Within d' n :=
  fun i hi ↦ Nat.lt_of_lt_of_le (hn i hi) h

end NucLlm.Inodes
