import NucLlm.Lib.Inodes
import Mathlib.Data.String.Basic

/-!
# Mutants in linked sandboxes

The project is copied byte by byte once, and every sandbox is made of links to the
inodes of that copy.  The mutant is written into the sandbox, the suite runs in it,
and a witness tells whether a write has reached the copy through a link.
-/

namespace NucLlm.Swe.LinkCopy

open NucLlm.Inodes

abbrev Name := List Char

abbrev Path := List Name

abbrev Bytes := List UInt8

def encode (text : Name) : Bytes := (String.ofList text).toUTF8.data.toList

/-- `fnmatch.fnmatch`, for the patterns without a class of characters. -/
def fnmatch : (pattern name : Name) → Bool
  | [], name => name.isEmpty
  | '*' :: pattern, name => name.tails.any (fnmatch pattern)
  | '?' :: pattern, name =>
    match name with
    | [] => false
    | _ :: name => fnmatch pattern name
  | c :: pattern, name =>
    match name with
    | [] => false
    | c' :: name => c == c' && fnmatch pattern name

def copyIgnore : List Name :=
  ["__pycache__", ".pytest_cache", "*.pyc", ".venv", "research-env", "*.egg-info", ".git",
    "node_modules"].map String.toList

def ignored (name : Name) : Bool := copyIgnore.any fun pattern ↦ fnmatch pattern name

/-- The number and the time that a new inode gets. -/
structure Host where
  number : ℕ → ℕ
  clock : ℕ → ℕ
  umask : ℕ

/-- `shutil.copy2`. -/
def copy2 (host : Host) (d : Disk Bytes) (i : ℕ) : Option (Disk Bytes × ℕ) :=
  d[i]?.map fun inode ↦ (d ++ [{ inode with number := host.number d.length }], d.length)

mutual

/-- `shutil.copytree` on a node: a link is followed, and a link that leads nowhere is an error. -/
def copyNode (host : Host) : Node Name → Disk Bytes → Option (Disk Bytes × Node Name)
  | .file i, d => (copy2 host d i).map fun r ↦ (r.1, .file r.2)
  | .dangling _, _ => none
  | .symlink _ n, d => copyNode host n d
  | .dir es, d => (copyEntries host es d).map fun r ↦ (r.1, .dir r.2)

def copyEntries (host : Host) :
    List (Name × Node Name) → Disk Bytes → Option (Disk Bytes × List (Name × Node Name))
  | [], d => some (d, [])
  | (name, n) :: es, d =>
    if ignored name then copyEntries host es d
    else
      (copyNode host n d).bind fun r ↦
        (copyEntries host es r.1).map fun rs ↦ (rs.1, (name, r.2) :: rs.2)

end

def copytree (host : Host) (src : Node Name) (d : Disk Bytes) :
    Option (Disk Bytes × Node Name) :=
  if src.isDir then copyNode host src d else none

def newInode (host : Host) (d : Disk Bytes) (content : Bytes) : Inode Bytes :=
  ⟨host.number d.length, host.clock d.length, host.umask, content⟩

/-- `open(path, "w")` and a write: in place where the name is there. -/
def openWrite (host : Host) (mtime : ℕ) (path : Path) (content : Bytes) (d : Disk Bytes)
    (root : Node Name) : Option (Disk Bytes × Node Name) :=
  match root.find path with
  | some n => n.inode?.map fun i ↦ (d.write i content mtime, root)
  | none =>
    (root.edit (fun _ ↦ some (some (.file d.length))) path).map fun root ↦
      (d ++ [newInode host d content], root)

/-- `os.unlink`, which drops the name of a file. -/
def unlink (path : Path) (root : Node Name) : Option (Node Name) :=
  root.edit (fun
    | none => none
    | some (.dir _) => none
    | some _ => some none) path

/-- What the campaign is about: the project on the disk at its start, and the names of the curated
examples that the checkout, or else its manifest, gives. -/
structure Project where
  disk : Disk Bytes
  tree : Node Name
  within : Within disk tree
  abspath : Name
  exampleNames : Option (List Name)

def examples : Name := "examples".toList

def curationManifest : Name := ".curated-examples".toList

def curationBody (project : Project) (names : List Name) : Name :=
  ['\n'].intercalate
    (["# GENERATED by swe.fuzz.write_example_curation — do not edit by hand.",
      "# The curated examples/*.lang corpus of the checkout this tree was",
      "# copied from. `_copy_project` excludes `.git`, so this file is the",
      "# only thing that can still tell a curated example from a file another",
      "# process dropped into examples/. One name per line."].map String.toList ++
      ["# source: ".toList ++ project.abspath] ++ names) ++ ['\n']

/-- `write_example_curation`. -/
def writeExampleCuration (host : Host) (project : Project) (d : Disk Bytes) (root : Node Name) :
    Option (Disk Bytes × Node Name) :=
  if ((root.find [examples]).any Node.isDir) then
    if (root.find [examples, curationManifest]).isSome then some (d, root)
    else
      match project.exampleNames with
      | none => some (d, root)
      | some names =>
        openWrite host (host.clock d.length) [examples, curationManifest]
          (encode (curationBody project names)) d root
  else some (d, root)

/-- `_copy_project`. -/
def copyProject (host : Host) (project : Project) (d : Disk Bytes) :
    Option (Disk Bytes × Node Name) :=
  (copytree host project.tree d).bind fun r ↦ writeExampleCuration host project r.1 r.2

structure LinkStats where
  dirs : ℕ
  files : ℕ
  symlinks : ℕ
  fallback : ℕ
deriving DecidableEq

/-- The disk and the counts while a tree is linked. -/
structure Linking where
  disk : Disk Bytes
  stats : LinkStats

/-- `os.link` of a file, or its copy where the link is refused. -/
def linkFile (host : Host) (refused : Bool) (i : ℕ) (st : Linking) : Linking × Option (Node Name) :=
  if refused then
    match copy2 host st.disk i with
    | none => (st, none)
    | some (d, j) =>
      ({ disk := d
         stats := { st.stats with
           files := st.stats.files + 1, fallback := st.stats.fallback + 1 } }, some (.file j))
  else
    ({ st with stats := { st.stats with files := st.stats.files + 1 } }, some (.file i))

mutual

/-- `link_tree` on an entry.  The walk does not enter a directory through a link: such a directory
is made and stays empty.  A link to anything else is made again with its text. -/
def linkNode (host : Host) (refuses : Path → Bool) (path : Path) :
    Node Name → Linking → Linking × Option (Node Name)
  | .file i, st => linkFile host (refuses path) i st
  | .dangling target, st =>
    ({ st with stats := { st.stats with symlinks := st.stats.symlinks + 1 } },
      some (.dangling target))
  | .symlink target n, st =>
    if n.isDir then
      ({ st with stats := { st.stats with dirs := st.stats.dirs + 1 } }, some (.dir []))
    else
      ({ st with stats := { st.stats with symlinks := st.stats.symlinks + 1 } },
        some (.symlink target n))
  | .dir es, st =>
    let r := linkEntries host refuses path es
      { st with stats := { st.stats with dirs := st.stats.dirs + 1 } }
    (r.1, some (.dir r.2))

/-- The entries of a directory, which the walk takes directories first. -/
def linkEntries (host : Host) (refuses : Path → Bool) (path : Path) :
    List (Name × Node Name) → Linking → Linking × List (Name × Node Name)
  | [], st => (st, [])
  | (name, n) :: es, st =>
    if ignored name then linkEntries host refuses path es st
    else
      let r := linkNode host refuses (path ++ [name]) n st
      let rs := linkEntries host refuses path es r.1
      (rs.1, (r.2.toList.map fun m ↦ (name, m)) ++ rs.2)

end

/-- `link_tree`. -/
def linkTree (host : Host) (refuses : Path → Bool) (src : Node Name) (d : Disk Bytes) :
    Linking × Node Name :=
  let r := linkEntries host refuses [] src.entries ⟨d, ⟨1, 0, 0, 0⟩⟩
  (r.1, .dir r.2)

mutual

/-- The regular files that the walk of a witness meets, with their inodes. -/
def walkNode : Node Name → List (Path × ℕ)
  | .file i => [([], i)]
  | .dangling _ => []
  | .symlink _ _ => []
  | .dir es => walkEntries es

def walkEntries : List (Name × Node Name) → List (Path × ℕ)
  | [] => []
  | (name, n) :: es =>
    (if ignored name then [] else (walkNode n).map fun e ↦ (name :: e.1, e.2)) ++ walkEntries es

end

structure Stat where
  size : ℕ
  mtime : ℕ
  mode : ℕ
  ino : ℕ
  digest : Option Bytes
deriving DecidableEq

abbrev Snapshot := List (Path × Stat)

/-- `TreeWitness._walk`, shallow without a digest. -/
def snapshot (digest : Option (Bytes → Bytes)) (d : Disk Bytes) (root : Node Name) : Snapshot :=
  (walkEntries root.entries).filterMap fun e ↦
    d[e.2]?.map fun inode ↦
      (e.1, { size := inode.content.length, mtime := inode.mtime, mode := inode.mode,
              ino := inode.number, digest := digest.map fun hash ↦ hash inode.content })

inductive Drift where
  | added
  | missing
  | modified
  | replaced
deriving DecidableEq

def relpath (path : Path) : Name := ['/'].intercalate path

def byPath (s : Snapshot) : Snapshot :=
  s.mergeSort fun a b ↦ decide (relpath a.1 ≤ relpath b.1)

def driftAt (deep : Bool) (now : Snapshot) (e : Path × Stat) : Option (Path × Drift) :=
  match now.lookup e.1 with
  | none => some (e.1, .missing)
  | some new =>
    let changed := if deep then decide (new.digest ≠ e.2.digest)
      else decide ((new.size, new.mtime, new.mode, new.ino) ≠
        (e.2.size, e.2.mtime, e.2.mode, e.2.ino))
    if changed then some (e.1, if new.ino ≠ e.2.ino then .replaced else .modified) else none

/-- `TreeWitness.drift`. -/
def drift (deep : Bool) (snap now : Snapshot) : List (Path × Drift) :=
  (byPath snap).filterMap (driftAt deep now) ++
    ((byPath now).filter fun e ↦ (snap.lookup e.1).isNone).map fun e ↦ (e.1, .added)

structure DriftEvent where
  label : Option Name
  n : ℕ
  paths : List Path
  kinds : List Drift
  deep : Bool
deriving DecidableEq

structure MasterStats where
  sandboxes : ℕ
  stagings : ℕ
  fallback : ℕ
  driftEvents : List DriftEvent
deriving DecidableEq

/-- `MasterTree`, with the disk that it works on. -/
structure MasterTree where
  disk : Disk Bytes
  path : Option (Node Name)
  witness : Option Snapshot
  deep : Option Snapshot
  stats : MasterStats

/-- The arguments of `MasterTree`, and the hash of its deep witness. -/
structure Config where
  host : Host
  project : Project
  wantWitness : Bool
  wantDeep : Bool
  blake2b : Bytes → Bytes

namespace MasterTree

def init (c : Config) : MasterTree :=
  { disk := c.project.disk, path := none, witness := none, deep := none, stats := ⟨0, 0, 0, []⟩ }

def stage (c : Config) (s : MasterTree) : Option MasterTree :=
  (copyProject c.host c.project s.disk).map fun r ↦
    { disk := r.1
      path := some r.2
      witness := if c.wantWitness then some (snapshot none r.1 r.2) else s.witness
      deep := if c.wantWitness && c.wantDeep then some (snapshot (some c.blake2b) r.1 r.2)
        else s.deep
      stats := { s.stats with stagings := s.stats.stagings + 1 } }

/-- `MasterTree.__call__`, on the project that it was made for. -/
def call (c : Config) (refuses : Path → Bool) (s : MasterTree) :
    Option (MasterTree × Node Name) :=
  (if s.path.isSome then some s else stage c s).bind fun s ↦ s.path.map fun master ↦
    let r := linkTree c.host refuses master s.disk
    ({ s with
        disk := r.1.disk
        stats := { s.stats with
          sandboxes := s.stats.sandboxes + 1
          fallback := s.stats.fallback + r.1.stats.fallback } }, r.2)

def driftEvent (label : Option Name) (deep : Bool) (found : List (Path × Drift)) : DriftEvent :=
  { label
    n := found.length
    paths := (found.take 20).map Prod.fst
    kinds := [Drift.added, .missing, .modified, .replaced].filter fun kind ↦
      found.any fun e ↦ e.2 = kind
    deep }

/-- `MasterTree.check`.  Without a master there is no tree to walk, and all that was seen is
missing. -/
def check (c : Config) (label : Option Name) (restageOnDrift deep : Bool) (s : MasterTree) :
    Option (MasterTree × List (Path × Drift)) :=
  let deep := deep && s.deep.isSome
  match if deep then s.deep else s.witness with
  | none => some (s, [])
  | some snap =>
    let hash := if deep then some c.blake2b else none
    let now := (s.path.map (snapshot hash s.disk)).getD []
    let found := drift deep snap now
    if found = [] then some (s, [])
    else
      let s := { s with stats := { s.stats with
        driftEvents := s.stats.driftEvents ++ [driftEvent label deep found] } }
      if restageOnDrift then (stage c s).map fun s ↦ (s, found)
      else if deep then some ({ s with deep := some now }, found)
      else some ({ s with witness := some now }, found)

end MasterTree

structure Mutant where
  path : Path
  source : Bytes

/-- `_write_mutant`. -/
def writeMutant (host : Host) (m : Mutant) (d : Disk Bytes) (root : Node Name) :
    Option (Disk Bytes × Node Name) :=
  (if (root.find m.path).isSome then unlink m.path root else some root).bind fun root ↦
    openWrite host (host.clock d.length) m.path m.source d root

/-- What a suite does in its sandbox.  Only `write` keeps a name and changes what its
inode holds. -/
inductive Op where
  | make (path : Path) (content : Bytes)
  | delete (path : Path)
  | mkdir (path : Path)
  | rename (path target : Path)
  | write (path : Path) (content : Bytes) (mtime : ℕ)

namespace Op

/-- The operation works on names only. -/
def OnNames : Op → Prop
  | write _ _ _ => False
  | _ => True

def replaceFile (i : ℕ) : Option (Node Name) → Option (Option (Node Name))
  | some (.dir _) => none
  | _ => some (some (.file i))

def run (host : Host) (d : Disk Bytes) (root : Node Name) : Op → Option (Disk Bytes × Node Name)
  | make path content =>
    (root.edit (replaceFile d.length) path).map fun root ↦ (d ++ [newInode host d content], root)
  | delete path =>
    (root.edit (fun entry ↦ entry.map fun _ ↦ none) path).map fun root ↦ (d, root)
  | mkdir path =>
    (root.edit (fun entry ↦ if entry.isSome then none else some (some (.dir []))) path).map
      fun root ↦ (d, root)
  | rename path target =>
    (root.find path).bind fun n ↦
      (root.edit (fun entry ↦ entry.map fun _ ↦ none) path).bind fun root ↦
        (root.edit (fun _ ↦ some (some n)) target).map fun root ↦ (d, root)
  | write path content mtime =>
    ((root.find path).bind Node.inode?).map fun i ↦ (d.write i content mtime, root)

/-- An operation that is refused changes nothing. -/
def apply (host : Host) (s : Disk Bytes × Node Name) (op : Op) : Disk Bytes × Node Name :=
  (op.run host s.1 s.2).getD s

end Op

/-- One call of `run_mutant`: the links that the host refuses, and what the suite does. -/
structure Run where
  mutant : Mutant
  refuses : Path → Bool
  suite : List Op

namespace MasterTree

/-- The byte copier, in the place of the linking one. -/
def byteCopy (c : Config) (s : MasterTree) : Option (MasterTree × Node Name) :=
  (copyProject c.host c.project s.disk).map fun r ↦ ({ s with disk := r.1 }, r.2)

/-- The sandbox that a suite starts in. -/
def started (c : Config) (copier : MasterTree → Option (MasterTree × Node Name)) (m : Mutant)
    (s : MasterTree) : Option (MasterTree × Node Name) :=
  (copier s).bind fun r ↦ (writeMutant c.host m r.1.disk r.2).map fun w ↦
    ({ r.1 with disk := w.1 }, w.2)

/-- `run_mutant`.  The sandbox is removed in the end, which drops its names. -/
def runMutant (c : Config) (run : Run) (s : MasterTree) : MasterTree :=
  match call c run.refuses s with
  | none => s
  | some (s, root) =>
    match writeMutant c.host run.mutant s.disk root with
    | none => s
    | some (d, root) =>
      { s with disk := (run.suite.foldl (Op.apply c.host) (d, root)).1 }

def runAll (c : Config) (runs : List Run) (s : MasterTree) : MasterTree :=
  runs.foldl (fun s run ↦ runMutant c run s) s

/-- The mutants are run, and the deep witness is asked after each. -/
def runChecked (c : Config) (runs : List Run) (s : MasterTree) : Option MasterTree :=
  runs.foldlM (fun s run ↦ (check c none true true (runMutant c run s)).map Prod.fst) s

end MasterTree

end NucLlm.Swe.LinkCopy
