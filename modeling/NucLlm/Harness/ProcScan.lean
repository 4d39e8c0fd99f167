import NucLlm.Lib.PosixPath
import Mathlib.Data.List.Nodup
import Mathlib.Logic.Relation

/-!
# The scan of the process table

What is read of a process, and where the scan puts it.  Each read may fail for
itself, and a process that is gone when the reads are over has vanished.
-/

namespace NucLlm.ProcScan

open PosixPath

abbrev Text := List Char

/-! ## Processes and what is read of them -/

/-- A place of the file system, as the kernel names it. -/
structure Place where
  names : List Text
  isPlace : IsPlace names

def Place.text (p : Place) : Text := render p.names

structure Fd where
  number : ℕ
  target : Place
  regular : Bool
  links : ℕ

structure Process where
  pid : ℕ
  uid : ℕ
  ppid : ℕ
  argv : List String
  cwd : Place
  fds : List Fd
  /-- It is there until the scan is over. -/
  alive : Bool

inductive CwdRead where
  | ok
  /-- A `PermissionError`: the kernel protects a process of one's own from nothing else. -/
  | denied
  | failed
deriving DecidableEq

/-- Which reads of a process go through, and whether it is there after them. -/
structure Reads where
  owner : Bool
  cmdline : Bool
  cwd : CwdRead
  stat : Bool
  fdList : Bool
  link : ℕ → Bool
  inode : ℕ → Bool
  present : Bool

/-- A process of the table, with the reads of the scan and those on the way to the ancestors. -/
structure Seen where
  process : Process
  reads : Reads
  walk : Reads
  present_of_alive : process.alive = true → reads.present = true

structure Table where
  entries : List Seen
  distinct : (entries.map fun e ↦ e.process.pid).Nodup

/-! ## The source's functions -/

structure ProcInfo where
  pid : ℕ
  ppid : Option ℕ := none
  argv : List String := []
  cwd : Option Text := none
  files : List Text := []
  unlinked : List Text := []
  readable : Bool := true
  uid : Option ℕ := none
  vanished : Bool := false
  protected_ : Bool := false

/-- The texts, each once and sorted. -/
def sortedTexts (texts : List Text) : List Text :=
  texts.dedup.mergeSort fun a b ↦ decide (String.ofList a ≤ String.ofList b)

/-- The descriptors whose link and inode are read, of regular files. -/
def Process.readFds (p : Process) (r : Reads) : List Fd :=
  p.fds.filter fun fd ↦ r.link fd.number && r.inode fd.number && fd.regular

/-- `_fds`. -/
def Process.fdTexts (p : Process) (r : Reads) : Option (List Text × List Text) :=
  if r.fdList then
    let texts (fds : List Fd) := sortedTexts (fds.map fun fd ↦ fd.target.text)
    some (texts ((p.readFds r).filter fun fd ↦ 1 ≤ fd.links),
      texts ((p.readFds r).filter fun fd ↦ ¬1 ≤ fd.links))
  else none

/-- `ProcfsSource.info`. -/
def Process.info (p : Process) (r : Reads) : ProcInfo :=
  let ppid := if r.stat then some p.ppid else none
  let fds := p.fdTexts r
  let readable := r.cmdline && r.cwd = .ok && r.stat && fds.isSome
  { pid := p.pid
    ppid := ppid
    argv := if r.cmdline then p.argv else []
    cwd := if r.cwd = .ok then some p.cwd.text else none
    files := (fds.getD ([], [])).1
    unlinked := (fds.getD ([], [])).2
    readable := readable
    uid := if r.owner then some p.uid else none
    vanished := !readable && !r.present
    protected_ := r.cwd = .denied && ppid.isSome }

/-- `ProcSource`; `info` may raise.  While the ancestors are followed it reads for itself. -/
structure Source where
  pids : List ℕ
  info : ℕ → Option ProcInfo
  walked : ℕ → Option ProcInfo

/-- `_under`. -/
def under (path root : Text) : Bool :=
  if path = [] ∨ root = [] then false
  else
    let p := normpath path
    let r := normpath root
    decide (p = r) || (stripSlashes r ++ ['/']).isPrefixOf p

/-- The loop of `ancestors` with the turns that are left. -/
def ancestorsFrom (source : Source) : ℕ → Option ℕ → List ℕ → List ℕ
  | k + 1, some cur, out =>
      if cur ≤ 1 ∨ cur ∈ out then out
      else match source.walked cur with
        | some info => ancestorsFrom source k info.ppid (out ++ [cur])
        | none => out ++ [cur]
  | _, _, out => out

/-- `ancestors`. -/
def ancestors (source : Source) (pid : ℕ) : List ℕ := ancestorsFrom source 64 (some pid) []

structure ScanResult where
  matched : List ProcInfo := []
  unreadable : List ProcInfo := []
  protected_ : List ProcInfo := []
  vanished : List ProcInfo := []

/-- What the scan does with a process. -/
inductive Route where
  | vanished
  | foreign
  | protected_
  | unreadable
  | matched
  | elsewhere
deriving DecidableEq

/-- The process shows that it uses the path. -/
def ProcInfo.shows (info : ProcInfo) (path : Text) : Bool :=
  info.cwd.any (under · path) || info.files.any (under · path)

def route (path : Text) (onlyUid : Option ℕ) (info : ProcInfo) : Route :=
  if info.vanished then .vanished
  else if onlyUid.any fun only ↦ info.uid.any (· ≠ only) then .foreign
  else if info.protected_ then .protected_
  else if !info.readable && info.cwd.isNone && info.files.isEmpty then .unreadable
  else if info.shows path then .matched
  else .elsewhere

def ScanResult.add (result : ScanResult) (info : ProcInfo) : Route → ScanResult
  | .vanished => { result with vanished := result.vanished ++ [info] }
  | .protected_ => { result with protected_ := result.protected_ ++ [info] }
  | .unreadable => { result with unreadable := result.unreadable ++ [info] }
  | .matched => { result with matched := result.matched ++ [info] }
  | .foreign | .elsewhere => result

def skipped (source : Source) (selfPid : ℕ) (excludeAncestors : Bool) : List ℕ :=
  selfPid :: if excludeAncestors && 0 < selfPid then ancestors source selfPid else []

/-- `scan`. -/
def scan (source : Source) (path : Text) (selfPid : ℕ) (onlyUid : Option ℕ)
    (excludeAncestors : Bool) : ScanResult :=
  let skip := skipped source selfPid excludeAncestors
  source.pids.foldl (fun result pid ↦
    if pid ∈ skip then result
    else match source.info pid with
      | none => { result with unreadable := result.unreadable ++
          [{ pid := pid, readable := false }] }
      | some info => result.add info (route path onlyUid info)) {}

inductive Verdict where
  | clean
  | residue
  | inconclusive
deriving DecidableEq

/-- `verdict`. -/
def verdict (matched unreadable : List ProcInfo) : Verdict :=
  if !unreadable.isEmpty then .inconclusive else if !matched.isEmpty then .residue else .clean

/-- `safe_to_remove`. -/
def safeToRemove (path : Text) (procs : List ProcInfo) : Bool × List ProcInfo :=
  let blockers := procs.filter fun info ↦ info.shows path
  (blockers.isEmpty, blockers)

/-- `ProcfsSource`. -/
def Table.source (t : Table) : Source where
  pids := (t.entries.map fun e ↦ e.process.pid).mergeSort
  info := fun pid ↦
    match t.entries.find? fun e ↦ e.process.pid = pid with
    | some e => some (e.process.info e.reads)
    | none => some { pid := pid, readable := false, vanished := true }
  walked := fun pid ↦
    match t.entries.find? fun e ↦ e.process.pid = pid with
    | some e => some (e.process.info e.walk)
    | none => some { pid := pid, readable := false, vanished := true }

end NucLlm.ProcScan
