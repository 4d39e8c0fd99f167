import NucLlm.Harness.ProcScan
import Mathlib.Data.List.Dedup
import Mathlib.Data.List.Infix

/-!
# When a scan that finds nothing means that nothing is there

A process that uses a path must show it in what could be read of it, or nothing
of its places could be read.
-/

namespace NucLlm.ProcScan

open PosixPath

/-! ## Paths -/

/-- The path is absolute and has one slash at its head, or is the root. -/
def Plain (path : Text) : Prop := slashes path = 1 ∨ slashes path = 2 ∧ place path = []

theorem text_ne_nil (pl : Place) : pl.text ≠ [] := List.cons_ne_nil _ _

theorem normpath_text (pl : Place) : normpath pl.text = pl.text := by
  have h := normpath_absolute (slashes_render pl.isPlace)
  rwa [place_render pl.isPlace] at h

/-- `_under` sees what is in the place of a plain path, and nothing of other paths. -/
theorem under_text (pl : Place) (path : Text) :
    under pl.text path = true ↔ Plain path ∧ place path <+: pl.names := by
  have hunder (hne : path ≠ []) : under pl.text path = true ↔
      pl.text = normpath path ∨ stripSlashes (normpath path) ++ ['/'] <+: pl.text := by
    unfold under
    rw [if_neg (not_or.mpr ⟨text_ne_nil pl, hne⟩), normpath_text]
    simp
  by_cases hne : path = []
  · subst hne
    simp [under, Plain, slashes]
  · rw [hunder hne]
    rcases slashes_cases path with hslashes | hslashes | hslashes
    · obtain ⟨c, rest, hnorm, hc⟩ := normpath_relative hslashes
      obtain ⟨rest', hstrip⟩ := stripSlashes_relative hc rest
      rw [hnorm, hstrip]
      have hrelative : ¬Plain path := by simp [Plain, hslashes]
      refine iff_of_false ?_ fun h ↦ hrelative h.1
      rintro (heq | ⟨t, ht⟩)
      · exact hc (List.cons.inj heq).1.symm
      · exact hc (List.cons.inj ht).1
    · rw [normpath_absolute hslashes]
      have hplain : Plain path := .inl hslashes
      exact (isPrefix_iff pl.isPlace (isPlace_place path)).trans (and_iff_right hplain).symm
    · rw [normpath_double hslashes]
      by_cases hroot : place path = []
      · have hplain : Plain path := .inr ⟨hslashes, hroot⟩
        refine iff_of_true (.inr ?_) ⟨hplain, by rw [hroot]; exact List.nil_prefix⟩
        rw [hroot]
        exact ⟨_, rfl⟩
      · have hbody : stripSlashes (render (place path)) = body (place path) :=
          stripSlashes_render (isPlace_place path)
        have hstrip : ∃ rest, stripSlashes (render (place path)) = '/' :: rest := by
          obtain ⟨name, names, hnames⟩ := List.exists_cons_of_ne_nil hroot
          rw [hbody, hnames]
          exact ⟨_, rfl⟩
        obtain ⟨rest, hrest⟩ := hstrip
        refine iff_of_false ?_ ?_
        · rintro (heq | ⟨t, ht⟩)
          · exact render_ne_double pl.isPlace _ heq
          · rw [stripSlashes_cons (by rw [hrest]; exact List.cons_ne_nil _ _), hrest] at ht
            exact render_ne_double pl.isPlace _ ht.symm
        · rintro ⟨hplain, -⟩
          simp [Plain, hslashes, hroot] at hplain

/-- What a scan is asked; relative paths are those of the scanner's own place. -/
structure Query where
  path : Text
  selfPid : ℕ
  onlyUid : Option ℕ
  excludeAncestors : Bool
  base : Place

namespace Query

variable (q : Query)

def absolute : Text := if slashes q.path = 0 then q.base.text ++ '/' :: q.path else q.path

/-- A place is in the path, or is it. -/
def Inside (pl : Place) : Prop := q.path ≠ [] ∧ place q.absolute <+: pl.names

theorem inside_of_plain (h : Plain q.path) (pl : Place) :
    q.Inside pl ↔ place q.path <+: pl.names := by
  have hslashes : slashes q.path ≠ 0 := by
    rcases h with h | ⟨h, -⟩ <;> omega
  have hne : q.path ≠ [] := fun hnil ↦ hslashes (by rw [hnil]; rfl)
  unfold Inside absolute
  rw [if_neg hslashes]
  exact and_iff_right hne

theorem under_iff (pl : Place) : under pl.text q.path = true ↔ Plain q.path ∧ q.Inside pl := by
  rw [under_text]
  exact and_congr_right fun h ↦ (q.inside_of_plain h pl).symm

end Query

/-! ## The scan -/

theorem mem_sortedTexts {text : Text} {texts : List Text} :
    text ∈ sortedTexts texts ↔ text ∈ texts := by
  unfold sortedTexts
  rw [List.mem_mergeSort, List.mem_dedup]

theorem matched_add (result : ScanResult) (info : ProcInfo) (r : Route) :
    (result.add info r).matched = result.matched ++ if r = .matched then [info] else [] := by
  cases r <;> simp [ScanResult.add]

theorem unreadable_add (result : ScanResult) (info : ProcInfo) (r : Route) :
    (result.add info r).unreadable = result.unreadable ++
      if r = .unreadable then [info] else [] := by
  cases r <;> simp [ScanResult.add]

/-- The buckets hold what is routed to them. -/
structure Holds (infos : List ProcInfo) (path : Text) (onlyUid : Option ℕ) (result : ScanResult) :
    Prop where
  matched : ∀ i, i ∈ result.matched ↔ i ∈ infos ∧ route path onlyUid i = .matched
  unreadable : ∀ i, i ∈ result.unreadable ↔ i ∈ infos ∧ route path onlyUid i = .unreadable

theorem mem_routed {info i : ProcInfo} {path : Text} {onlyUid : Option ℕ} (r : Route) :
    (i ∈ if route path onlyUid info = r then [info] else []) ↔
      i = info ∧ route path onlyUid i = r := by
  split
  · rename_i hr
    rw [List.mem_singleton]
    exact ⟨fun h ↦ ⟨h, h ▸ hr⟩, And.left⟩
  · rename_i hr
    refine iff_of_false List.not_mem_nil ?_
    rintro ⟨rfl, h⟩
    exact hr h

theorem Holds.add {infos : List ProcInfo} {path : Text} {onlyUid : Option ℕ} {result : ScanResult}
    (h : Holds infos path onlyUid result) (info : ProcInfo) :
    Holds (infos ++ [info]) path onlyUid (result.add info (route path onlyUid info)) := by
  constructor
  · intro i
    rw [matched_add, List.mem_append, mem_routed, h.matched, List.mem_append, List.mem_singleton,
      or_and_right]
  · intro i
    rw [unreadable_add, List.mem_append, mem_routed, h.unreadable, List.mem_append,
      List.mem_singleton, or_and_right]

namespace Table

variable (t : Table) (q : Query)

/-- The scan of the table. -/
def scanned : ScanResult := scan t.source q.path q.selfPid q.onlyUid q.excludeAncestors

/-- The scan leaves the process out. -/
def Skips (pid : ℕ) : Prop := pid ∈ skipped t.source q.selfPid q.excludeAncestors

theorem find_entry {e : Seen} (he : e ∈ t.entries) :
    (t.entries.find? fun e' ↦ e'.process.pid = e.process.pid) = some e := by
  have hsome : (t.entries.find? fun e' ↦ e'.process.pid = e.process.pid).isSome :=
    List.find?_isSome.mpr ⟨e, he, by simp⟩
  obtain ⟨e', hfind⟩ := Option.isSome_iff_exists.mp hsome
  have hpid : e'.process.pid = e.process.pid := by simpa using List.find?_some hfind
  rw [hfind, List.inj_on_of_nodup_map t.distinct (List.mem_of_find?_eq_some hfind) he hpid]

theorem source_info {e : Seen} (he : e ∈ t.entries) :
    t.source.info e.process.pid = some (e.process.info e.reads) := by
  unfold source
  simp only [t.find_entry he]

/-- What the scan looks at. -/
def looked : List ProcInfo :=
  (t.source.pids.filter (· ∉ skipped t.source q.selfPid q.excludeAncestors)).filterMap t.source.info

theorem mem_looked {i : ProcInfo} : i ∈ t.looked q ↔
    ∃ e ∈ t.entries, ¬t.Skips q e.process.pid ∧ i = e.process.info e.reads := by
  have hpids (pid : ℕ) : pid ∈ t.source.pids ↔ ∃ e ∈ t.entries, e.process.pid = pid := by
    unfold source
    rw [List.mem_mergeSort, List.mem_map]
  unfold looked
  simp only [List.mem_filterMap, List.mem_filter, hpids, decide_eq_true_eq]
  constructor
  · rintro ⟨_, ⟨⟨e, he, rfl⟩, hskip⟩, hinfo⟩
    rw [t.source_info he] at hinfo
    exact ⟨e, he, hskip, (Option.some.inj hinfo).symm⟩
  · rintro ⟨e, he, hskip, rfl⟩
    exact ⟨_, ⟨⟨e, he, rfl⟩, hskip⟩, t.source_info he⟩

theorem Holds.foldl {path : Text} {onlyUid : Option ℕ} {step : ScanResult → ℕ → ScanResult}
    {looked : ℕ → Option ProcInfo} (pids : List ℕ)
    (hstep : ∀ pid ∈ pids, ∀ infos result, Holds infos path onlyUid result →
      Holds (infos ++ (looked pid).toList) path onlyUid (step result pid))
    {infos : List ProcInfo} {result : ScanResult} (h : Holds infos path onlyUid result) :
    Holds (infos ++ pids.filterMap looked) path onlyUid (pids.foldl step result) := by
  induction pids generalizing infos result with
  | nil => simpa using h
  | cons pid pids ih =>
      obtain ⟨hpid, hpids⟩ := List.forall_mem_cons.mp hstep
      have hmore := ih hpids (hpid infos result h)
      cases hlooked : looked pid with
      | none => simpa [hlooked] using hmore
      | some i => simpa [hlooked] using hmore

theorem scanned_holds : Holds (t.looked q) q.path q.onlyUid (t.scanned q) := by
  have hsome : ∀ pid ∈ t.source.pids, ∃ i, t.source.info pid = some i := by
    intro pid _
    unfold source
    dsimp only
    split
    · exact ⟨_, rfl⟩
    · exact ⟨_, rfl⟩
  have hempty : Holds [] q.path q.onlyUid {} := ⟨by simp, by simp⟩
  unfold scanned scan looked
  rw [List.filterMap_filter]
  refine Holds.foldl _ (fun pid hpid infos result h ↦ ?_) hempty
  obtain ⟨i, hi⟩ := hsome pid hpid
  by_cases hskip : pid ∈ skipped t.source q.selfPid q.excludeAncestors
  · simpa [hskip] using h
  · simpa [hskip, hi] using h.add i

/-! ## Ancestors -/

def ParentOf (a b : ℕ) : Prop := ∃ e ∈ t.entries, e.process.pid = b ∧ e.process.ppid = a

abbrev Ancestor : ℕ → ℕ → Prop := Relation.TransGen t.ParentOf

theorem parentOf_walked {pid parent : ℕ} {i : ProcInfo} (h : t.source.walked pid = some i)
    (hparent : i.ppid = some parent) : t.ParentOf parent pid := by
  unfold source at h
  dsimp only at h
  split at h
  · rename_i e hfind
    obtain rfl := Option.some.inj h
    have hpid : e.process.pid = pid := by simpa using List.find?_some hfind
    refine ⟨e, List.mem_of_find?_eq_some hfind, hpid, ?_⟩
    unfold Process.info at hparent
    dsimp only at hparent
    split at hparent
    · exact Option.some.inj hparent
    · contradiction
  · obtain rfl := Option.some.inj h
    contradiction

theorem ancestorsFrom_sound (pid : ℕ) (k : ℕ) :
    ∀ (cur : Option ℕ) (out : List ℕ), (∀ a ∈ out, a = pid ∨ t.Ancestor a pid) →
      (∀ a ∈ cur, a = pid ∨ t.Ancestor a pid) →
      ∀ a ∈ ancestorsFrom t.source k cur out, a = pid ∨ t.Ancestor a pid := by
  induction k with
  | zero =>
      intro cur out hout _
      cases cur <;> exact hout
  | succ k ih =>
      intro cur out hout hcur
      cases cur with
      | none => exact hout
      | some cur =>
          have hcons : ∀ a ∈ out ++ [cur], a = pid ∨ t.Ancestor a pid := by
            intro a ha
            rcases List.mem_append.mp ha with ha | ha
            · exact hout a ha
            · obtain rfl := List.mem_singleton.mp ha
              exact hcur a rfl
          unfold ancestorsFrom
          split
          · exact hout
          · split
            · rename_i i hwalked
              refine ih i.ppid _ hcons fun parent hparent ↦ .inr ?_
              have hstep := t.parentOf_walked hwalked hparent
              rcases hcur cur rfl with rfl | hcur
              · exact .single hstep
              · exact .head hstep hcur
            · exact hcons

theorem skips_sound {pid : ℕ} (h : t.Skips q pid) : pid = q.selfPid ∨ t.Ancestor pid q.selfPid := by
  unfold Skips skipped at h
  rcases List.mem_cons.mp h with rfl | h
  · exact .inl rfl
  · split at h
    · refine t.ancestorsFrom_sound q.selfPid 64 _ [] (List.forall_mem_nil _) ?_ pid h
      rintro a ⟨⟩
      exact .inl rfl
    · contradiction

end Table

/-! ## Users of the path -/

namespace Seen

variable (e : Seen) (q : Query)

/-- It has the named regular file open. -/
def Opens (fd : Fd) : Prop := fd ∈ e.process.fds ∧ fd.regular = true ∧ 1 ≤ fd.links

/-- The file is read of it. -/
def Named (fd : Fd) : Prop :=
  e.Opens fd ∧ e.reads.fdList = true ∧ e.reads.link fd.number = true ∧
    e.reads.inode fd.number = true

def Uses : Prop := q.Inside e.process.cwd ∨ ∃ fd, e.Opens fd ∧ q.Inside fd.target

/-- What is read of it is in the path, and the path is one that the scan can see. -/
def Shown : Prop :=
  Plain q.path ∧
    (e.reads.cwd = .ok ∧ q.Inside e.process.cwd ∨ ∃ fd, e.Named fd ∧ q.Inside fd.target)

/-- Nothing of its places is read. -/
def Blank : Prop := e.reads.cwd ≠ .ok ∧ ∀ fd, ¬e.Named fd

/-- All of it is read. -/
structure Complete : Prop where
  owner : e.reads.owner = true
  cmdline : e.reads.cmdline = true
  cwd : e.reads.cwd = .ok
  stat : e.reads.stat = true
  fdList : e.reads.fdList = true
  links : ∀ fd ∈ e.process.fds, e.reads.link fd.number = true ∧ e.reads.inode fd.number = true

abbrev info : ProcInfo := e.process.info e.reads

theorem mem_files {text : Text} : text ∈ e.info.files ↔ ∃ fd, e.Named fd ∧
    fd.target.text = text := by
  unfold info Process.info Process.fdTexts
  dsimp only
  split
  · rename_i hlist
    rw [Option.getD_some, mem_sortedTexts, List.mem_map]
    refine exists_congr fun fd ↦ and_congr_left fun _ ↦ ?_
    simp only [Process.readFds, List.mem_filter, Bool.and_eq_true, decide_eq_true_eq, Named, Opens,
      hlist]
    tauto
  · rename_i hlist
    refine iff_of_false List.not_mem_nil ?_
    rintro ⟨fd, ⟨-, hlist', -⟩, -⟩
    exact hlist hlist'

theorem info_cwd : e.info.cwd = if e.reads.cwd = .ok then some e.process.cwd.text else none := rfl

theorem shows_iff : e.info.shows q.path = true ↔ e.Shown q := by
  unfold ProcInfo.shows
  rw [Bool.or_eq_true, info_cwd, List.any_eq_true]
  have hfiles : (∃ text ∈ e.info.files, under text q.path = true) ↔
      ∃ fd, e.Named fd ∧ Plain q.path ∧ q.Inside fd.target := by
    constructor
    · rintro ⟨text, htext, hunder⟩
      obtain ⟨fd, hfd, rfl⟩ := e.mem_files.mp htext
      exact ⟨fd, hfd, (q.under_iff _).mp hunder⟩
    · rintro ⟨fd, hfd, hinside⟩
      exact ⟨_, e.mem_files.mpr ⟨fd, hfd, rfl⟩, (q.under_iff _).mpr hinside⟩
  rw [hfiles]
  have hcwd : ((if e.reads.cwd = .ok then some e.process.cwd.text else none).any
      (under · q.path)) = true ↔ e.reads.cwd = .ok ∧ Plain q.path ∧ q.Inside e.process.cwd := by
    split
    · rename_i hok
      rw [Option.any_some, q.under_iff]
      exact (and_iff_right hok).symm
    · rename_i hok
      exact iff_of_false (by simp) fun h ↦ hok h.1
  rw [hcwd]
  unfold Shown
  constructor
  · rintro (⟨hok, hplain, h⟩ | ⟨fd, hfd, hplain, h⟩)
    · exact ⟨hplain, .inl ⟨hok, h⟩⟩
    · exact ⟨hplain, .inr ⟨fd, hfd, h⟩⟩
  · rintro ⟨hplain, ⟨hok, h⟩ | ⟨fd, hfd, h⟩⟩
    · exact .inl ⟨hok, hplain, h⟩
    · exact .inr ⟨fd, hfd, hplain, h⟩

theorem blank_iff : (!e.info.readable && e.info.cwd.isNone && e.info.files.isEmpty) = true ↔
    e.Blank := by
  have hfiles : e.info.files.isEmpty = true ↔ ∀ fd, ¬e.Named fd := by
    rw [List.isEmpty_iff, List.eq_nil_iff_forall_not_mem]
    constructor
    · exact fun h fd hfd ↦ h _ (e.mem_files.mpr ⟨fd, hfd, rfl⟩)
    · intro h text htext
      obtain ⟨fd, hfd, -⟩ := e.mem_files.mp htext
      exact h fd hfd
  have hcwd : e.info.cwd.isNone = true ↔ e.reads.cwd ≠ .ok := by
    rw [info_cwd]
    split <;> simp_all
  have hreadable : e.reads.cwd ≠ .ok → e.info.readable = false := by
    intro hne
    simp [info, Process.info, hne]
  rw [Bool.and_eq_true, Bool.and_eq_true, hfiles, hcwd]
  unfold Blank
  constructor
  · exact fun h ↦ ⟨h.1.2, h.2⟩
  · exact fun h ↦ ⟨⟨by rw [hreadable h.1]; rfl, h.1⟩, h.2⟩

end Seen

/-! ## Failing closed -/

variable (t : Table) (q : Query)

/-- A process of the scanned user that is alive, not the scanner or its ancestor, and that the
kernel does not protect. -/
structure Concerned (e : Seen) : Prop where
  mem : e ∈ t.entries
  alive : e.process.alive = true
  owned : ∀ only ∈ q.onlyUid, e.process.uid = only
  not_self : e.process.pid ≠ q.selfPid
  not_ancestor : ¬t.Ancestor e.process.pid q.selfPid
  not_denied : e.reads.cwd ≠ .denied

/-- A process that the path must not be taken from. -/
structure User (e : Seen) : Prop extends Concerned t q e where
  uses : e.Uses q

variable {t q}

theorem Concerned.not_skipped {e : Seen} (h : Concerned t q e) : ¬t.Skips q e.process.pid := by
  intro hskip
  rcases t.skips_sound q hskip with hself | hancestor
  · exact h.not_self hself
  · exact h.not_ancestor hancestor

/-- As far as it is read, it has not vanished, is not another user's and not protected. -/
structure Seen.Kept (e : Seen) (q : Query) : Prop where
  present : e.reads.present = true ∨ e.reads.cmdline = true ∧ e.reads.cwd = .ok ∧
    e.reads.stat = true ∧ e.reads.fdList = true
  owned : ∀ only ∈ q.onlyUid, e.reads.owner = true → e.process.uid = only
  not_protected : ¬(e.reads.cwd = .denied ∧ e.reads.stat = true)

theorem Seen.vanished_iff (e : Seen) : e.info.vanished = false ↔ e.reads.present = true ∨
    e.reads.cmdline = true ∧ e.reads.cwd = .ok ∧ e.reads.stat = true ∧ e.reads.fdList = true := by
  have hlist : (e.process.fdTexts e.reads).isSome = e.reads.fdList := by
    unfold Process.fdTexts
    split <;> simp_all
  simp only [Seen.info, Process.info, hlist]
  cases e.reads.present <;> simp [and_assoc]

theorem Seen.foreign_iff (e : Seen) (q : Query) :
    (q.onlyUid.any fun only ↦ e.info.uid.any (· ≠ only)) = false ↔
      ∀ only ∈ q.onlyUid, e.reads.owner = true → e.process.uid = only := by
  cases honly : q.onlyUid with
  | none => simp
  | some only => cases howner : e.reads.owner <;> simp [Seen.info, Process.info, howner]

theorem Seen.protected_iff (e : Seen) :
    e.info.protected_ = false ↔ ¬(e.reads.cwd = .denied ∧ e.reads.stat = true) := by
  cases hstat : e.reads.stat <;> simp [Seen.info, Process.info, hstat]

/-- What is kept is unreadable, matched, or dropped. -/
theorem Seen.Kept.route_eq {e : Seen} (h : e.Kept q) : route q.path q.onlyUid e.info =
    if !e.info.readable && e.info.cwd.isNone && e.info.files.isEmpty then .unreadable
    else if e.info.shows q.path then .matched else .elsewhere := by
  unfold route
  rw [e.vanished_iff.mpr h.present, (e.foreign_iff q).mpr h.owned,
    e.protected_iff.mpr h.not_protected]
  simp only [Bool.false_eq_true, if_false]

theorem Seen.Blank.not_shown {e : Seen} (h : e.Blank) : ¬e.Shown q := by
  rintro ⟨-, ⟨hok, -⟩ | ⟨fd, hfd, -⟩⟩
  · exact h.1 hok
  · exact h.2 fd hfd

theorem Seen.route_matched (e : Seen) (q : Query) :
    route q.path q.onlyUid e.info = .matched ↔ e.Kept q ∧ e.Shown q := by
  constructor
  · intro h
    unfold route at h
    split_ifs at h with hvanished hforeign hprotected _ hshows
    refine ⟨⟨?_, ?_, ?_⟩, (e.shows_iff q).mp hshows⟩
    · exact e.vanished_iff.mp (Bool.eq_false_iff.mpr hvanished)
    · exact (e.foreign_iff q).mp (Bool.eq_false_iff.mpr hforeign)
    · exact e.protected_iff.mp (Bool.eq_false_iff.mpr hprotected)
  · rintro ⟨hkept, hshown⟩
    have hblank : ¬(!e.info.readable && e.info.cwd.isNone && e.info.files.isEmpty) = true :=
      fun h ↦ Seen.Blank.not_shown (e.blank_iff.mp h) hshown
    rw [hkept.route_eq, if_neg hblank, if_pos ((e.shows_iff q).mpr hshown)]

theorem Concerned.kept {e : Seen} (h : Concerned t q e) : e.Kept q :=
  ⟨.inl (e.present_of_alive h.alive), fun only honly _ ↦ h.owned only honly,
    fun hdenied ↦ h.not_denied hdenied.1⟩

theorem Concerned.mem_looked {e : Seen} (h : Concerned t q e) : e.info ∈ t.looked q :=
  (t.mem_looked q).mpr ⟨e, h.mem, h.not_skipped, rfl⟩

theorem Concerned.matched_iff {e : Seen} (h : Concerned t q e) :
    e.info ∈ (t.scanned q).matched ↔ e.Shown q := by
  rw [(t.scanned_holds q).matched, and_iff_right h.mem_looked, e.route_matched q,
    and_iff_right h.kept]

theorem Concerned.unreadable_iff {e : Seen} (h : Concerned t q e) :
    e.info ∈ (t.scanned q).unreadable ↔ e.Blank := by
  rw [(t.scanned_holds q).unreadable, and_iff_right h.mem_looked, h.kept.route_eq, ← e.blank_iff]
  split
  · exact iff_of_true rfl ‹_›
  · refine iff_of_false ?_ ‹_›
    split <;> decide

variable (t q) in
/-- A process that the scan looks at shows that it uses the path. -/
def Matches : Prop := ∃ e ∈ t.entries, ¬t.Skips q e.process.pid ∧ e.Kept q ∧ e.Shown q

theorem matches_iff : Matches t q ↔ (t.scanned q).matched ≠ [] := by
  constructor
  · rintro ⟨e, he, hskip, hmatched⟩
    apply List.ne_nil_of_mem (a := e.info)
    rw [(t.scanned_holds q).matched]
    exact ⟨(t.mem_looked q).mpr ⟨e, he, hskip, rfl⟩, (e.route_matched q).mpr hmatched⟩
  · intro hne
    obtain ⟨i, hi⟩ := List.exists_mem_of_ne_nil _ hne
    obtain ⟨hlooked, hroute⟩ := ((t.scanned_holds q).matched i).mp hi
    obtain ⟨e, he, hskip, rfl⟩ := (t.mem_looked q).mp hlooked
    exact ⟨e, he, hskip, (e.route_matched q).mp hroute⟩

theorem shows_of_matched {i : ProcInfo} (hi : i ∈ (t.scanned q).matched) :
    i.shows q.path = true := by
  have hroute := (((t.scanned_holds q).matched i).mp hi).2
  unfold route at hroute
  split_ifs at hroute
  assumption

theorem not_shows_of_unreadable {i : ProcInfo} (hi : i ∈ (t.scanned q).unreadable) :
    i.shows q.path = false := by
  have hroute := (((t.scanned_holds q).unreadable i).mp hi).2
  unfold route at hroute
  split_ifs at hroute with _ _ _ hblank
  simp only [Bool.and_eq_true, Option.isNone_iff_eq_none, List.isEmpty_iff] at hblank
  simp [ProcInfo.shows, hblank.1.2, hblank.2]

/-- A path is safe to remove for the processes that the scan names if it matches none. -/
theorem safe_iff :
    (safeToRemove q.path ((t.scanned q).matched ++ (t.scanned q).unreadable)).1 = true ↔
    (t.scanned q).matched = [] := by
  have hunreadable : (t.scanned q).unreadable.filter (fun i ↦ i.shows q.path) = [] :=
    List.filter_eq_nil_iff.mpr fun i hi ↦ by simp [not_shows_of_unreadable hi]
  have hmatched : (t.scanned q).matched.filter (fun i ↦ i.shows q.path) = (t.scanned q).matched :=
    List.filter_eq_self.mpr fun i hi ↦ shows_of_matched hi
  unfold safeToRemove
  rw [List.filter_append, hunreadable, hmatched, List.append_nil]
  exact List.isEmpty_iff

variable (t q) in
/-- Where the scan is clean, or the path is approved for what it names, nothing uses the path; and
what uses it and was not read completely is named. -/
structure FailsClosed : Prop where
  clean : verdict (t.scanned q).matched (t.scanned q).unreadable = .clean → ∀ e, ¬User t q e
  safe : (safeToRemove q.path ((t.scanned q).matched ++ (t.scanned q).unreadable)).1 = true →
    ∀ e, ¬User t q e
  named : ∀ e, User t q e → ¬e.Complete →
    e.info ∈ (t.scanned q).matched ∨ e.info ∈ (t.scanned q).unreadable

/-- What is read completely shows that it uses a path that the scan can see. -/
theorem User.shown_of_complete {e : Seen} (h : User t q e) (hcomplete : e.Complete)
    (hplain : Plain q.path) : e.Shown q := by
  rcases h.uses with hcwd | ⟨fd, hfd, hinside⟩
  · exact ⟨hplain, .inl ⟨hcomplete.cwd, hcwd⟩⟩
  · obtain ⟨hlink, hinode⟩ := hcomplete.links fd hfd.1
    exact ⟨hplain, .inr ⟨fd, ⟨hfd, hcomplete.fdList, hlink, hinode⟩, hinside⟩⟩

theorem plain_of_matches (h : Matches t q) : Plain q.path := by
  obtain ⟨e, -, -, -, hplain, -⟩ := h
  exact hplain

/-- The scan fails closed if and only if all that uses the path shows it, or shows nothing of its
places while another process is matched. -/
theorem failsClosed_iff (t : Table) (q : Query) :
    FailsClosed t q ↔ ∀ e, User t q e → e.Shown q ∨ e.Blank ∧ Matches t q := by
  constructor
  · intro h e he
    have hmatches : Matches t q :=
      matches_iff.mpr fun hnil ↦ h.safe (safe_iff.mpr hnil) e he
    by_cases hcomplete : e.Complete
    · exact .inl (he.shown_of_complete hcomplete (plain_of_matches hmatches))
    · rcases h.named e he hcomplete with hmatched | hunreadable
      · exact .inl (he.matched_iff.mp hmatched)
      · exact .inr ⟨he.unreadable_iff.mp hunreadable, hmatches⟩
  · intro h
    have hmatched : ∀ e, User t q e → (t.scanned q).matched ≠ [] := by
      intro e he
      rcases h e he with hshown | ⟨-, hmatches⟩
      · exact List.ne_nil_of_mem (he.matched_iff.mpr hshown)
      · exact matches_iff.mp hmatches
    constructor
    · intro hclean e he
      have hne := hmatched e he
      unfold verdict at hclean
      split_ifs at hclean with _ hempty
      simp [hne] at hempty
    · exact fun hsafe e he ↦ hmatched e he (safe_iff.mp hsafe)
    · intro e he _
      rcases h e he with hshown | ⟨hblank, -⟩
      · exact .inl (he.matched_iff.mpr hshown)
      · exact .inr (he.unreadable_iff.mpr hblank)

/-! ## A scanner without descriptors -/

/-- A process with a log open in another place than its own. -/
def logger : Process where
  pid := 42
  uid := 1000
  ppid := 1
  argv := ["pytest"]
  cwd := ⟨["home".toList], by simp [IsPlace, IsName]⟩
  fds := [⟨3, ⟨["work".toList, "run.log".toList], by simp [IsPlace, IsName]⟩, true, 1⟩]
  alive := true

/-- Links and inodes can be read, and nothing that has to be opened. -/
def noDescriptors : Reads where
  owner := true
  cmdline := false
  cwd := .ok
  stat := false
  fdList := false
  link := fun _ ↦ true
  inode := fun _ ↦ true
  present := true

def unlisted : Seen := ⟨logger, noDescriptors, noDescriptors, fun _ ↦ rfl⟩

/-- The log is in the path, its process is not listed at all, and the path is clean. -/
theorem open_log_unseen : ¬∀ (t : Table) (q : Query), FailsClosed t q := by
  intro h
  let t : Table := ⟨[unlisted], List.nodup_singleton _⟩
  let q : Query := ⟨"/work".toList, 7, some 1000, true, ⟨[], List.forall_mem_nil _⟩⟩
  have hconcerned : Concerned t q unlisted := by
    refine ⟨List.mem_singleton_self _, rfl, ?_, by decide, ?_, by decide⟩
    · rintro only ⟨⟩
      rfl
    · intro hancestor
      obtain ⟨-, -, e, he, hpid, -⟩ := Relation.TransGen.tail'_iff.mp hancestor
      obtain rfl := List.mem_singleton.mp he
      exact absurd hpid (by decide)
  have huser : User t q unlisted := by
    refine ⟨hconcerned, .inr ⟨_, ⟨List.mem_singleton_self _, rfl, le_rfl⟩, by decide, ?_⟩⟩
    exact ⟨["run.log".toList], by decide⟩
  rcases (h t q).named unlisted huser (fun hcomplete ↦ by cases hcomplete.fdList) with hin | hin
  · obtain ⟨-, ⟨-, -, hcwd⟩ | ⟨fd, hfd, -⟩⟩ := hconcerned.matched_iff.mp hin
    · exact absurd hcwd (by decide)
    · cases hfd.2.1
  · exact (hconcerned.unreadable_iff.mp hin).1 rfl

end NucLlm.ProcScan
