import Mathlib.Data.List.DropRight

/-!
# Paths as texts

`os.path.normpath`, and the place that an absolute path leads to: the names on
the way from the root.  A path of the host is the text of a place, and whether
it begins with the text of another is whether the one place is in the other.
-/

namespace NucLlm.PosixPath

/-- A part of a path joins the parts before it. -/
def push (slashes : ℕ) (parts : List (List Char)) (part : List Char) : List (List Char) :=
  if part = [] ∨ part = ['.'] then parts
  else if part ≠ ['.', '.'] ∨ (slashes = 0 ∧ parts = []) ∨ parts.getLast? = some ['.', '.'] then
    parts ++ [part]
  else parts.dropLast

/-- The slashes that are kept at the head of a path. -/
def slashes : List Char → ℕ
  | '/' :: '/' :: '/' :: _ => 1
  | '/' :: '/' :: _ => 2
  | '/' :: _ => 1
  | _ => 0

/-- `os.path.normpath`. -/
def normpath (path : List Char) : List Char :=
  let parts := (path.splitOn '/').foldl (push (slashes path)) []
  let text := List.replicate (slashes path) '/' ++ ['/'].intercalate parts
  if text = [] then ['.'] else text

/-! ## Places -/

/-- A part of an absolute path, on the way from the root. -/
def walk (names : List (List Char)) (part : List Char) : List (List Char) :=
  if part = [] ∨ part = ['.'] then names
  else if part = ['.', '.'] then names.dropLast
  else names ++ [part]

/-- The place that an absolute path leads to. -/
def place (path : List Char) : List (List Char) := (path.splitOn '/').foldl walk []

def IsName (name : List Char) : Prop :=
  name ≠ [] ∧ name ≠ ['.'] ∧ name ≠ ['.', '.'] ∧ '/' ∉ name

def IsPlace (names : List (List Char)) : Prop := ∀ name ∈ names, IsName name

/-- The text of a place. -/
def render (names : List (List Char)) : List Char := '/' :: ['/'].intercalate names

theorem not_mem_splitOn {part path : List Char} (h : part ∈ path.splitOn '/') : '/' ∉ part := by
  induction path generalizing part with
  | nil =>
      obtain rfl := List.mem_singleton.mp h
      exact List.not_mem_nil
  | cons c path ih =>
      rw [List.splitOn_cons_eq_if_modifyHead] at h
      split at h
      · rcases List.mem_cons.mp h with rfl | h
        · exact List.not_mem_nil
        · exact ih h
      · rename_i hc
        cases hsplit : path.splitOn '/' with
        | nil => exact absurd hsplit (List.splitOn_ne_nil _ _)
        | cons first rest =>
            rw [hsplit] at h ih
            rcases List.mem_cons.mp h with rfl | h
            · intro hmem
              rcases List.mem_cons.mp hmem with rfl | hmem
              · exact hc (beq_self_eq_true '/')
              · exact ih List.mem_cons_self hmem
            · exact ih (List.mem_cons_of_mem _ h)

theorem IsPlace.walk {names : List (List Char)} (h : IsPlace names) {part : List Char}
    (hpart : '/' ∉ part) : IsPlace (walk names part) := by
  unfold PosixPath.walk
  split
  · exact h
  · rename_i hdot
    obtain ⟨hne, hdot⟩ := not_or.mp hdot
    split
    · exact fun name hname ↦ h name (List.dropLast_subset _ hname)
    · rename_i hdots
      intro name hname
      rcases List.mem_append.mp hname with hname | hname
      · exact h name hname
      · obtain rfl := List.mem_singleton.mp hname
        exact ⟨hne, hdot, hdots, hpart⟩

theorem IsPlace.foldl {parts : List (List Char)} (hparts : ∀ part ∈ parts, '/' ∉ part)
    {names : List (List Char)} (h : IsPlace names) :
      IsPlace (parts.foldl PosixPath.walk names) := by
  induction parts generalizing names with
  | nil => exact h
  | cons part parts ih =>
      obtain ⟨hpart, hparts⟩ := List.forall_mem_cons.mp hparts
      exact ih hparts (h.walk hpart)

theorem isPlace_place (path : List Char) : IsPlace (place path) :=
  IsPlace.foldl (fun _ h ↦ not_mem_splitOn h) (List.forall_mem_nil _)

theorem walk_name {name : List Char} (h : IsName name) (names : List (List Char)) :
    walk names name = names ++ [name] := by
  unfold walk
  rw [if_neg (not_or.mpr ⟨h.1, h.2.1⟩), if_neg h.2.2.1]

theorem foldl_walk {names : List (List Char)} (h : IsPlace names) (before : List (List Char)) :
    names.foldl walk before = before ++ names := by
  induction names generalizing before with
  | nil => exact (List.append_nil before).symm
  | cons name names ih =>
      obtain ⟨hname, hnames⟩ := List.forall_mem_cons.mp h
      rw [List.foldl_cons, walk_name hname, ih hnames, List.append_assoc]
      rfl

/-- In an absolute path `..` takes a name away. -/
theorem push_eq_walk {n : ℕ} (hn : n ≠ 0) {names : List (List Char)} (h : IsPlace names)
    (part : List Char) : push n names part = walk names part := by
  have hlast : names.getLast? ≠ some ['.', '.'] :=
    fun hlast ↦ (h _ (List.mem_of_getLast? hlast)).2.2.1 rfl
  unfold push walk
  split
  · rfl
  · by_cases hdots : part = ['.', '.']
    · rw [if_pos hdots, if_neg]
      rintro (hne | ⟨hzero, -⟩ | hlast')
      · exact hne hdots
      · exact hn hzero
      · exact hlast hlast'
    · rw [if_neg hdots, if_pos (.inl hdots)]

theorem foldl_push {n : ℕ} (hn : n ≠ 0) (parts : List (List Char))
    (hparts : ∀ part ∈ parts, '/' ∉ part) {names : List (List Char)} (h : IsPlace names) :
    parts.foldl (push n) names = parts.foldl walk names := by
  induction parts generalizing names with
  | nil => rfl
  | cons part parts ih =>
      obtain ⟨hpart, hparts⟩ := List.forall_mem_cons.mp hparts
      rw [List.foldl_cons, List.foldl_cons, push_eq_walk hn h, ih hparts (h.walk hpart)]

/-- A path that begins with one slash, or with more than two. -/
theorem normpath_absolute {path : List Char} (h : slashes path = 1) :
    normpath path = render (place path) := by
  unfold normpath
  rw [h, foldl_push Nat.one_ne_zero _ (fun _ h ↦ not_mem_splitOn h) (List.forall_mem_nil _)]
  exact if_neg (List.cons_ne_nil _ _)

/-- A path that begins with two slashes keeps both. -/
theorem normpath_double {path : List Char} (h : slashes path = 2) :
    normpath path = '/' :: render (place path) := by
  unfold normpath
  rw [h, foldl_push (by decide) _ (fun _ h ↦ not_mem_splitOn h) (List.forall_mem_nil _)]
  exact if_neg (List.cons_ne_nil _ _)

theorem foldl_push_parts {n : ℕ} (parts : List (List Char)) (hparts : ∀ part ∈ parts, '/' ∉ part) :
    ∀ before : List (List Char), (∀ part ∈ before, part ≠ [] ∧ '/' ∉ part) →
      ∀ part ∈ parts.foldl (push n) before, part ≠ [] ∧ '/' ∉ part := by
  induction parts with
  | nil => exact fun before h ↦ h
  | cons part parts ih =>
      intro before h
      obtain ⟨hpart, hparts⟩ := List.forall_mem_cons.mp hparts
      refine ih hparts _ fun part' hpart' ↦ ?_
      unfold push at hpart'
      split at hpart'
      · exact h part' hpart'
      · rename_i hne
        split at hpart'
        · rcases List.mem_append.mp hpart' with hpart' | hpart'
          · exact h part' hpart'
          · obtain rfl := List.mem_singleton.mp hpart'
            exact ⟨(not_or.mp hne).1, hpart⟩
        · exact h part' (List.dropLast_subset _ hpart')

theorem intercalate_head {parts : List (List Char)} (h : ∀ part ∈ parts, part ≠ [] ∧ '/' ∉ part)
    (hne : parts ≠ []) : ∃ c rest, ['/'].intercalate parts = c :: rest ∧ c ≠ '/' := by
  obtain ⟨first, parts, rfl⟩ := List.exists_cons_of_ne_nil hne
  obtain ⟨⟨hfirst, hslash⟩, -⟩ := List.forall_mem_cons.mp h
  obtain ⟨c, first, rfl⟩ := List.exists_cons_of_ne_nil hfirst
  have hc : c ≠ '/' := fun hc ↦ hslash (hc ▸ List.mem_cons_self)
  cases parts with
  | nil => exact ⟨c, first, by simp, hc⟩
  | cons second parts => exact ⟨c, _, by rw [List.intercalate_cons_cons]; rfl, hc⟩

/-- A relative path stays one. -/
theorem normpath_relative {path : List Char} (h : slashes path = 0) :
    ∃ c rest, normpath path = c :: rest ∧ c ≠ '/' := by
  unfold normpath
  rw [h]
  have hparts := foldl_push_parts (n := 0) (path.splitOn '/') (fun _ h ↦ not_mem_splitOn h) []
    (List.forall_mem_nil _)
  generalize (path.splitOn '/').foldl (push 0) [] = parts at hparts
  dsimp only
  rw [List.replicate_zero, List.nil_append]
  by_cases hne : parts = []
  · subst hne
    exact ⟨'.', [], rfl, by decide⟩
  · obtain ⟨c, rest, htext, hc⟩ := intercalate_head hparts hne
    rw [htext, if_neg (List.cons_ne_nil _ _)]
    exact ⟨c, rest, rfl, hc⟩

theorem slashes_cases (path : List Char) :
    slashes path = 0 ∨ slashes path = 1 ∨ slashes path = 2 := by
  unfold slashes
  split <;> decide

/-! ## Texts of places -/

theorem splitOn_intercalate {names : List (List Char)} (h : IsPlace names) (hne : names ≠ []) :
    (['/'].intercalate names).splitOn '/' = names :=
  List.splitOn_intercalate '/' (fun name hname ↦ (h name hname).2.2.2) hne

theorem splitOn_render {names : List (List Char)} (h : IsPlace names) (hne : names ≠ []) :
    (render names).splitOn '/' = [] :: names := by
  unfold render
  rw [List.splitOn_cons_eq_if_modifyHead, if_pos (beq_self_eq_true '/'), splitOn_intercalate h hne]

theorem place_render {names : List (List Char)} (h : IsPlace names) :
    place (render names) = names := by
  by_cases hne : names = []
  · subst hne
    rfl
  · unfold place
    rw [splitOn_render h hne, List.foldl_cons]
    exact foldl_walk h []

theorem render_inj {names names' : List (List Char)} (h : IsPlace names) (h' : IsPlace names') :
    render names = render names' ↔ names = names' := by
  constructor
  · intro heq
    rw [← place_render h, heq, place_render h']
  · exact congrArg render

theorem slashes_render {names : List (List Char)} (h : IsPlace names) :
    slashes (render names) = 1 := by
  cases names with
  | nil => rfl
  | cons name names =>
      obtain ⟨⟨hne, -, -, hslash⟩, -⟩ := List.forall_mem_cons.mp h
      cases name with
      | nil => exact absurd rfl hne
      | cons c name =>
          have hc : c ≠ '/' := fun hc ↦ hslash (hc ▸ List.mem_cons_self)
          cases names with
          | nil => simp [render, slashes, hc]
          | cons _ _ => simp [render, slashes, List.intercalate_cons_cons, hc]

/-! ## Places in places -/

/-- A text without its slashes at the end. -/
def stripSlashes (path : List Char) : List Char := path.rdropWhile (· = '/')

/-- The text of a place, and nothing for the root. -/
def body (names : List (List Char)) : List Char := names.flatMap fun name ↦ '/' :: name

theorem body_append (names rest : List (List Char)) :
    body (names ++ rest) = body names ++ body rest :=
  List.flatMap_append

theorem render_eq_body {names : List (List Char)} (hne : names ≠ []) :
    render names = body names := by
  induction names with
  | nil => exact absurd rfl hne
  | cons name names ih =>
      cases names with
      | nil => simp [render, body]
      | cons name' names =>
          have hrest : render (name' :: names) = body (name' :: names) := ih (List.cons_ne_nil _ _)
          have hbody : body (name :: name' :: names) = '/' :: name ++ body (name' :: names) := rfl
          rw [hbody, ← hrest]
          simp [render, List.intercalate_cons_cons]

theorem splitOn_body {names : List (List Char)} (h : IsPlace names) :
    (body names).splitOn '/' = [] :: names := by
  by_cases hne : names = []
  · subst hne
    rfl
  · rw [← render_eq_body hne, splitOn_render h hne]

theorem stripSlashes_render {names : List (List Char)} (h : IsPlace names) :
    stripSlashes (render names) = body names := by
  rcases names.eq_nil_or_concat' with rfl | ⟨names, name, rfl⟩
  · rfl
  · rw [render_eq_body (by simp), body_append]
    obtain ⟨hne, -, -, hslash⟩ := h name (by simp)
    obtain ⟨first, c, rfl⟩ := name.eq_nil_or_concat'.resolve_left hne
    have hc : c ≠ '/' := fun hc ↦ hslash (by simp [hc])
    have hbody : body names ++ body [first ++ [c]] = (body names ++ '/' :: first) ++ [c] := by
      simp [body]
    unfold stripSlashes
    rw [hbody, List.rdropWhile_concat_neg _ _ _ (by simpa using hc)]

/-- A place is in another, or is it, if its text is the other's or goes on after it with a slash. -/
theorem isPrefix_iff {names root : List (List Char)} (h : IsPlace names) (hroot : IsPlace root) :
    (render names = render root ∨ stripSlashes (render root) ++ ['/'] <+: render names) ↔
      root <+: names := by
  rw [stripSlashes_render hroot]
  constructor
  · rintro (heq | ⟨t, ht⟩)
    · obtain rfl := (render_inj h hroot).mp heq
      exact List.prefix_rfl
    · rw [List.append_assoc, List.singleton_append] at ht
      have hsplit := congrArg (List.splitOn '/') ht
      rw [List.splitOn_append_cons_self, splitOn_body hroot] at hsplit
      by_cases hne : names = []
      · subst hne
        have hnil : root = [] := by
          have hlength := congrArg List.length hsplit
          have hpos := List.length_pos_iff.mpr (List.splitOn_ne_nil '/' t)
          rw [List.length_append, List.length_cons] at hlength
          have htwo : ((render []).splitOn '/').length = 2 := rfl
          rw [htwo] at hlength
          exact List.length_eq_zero_iff.mp (by omega)
        exact hnil ▸ List.nil_prefix
      · rw [splitOn_render h hne, List.cons_append] at hsplit
        exact ⟨_, (List.cons.inj hsplit).2⟩
  · rintro ⟨rest, rfl⟩
    cases rest with
    | nil => exact .inl (by rw [List.append_nil])
    | cons name rest =>
        right
        rw [render_eq_body (by simp), body_append]
        exact ⟨name ++ body rest, by simp [body]⟩

theorem stripSlashes_cons {c : Char} {path : List Char} (h : stripSlashes path ≠ []) :
    stripSlashes (c :: path) = c :: stripSlashes path := by
  unfold stripSlashes List.rdropWhile at *
  have hne : path.reverse.dropWhile (· = '/') ≠ [] := fun hnil ↦ h (by rw [hnil]; rfl)
  rw [List.reverse_cons, List.dropWhile_append, if_neg (by simpa using hne), List.reverse_concat]

theorem stripSlashes_relative {c : Char} (hc : c ≠ '/') (path : List Char) :
    ∃ rest, stripSlashes (c :: path) = c :: rest := by
  by_cases h : stripSlashes path = []
  · refine ⟨[], ?_⟩
    unfold stripSlashes List.rdropWhile at *
    have hnil : path.reverse.dropWhile (· = '/') = [] := List.reverse_eq_nil_iff.mp h
    rw [List.reverse_cons, List.dropWhile_append, if_pos (by simpa using hnil),
      List.dropWhile_cons_of_neg (by simpa using hc)]
    rfl
  · exact ⟨_, stripSlashes_cons h⟩

/-- The text of a place has one slash at its head. -/
theorem render_ne_double {names : List (List Char)} (h : IsPlace names) (rest : List Char) :
    render names ≠ '/' :: '/' :: rest := by
  intro heq
  by_cases hne : names = []
  · subst hne
    exact absurd (List.cons.inj heq).2 (by simp)
  · have hsplit := congrArg (List.splitOn '/') heq
    rw [splitOn_render h hne, List.splitOn_cons_eq_if_modifyHead, if_pos (beq_self_eq_true '/'),
      List.splitOn_cons_eq_if_modifyHead, if_pos (beq_self_eq_true '/')] at hsplit
    have hnames := (List.cons.inj hsplit).2
    rw [hnames] at h
    exact (h [] List.mem_cons_self).1 rfl

end NucLlm.PosixPath
