import OracleSkills.Python.Text

/-!
# Paths

`os.path.normpath`, `basename`, `isabs`, `join` and `commonpath` on a POSIX system: functions of the
text of a path, which do not look at the disk.
-/

namespace Python

/-- One component on the way through a path: empty ones and `.` are dropped, and `..` takes the
component before it away, unless there is none to take. -/
def normComponent (rooted : Bool) (comps : List Text) (comp : Text) : List Text :=
  if comp = [] ∨ comp = ['.'] then comps
  else if comp ≠ ['.', '.'] ∨ (!rooted ∧ comps = []) ∨ comps.getLast? = some ['.', '.'] then
    comps ++ [comp]
  else comps.dropLast

/-- `os.path.normpath(path)`: "POSIX allows one or two initial slashes, but treats three or more as
single slash". -/
def normpath (path : Text) : Text :=
  let slashes :=
    if ¬ ['/'].isPrefixOf path then []
    else if ['/', '/'].isPrefixOf path ∧ ¬ ['/', '/', '/'].isPrefixOf path then ['/', '/']
    else ['/']
  let comps := (path.splitOn '/').foldl (normComponent (slashes ≠ [])) []
  let normal := slashes ++ join ['/'] comps
  if normal = [] then ['.'] else normal

/-- `os.path.basename(path)`: what stands behind the last slash. -/
def basename (path : Text) : Text := path.rtakeWhile (· ≠ '/')

example : normpath "/srv//a/./b/../jack-oracle/".toList = "/srv/a/jack-oracle".toList := by decide

/-- `os.path.isabs(path)`. -/
def isabs (path : Text) : Bool := ['/'].isPrefixOf path

/-- `os.path.join(a, b)`. -/
def joinPath (a b : Text) : Text :=
  if isabs b then b
  else if a = [] ∨ a.getLast? = some '/' then a ++ b
  else a ++ '/' :: b

/-- The components that two paths have in common, from the first on. -/
def commonPrefix : List Text → List Text → List Text
  | c :: cs, d :: ds => if c = d then c :: commonPrefix cs ds else []
  | _, _ => []

/-- The components of a path without the empty ones and `.`. -/
def components (path : Text) : List Text := (path.splitOn '/').filter fun c => c ≠ [] ∧ c ≠ ['.']

/-- `os.path.commonpath([a, b])`, `none` where it raises: "Can't mix absolute and relative
paths". -/
def commonpath (a b : Text) : Option Text :=
  if isabs a ≠ isabs b then none
  else some ((if isabs a then ['/'] else []) ++
    join ['/'] (commonPrefix (components a) (components b)))

theorem commonPrefix_eq_left_iff {as bs : List Text} : commonPrefix as bs = as ↔ as <+: bs := by
  induction as generalizing bs with
  | nil => simp [commonPrefix]
  | cons a as ih =>
    cases bs with
    | nil => simp [commonPrefix]
    | cons b bs =>
      rw [commonPrefix, List.cons_prefix_cons]
      split_ifs with hab
      · rw [List.cons.injEq, ih]
        exact ⟨fun h => ⟨hab, h.2⟩, fun h => ⟨rfl, h.2⟩⟩
      · simp [hab]

theorem commonPrefix_subset (as bs : List Text) : commonPrefix as bs ⊆ as := by
  induction as generalizing bs with
  | nil => simp [commonPrefix]
  | cons a as ih =>
    cases bs with
    | nil => simp [commonPrefix]
    | cons b bs =>
      rw [commonPrefix]
      split_ifs
      · exact List.cons_subset_cons a (ih bs)
      · exact List.nil_subset _

end Python
