import Mathlib.Algebra.Order.Field.Rat
import Mathlib.Data.List.Infix
import Mathlib.Data.List.Nodup
import OracleSkills.Python.Text

/-!
# What the watcher sees of the file system

`oracle-psi-watcher.ts` indexes the vaults' `ψ/memory/` trees. Its poll finds the vaults
(`discoverVaults`: the entries of two base directories that have a `ψ/memory`) and compresses
each of their trees to one number, the latest modification time of a `.md` file in it
(`maxMtimeMd`), which it finds with a stack of the directories that are still to be read.

`lt_maxMtimeMd_iff`: the number is above a bound exactly if the modification time of some `.md`
file of the tree is, or if `0` is.
-/

namespace OracleSkills.Watcher

open Python

/-! ### Trees -/

/-- What `statSync` and `readdirSync` say stands at a path. A modification time is a number of
milliseconds with a fraction. -/
inductive Node where
  | file (content : Text) (mtimeMs : ℚ)
  | dir (items : List (Text × Node))
  /-- A directory that `readdirSync` throws on. -/
  | closed
  /-- An entry that `statSync` throws on. -/
  | broken

/-- A `.md` file of a tree. -/
structure MdFile where
  path : List Text
  content : Text
  mtimeMs : ℚ
deriving DecidableEq

/-- `it.endsWith('.md')`. -/
def isMd (it : Text) : Bool := ".md".toList.isSuffixOf it

mutual

/-- The `.md` files below a directory. -/
def Node.mdFiles : Node → List MdFile
  | .dir items => mdFilesOf items
  | _ => []

def mdFilesOf : List (Text × Node) → List MdFile
  | [] => []
  | (it, .file content mtimeMs) :: items =>
    if isMd it then ⟨[it], content, mtimeMs⟩ :: mdFilesOf items else mdFilesOf items
  | (it, d) :: items => d.mdFiles.map (fun f => { f with path := it :: f.path }) ++ mdFilesOf items

end

mutual

/-- The directories of a tree. -/
def Node.dirs : Node → ℕ
  | .dir items => dirsOf items + 1
  | .closed => 1
  | _ => 0

def dirsOf : List (Text × Node) → ℕ
  | [] => 0
  | (_, d) :: items => d.dirs + dirsOf items

end

/-! ### The latest modification time -/

/-- The inner loop of `maxMtimeMd`, over what `readdirSync` gave: the directories are pushed, and
the times of the `.md` files taken into account. -/
def scan : List (Text × Node) → List Node × ℚ → List Node × ℚ
  | [], acc => acc
  | (_, .broken) :: items, acc => scan items acc
  | (it, .file _ mtimeMs) :: items, (stack, mx) =>
    scan items (stack, if isMd it then max mx mtimeMs else mx)
  | (_, d) :: items, (stack, mx) => scan items (d :: stack, mx)

/-- The outer loop, with as many turns as there are directories. -/
def maxLoop : ℕ → List Node → ℚ → ℚ
  | 0, _, mx => mx
  | _ + 1, [], mx => mx
  | turns + 1, .dir items :: stack, mx =>
    maxLoop turns (scan items (stack, mx)).1 (scan items (stack, mx)).2
  | turns + 1, _ :: stack, mx => maxLoop turns stack mx

/-- `maxMtimeMd`, of what stands at `dir`. Of a file it is `0`, since `readdirSync` throws. -/
def maxMtimeMd (dir : Node) : ℚ := maxLoop (dir.dirs + 1) [dir] 0

/-- The directories on a stack. -/
def stackDirs (stack : List Node) : ℕ := dirsOf (stack.map fun d => ([], d))

@[simp] theorem stackDirs_nil : stackDirs [] = 0 := by rw [stackDirs, List.map_nil, dirsOf]

@[simp] theorem stackDirs_cons (d : Node) (stack : List Node) :
    stackDirs (d :: stack) = d.dirs + stackDirs stack := by
  rw [stackDirs, List.map_cons, dirsOf, stackDirs]

/-- The inner loop moves the directories of the items to the stack. -/
theorem scan_dirs (items : List (Text × Node)) (stack : List Node) (mx : ℚ) :
    stackDirs (scan items (stack, mx)).1 = dirsOf items + stackDirs stack := by
  induction items generalizing stack mx with
  | nil => simp [scan, dirsOf]
  | cons i items ih =>
    obtain ⟨it, d⟩ := i
    cases d with
    | broken => simp [scan, dirsOf, Node.dirs, ih]
    | file content mtimeMs => simp [scan, dirsOf, Node.dirs, ih]
    | dir items' =>
      simp only [scan, dirsOf, ih, stackDirs_cons]
      omega
    | closed =>
      simp only [scan, dirsOf, ih, stackDirs_cons]
      omega

/-- What a stack and a time so far amount to: a bound that is below the time, or below that of a
file in one of the directories. -/
def Exceeds (stack : List Node) (mx b : ℚ) : Prop :=
  b < mx ∨ ∃ d ∈ stack, ∃ f ∈ d.mdFiles, b < f.mtimeMs

theorem exceeds_cons {d : Node} {stack : List Node} {mx b : ℚ} :
    Exceeds (d :: stack) mx b ↔ Exceeds stack mx b ∨ ∃ f ∈ d.mdFiles, b < f.mtimeMs := by
  simp only [Exceeds, List.mem_cons, exists_eq_or_imp]
  rw [or_assoc]
  exact or_congr Iff.rfl or_comm

theorem exceeds_max {stack : List Node} {mx t b : ℚ} :
    Exceeds stack (max mx t) b ↔ Exceeds stack mx b ∨ b < t := by
  simp only [Exceeds, lt_max_iff]
  exact or_right_comm

/-- The files of a directory among others. -/
theorem exists_mdFilesOf_cons {it : Text} {d : Node} {items : List (Text × Node)} {b : ℚ}
    (hd : ∀ content mtimeMs, d ≠ .file content mtimeMs) :
    (∃ f ∈ mdFilesOf ((it, d) :: items), b < f.mtimeMs) ↔
      (∃ f ∈ d.mdFiles, b < f.mtimeMs) ∨ ∃ f ∈ mdFilesOf items, b < f.mtimeMs := by
  have heq : mdFilesOf ((it, d) :: items) =
      d.mdFiles.map (fun f => { f with path := it :: f.path }) ++ mdFilesOf items := by
    cases d with
    | file content mtimeMs => exact absurd rfl (hd content mtimeMs)
    | _ => rw [mdFilesOf]; exact hd
  rw [heq]
  simp only [List.mem_append, List.mem_map, or_and_right, exists_or]
  apply or_congr _ Iff.rfl
  constructor
  · rintro ⟨f, ⟨g, hg, rfl⟩, hb⟩
    exact ⟨g, hg, hb⟩
  · rintro ⟨g, hg, hb⟩
    exact ⟨_, ⟨g, hg, rfl⟩, hb⟩

/-- What the inner loop leaves amounts to the same as the items and what was there. -/
theorem scan_exceeds (items : List (Text × Node)) (stack : List Node) (mx b : ℚ) :
    Exceeds (scan items (stack, mx)).1 (scan items (stack, mx)).2 b ↔
      Exceeds stack mx b ∨ ∃ f ∈ mdFilesOf items, b < f.mtimeMs := by
  induction items generalizing stack mx with
  | nil => simp [scan, mdFilesOf]
  | cons i items ih =>
    obtain ⟨it, d⟩ := i
    cases d with
    | broken =>
      rw [scan, ih, exists_mdFilesOf_cons (by simp)]
      simp [Node.mdFiles]
    | file content mtimeMs =>
      rw [scan, ih, mdFilesOf]
      split_ifs
      · rw [exceeds_max, or_assoc, List.exists_mem_cons_iff]
      · rfl
    | dir items' => rw [scan, ih, exists_mdFilesOf_cons (by simp), exceeds_cons, or_assoc] <;> simp
    | closed => rw [scan, ih, exists_mdFilesOf_cons (by simp), exceeds_cons, or_assoc] <;> simp

/-- The inner loop pushes directories only. -/
theorem scan_stack {items : List (Text × Node)} {stack : List Node} {mx : ℚ}
    (h : ∀ d ∈ stack, 0 < d.dirs) :
    ∀ d ∈ (scan items (stack, mx)).1, 0 < d.dirs := by
  induction items generalizing stack mx with
  | nil => exact h
  | cons i items ih =>
    obtain ⟨it, d⟩ := i
    cases d with
    | broken => exact ih h
    | file content mtimeMs => exact ih h
    | dir items' => exact ih (List.forall_mem_cons.mpr ⟨by rw [Node.dirs]; omega, h⟩)
    | closed => exact ih (List.forall_mem_cons.mpr ⟨by rw [Node.dirs]; omega, h⟩)

/-- **The outer loop** has turns enough, and gives the latest time. -/
theorem lt_maxLoop_iff {turns : ℕ} {stack : List Node} (hturns : stackDirs stack < turns)
    (h : ∀ d ∈ stack, 0 < d.dirs) (mx b : ℚ) : b < maxLoop turns stack mx ↔ Exceeds stack mx b := by
  induction turns generalizing stack mx with
  | zero => exact absurd hturns (Nat.not_lt_zero _)
  | succ turns ih =>
    cases stack with
    | nil => simp [maxLoop, Exceeds]
    | cons d stack =>
      obtain ⟨hd, hstack⟩ := List.forall_mem_cons.mp h
      rw [stackDirs_cons] at hturns
      cases d with
      | dir items =>
        rw [Node.dirs] at hturns
        rw [maxLoop, ih (by rw [scan_dirs]; omega) (scan_stack hstack), scan_exceeds, exceeds_cons,
          Node.mdFiles]
      | closed =>
        rw [Node.dirs] at hturns
        rw [maxLoop, ih (by omega) hstack, exceeds_cons]
        · simp [Node.mdFiles]
        · simp
      | file => exact absurd hd (by simp [Node.dirs])
      | broken => exact absurd hd (by simp [Node.dirs])

/-- **`maxMtimeMd`** exceeds a bound exactly if the time of a `.md` file in the tree does, or
`0`. -/
theorem lt_maxMtimeMd_iff (dir : Node) (b : ℚ) :
    b < maxMtimeMd dir ↔ b < 0 ∨ ∃ f ∈ dir.mdFiles, b < f.mtimeMs := by
  have hone : 0 < dir.dirs → (b < maxMtimeMd dir ↔ b < 0 ∨ ∃ f ∈ dir.mdFiles, b < f.mtimeMs) := by
    intro h
    rw [maxMtimeMd, lt_maxLoop_iff (by simp) (by simpa using h)]
    simp [Exceeds]
  cases dir with
  | dir items => exact hone (by rw [Node.dirs]; omega)
  | closed => exact hone (by rw [Node.dirs]; omega)
  | file content mtimeMs => simp [maxMtimeMd, maxLoop, Node.mdFiles, Node.dirs]
  | broken => simp [maxMtimeMd, maxLoop, Node.mdFiles, Node.dirs]

/-! ### The vaults -/

/-- The file system at one time: what `readdirSync` gives at a path, if it does not throw, and what
stands there. -/
structure World where
  readdir : Text → Option (List Text)
  node : Text → Option Node

/-- `BASES`: "base dirs whose immediate children may be oracle vaults". -/
def bases : List Text :=
  ["/home/chillox-intern/Desktop/soulbrew/github.com/fufu-2345".toList,
    "/home/chillox-intern".toList]

/-- `EXCLUDE`: "never index this stale orphan vault". -/
def exclude : List Text := ["/.arra-oracle-v2".toList]

/-- `join(base, e)`. -/
def join (base e : Text) : Text := base ++ '/' :: e

/-- `join(vault, 'ψ', 'memory')`. -/
def memoryDir (vault : Text) : Text := join (join vault "ψ".toList) "memory".toList

/-- The roots below one base that have a `ψ/memory`; none where the base cannot be read. -/
def vaultsBelow (world : World) (base : Text) : List Text :=
  match world.readdir base with
  | none => []
  | some entries => (entries.map (join base)).filter fun root =>
      ¬ (exclude.any fun x => x <:+: root) && (world.node (memoryDir root)).isSome

/-- What is added to a set, or to a queue that does not have it yet, comes last. -/
def add (out : List Text) (root : Text) : List Text := if root ∈ out then out else out ++ [root]

theorem mem_add {out : List Text} {a b : Text} : a ∈ add out b ↔ a ∈ out ∨ a = b := by
  rw [add]
  split_ifs with h
  · constructor
    · exact Or.inl
    · rintro (ha | rfl)
      · exact ha
      · exact h
  · rw [List.mem_append, List.mem_singleton]

theorem nodup_add {out : List Text} {b : Text} (h : out.Nodup) : (add out b).Nodup := by
  rw [add]
  split_ifs with hb
  · exact h
  · simpa using List.Nodup.concat hb h

/-- `discoverVaults`. -/
def discoverVaults (world : World) : List Text := (bases.flatMap (vaultsBelow world)).foldl add []

/-- No vault is listed twice. -/
theorem nodup_discoverVaults (world : World) : (discoverVaults world).Nodup := by
  have hfold : ∀ (roots out : List Text), out.Nodup → (roots.foldl add out).Nodup := by
    intro roots
    induction roots with
    | nil => exact fun _ h => h
    | cons root roots ih =>
      intro out h
      rw [List.foldl_cons]
      exact ih _ (nodup_add h)
  exact hfold _ [] List.nodup_nil

end OracleSkills.Watcher
