import Cascade.Files.Path

/-!
# File trees

The files that a command sees, as a value.  A place is the list of names that
leads to it from the working directory; places outside it start with a slash or
with a step up.  Paths are followed element by element: every element but the
last has to be a directory, and a failure names the action, the path and the
reason.

**Results.** What is written can be read back (`find?_set_self`), and writing
leaves every other place alone (`find?_set_other`).
-/

namespace Cascade

/-- A place in a file tree. -/
abbrev Place := List String

/-- What stands at a place. -/
inductive FileNode where
  | file (content : String)
  | directory
deriving Repr, DecidableEq, Inhabited

/-- Why an action on a file failed. -/
inductive FileReason where
  | missing
  | notDirectory
  | isDirectory
  | invalidName
deriving Repr, DecidableEq, Inhabited

/-- The words for a reason. -/
def FileReason.describe : FileReason → String
  | .missing => "no such file or directory"
  | .notDirectory => "not a directory"
  | .isDirectory => "is a directory"
  | .invalidName => "invalid argument"

/-- The actions on files. -/
inductive FileAction where
  | stat
  | access
  | read
  | mkdir
deriving Repr, DecidableEq, Inhabited

/-- The word for an action. -/
def FileAction.name : FileAction → String
  | .stat => "stat"
  | .access => "open"
  | .read => "read"
  | .mkdir => "mkdir"

/-- A failed action. -/
structure FileError where
  action : FileAction
  path : String
  reason : FileReason
deriving Repr, DecidableEq, Inhabited

/-- The line that reports a failed action. -/
def FileError.message (e : FileError) : String :=
  s!"{e.action.name} {e.path}: {e.reason.describe}"

/-- The files and directories below the working directory, and those beside it that a command has
been given. -/
structure Tree where
  entries : List (Place × FileNode) := []
deriving Repr, Inhabited

namespace Tree

/-- Places that are directories in every tree: the working directory, the root, and what lies
above the working directory. -/
def isFixed (place : Place) : Bool :=
  place.all fun name => name == "/" || name == ".."

/-- What stands at a place. -/
def find? (t : Tree) (place : Place) : Option FileNode :=
  if isFixed place then some .directory else t.entries.lookup place

/-- The tree with a new entry at a place. -/
def set (t : Tree) (place : Place) (node : FileNode) : Tree :=
  ⟨(place, node) :: t.entries.filter fun e => e.1 != place⟩

theorem find?_set_self {t : Tree} {place : Place} {node : FileNode}
    (h : isFixed place = false) : (t.set place node).find? place = some node := by
  simp [find?, set, h]

theorem lookup_filter_other {entries : List (Place × FileNode)} {place other : Place}
    (h : other ≠ place) :
    (entries.filter fun e => e.1 != place).lookup other = entries.lookup other := by
  induction entries with
  | nil => rfl
  | cons e es ih =>
    obtain ⟨key, value⟩ := e
    by_cases hk : key = place
    · subst hk
      have : (other == key) = false := by simpa using h
      simp [List.lookup_cons, this, ih]
    · have hk' : (key != place) = true := by simpa using hk
      by_cases ho : other = key
      · simp [hk', ho]
      · have : (other == key) = false := by simpa using ho
        simp [hk', List.lookup_cons, this, ih]

theorem find?_set_other {t : Tree} {place other : Place} {node : FileNode} (h : other ≠ place) :
    (t.set place node).find? other = t.find? other := by
  have : (other == place) = false := by simpa using h
  simp [find?, set, List.lookup_cons, this, lookup_filter_other h]

/-! ## Following paths -/

/-- The place around a place. -/
def above (place : Place) : Place :=
  match place.getLast? with
  | none => [".."]
  | some "/" => place
  | some ".." => place ++ [".."]
  | some _ => place.dropLast

/-- Follows one more element; what is followed from has to be a directory. -/
def step (t : Tree) (place : Place) (e : List Char) : Except FileReason Place :=
  match t.find? place with
  | none => .error .missing
  | some (.file _) => .error .notDirectory
  | some .directory =>
    if !Path.isPlain e then .ok place
    else if e = Path.up then .ok (above place)
    else .ok (place ++ [String.ofList e])

/-- The place that a path names; there need not be anything at it. -/
def follow (t : Tree) (path : String) : Except FileReason Place :=
  let cs := path.toList
  if cs.isEmpty then .error .missing
  else if cs.contains '\x00' then .error .invalidName
  else if Path.isRooted cs then (Path.elements (cs.drop 1)).foldlM t.step ["/"]
  else (Path.elements cs).foldlM t.step []

/-- What a path names. -/
def locate (t : Tree) (path : String) : Except FileReason (Place × FileNode) := do
  let place ← t.follow path
  match t.find? place with
  | some node => return (place, node)
  | none => throw .missing

/-! ## Actions -/

/-- What a path names. -/
def stat (t : Tree) (path : String) : Except FileError (Place × FileNode) :=
  (t.locate path).mapError (⟨.stat, path, ·⟩)

/-- The content of a file. -/
def read (t : Tree) (path : String) : Except FileError String :=
  match t.locate path with
  | .error reason => .error ⟨.access, path, reason⟩
  | .ok (_, .directory) => .error ⟨.read, path, .isDirectory⟩
  | .ok (_, .file content) => .ok content

/-- The tree with a file at a path. -/
def write (t : Tree) (path content : String) : Except FileError Tree :=
  match t.follow path with
  | .error reason => .error ⟨.access, path, reason⟩
  | .ok place =>
    match t.find? place, t.find? (above place) with
    | some .directory, _ => .error ⟨.access, path, .isDirectory⟩
    | some (.file _), _ => .ok (t.set place (.file content))
    | none, some .directory => .ok (t.set place (.file content))
    | none, some (.file _) => .error ⟨.access, path, .notDirectory⟩
    | none, none => .error ⟨.access, path, .missing⟩

/-- The beginnings of a list, from the shortest on. -/
def beginnings {α : Type} (xs : List α) : List (List α) :=
  (List.range xs.length).map fun n => xs.take (n + 1)

/-- The tree with the directory that a path names and all directories around it. -/
def makeDirectories (t : Tree) (path : String) : Except FileError Tree :=
  let rooted := Path.isRooted path.toList
  let names := Path.normalize rooted (Path.elements path.toList)
  (beginnings names).foldlM (fun t es => do
    let path := String.ofList (Path.render rooted es)
    let place := (if rooted then ["/"] else []) ++ es.map String.ofList
    match t.find? place with
    | some .directory => return t
    | some (.file _) => throw ⟨.mkdir, path, .notDirectory⟩
    | none => return t.set place .directory) t

/-! ## Walking -/

/-- The order in which a walk visits places: by their names, from the first on. -/
def placeLE : Place → Place → Bool
  | [], _ => true
  | _ :: _, [] => false
  | a :: as, b :: bs => decide (a < b) || (a == b && placeLE as bs)

/-- The names that lead from one place to another below it. -/
def below? : Place → Place → Option Place
  | [], name :: rest => some (name :: rest)
  | [], [] => none
  | _ :: _, [] => none
  | a :: as, b :: bs => if a = b then below? as bs else none

/-- The files below a place with the names that lead to them, in the order of a walk.  What stands
beside the working directory is not below it. -/
def filesBelow (t : Tree) (place : Place) : List (Place × String) :=
  let found := t.entries.filterMap fun e =>
    match e.2, below? place e.1 with
    | .file content, some names =>
      if ∀ name ∈ names, Path.IsName name.toList then some (names, content) else none
    | _, _ => none
  found.mergeSort fun a b => placeLE a.1 b.1

/-- The path of a file that a walk finds below a path. -/
def walkPath (root : String) (names : Place) : String :=
  String.ofList (Path.join (root.toList :: names.map String.toList))

/-- The tree of files given by their paths; a path that ends with a slash is a directory. -/
def ofFiles (files : List (String × String)) : Tree :=
  files.foldl (fun t f =>
    let names := (Path.normalize false (Path.elements f.1.toList)).map String.ofList
    let isDirectory := f.1.toList.getLast? == some '/'
    let t := (beginnings names.dropLast).foldl (·.set · .directory) t
    t.set names (if isDirectory then .directory else .file f.2)) {}

/-- The files below the working directory with their paths. -/
def toFiles (t : Tree) : List (String × String) :=
  t.entries.filterMap fun e =>
    match e.2 with
    | .file content =>
      if e.1.head? == some "/" || e.1.head? == some ".." then none
      else some (String.intercalate "/" e.1, content)
    | .directory => none

end Tree
end Cascade
