import InstallScript.File.Path
import InstallScript.Text.Encoding

/-!
Files and directories, held in memory. A path is followed piece by piece from the working directory,
and each operation fails as it does on disk.
-/

namespace InstallScript

/-- Why a file operation fails. -/
inductive FileFault
  | notFound
  | isDirectory
  | notDirectory
  | occupied
  | notFile
  | nulInPath
  | tooLong
  | notText (f : DecodeFault)
deriving DecidableEq, Repr

def FileFault.message : FileFault → String
  | notFound => "No such file or directory (os error 2)"
  | isDirectory => "Is a directory (os error 21)"
  | notDirectory => "Not a directory (os error 20)"
  | occupied => "File exists (os error 17)"
  | notFile => "the source path is neither a regular file nor a symlink to a regular file"
  | nulInPath => "file name contained an unexpected NUL byte"
  | tooLong => "File name too long (os error 36)"
  | notText f => f.message

inductive Node
  | directory
  | file (content : Bytes)
deriving DecidableEq, Repr

/-- A place in a tree: the names on the way from the top. -/
abbrev Place := List String

/-- The nodes by their places. The top is a directory without an entry. -/
structure Tree where
  entries : List (Place × Node) := []
  workDir : Place := []
deriving DecidableEq, Repr

/-- Sets the entry of a place. -/
def putNode (p : Place) (n : Node) : List (Place × Node) → List (Place × Node)
  | [] => [(p, n)]
  | e :: es => if e.1 = p then (p, n) :: es else e :: putNode p n es

namespace Tree

def node? (t : Tree) (p : Place) : Option Node :=
  if p = [] then some .directory else t.entries.lookup p

def put (t : Tree) (p : Place) (n : Node) : Tree := { t with entries := putNode p n t.entries }

/-- Makes sure of the directories on the way from `top` along further names. -/
def makeWay (t : Tree) (top : Place) : List String → Tree
  | [] => t
  | n :: ns =>
    let here := top ++ [n]
    makeWay (if (t.node? here).isNone then t.put here .directory else t) here ns

/-! ### Following paths -/

/-- The length of a name or a path on disk. -/
def size (s : String) : Nat := (Encoding.utf8.encode s).length

/-- No file or directory has a longer name. -/
def maxName : Nat := 255

/-- No path is longer. -/
def maxPath : Nat := 4095

/-- Follows pieces from a place. What has further pieces has to be a directory. -/
def follow (t : Tree) (p : Place) : List String → Except FileFault Place
  | [] => .ok p
  | b :: bs =>
    match t.node? p with
    | none => .error .notFound
    | some (.file _) => .error .notDirectory
    | some .directory =>
      if !Path.isStep b then follow t p bs
      else if b = ".." then follow t p.dropLast bs
      else if maxName < size b then .error .tooLong
      else if (t.node? (p ++ [b])).isNone then .error .notFound
      else follow t (p ++ [b]) bs

/-- Where a path starts, and its pieces; an empty path leads nowhere. -/
def start (t : Tree) (path : Path) : Except FileFault (Place × List String) :=
  if path.text.toList.contains '\x00' then .error .nulInPath
  else if maxPath < size path.text then .error .tooLong
  else if path.text = "" then .error .notFound
  else if path.isAbsolute then .ok ([], path.split.2)
  else .ok (t.workDir, Path.pieces path.text)

/-- The place of an existing file or directory. -/
def locate (t : Tree) (path : Path) : Except FileFault Place := do
  let (p, bs) ← t.start path
  t.follow p bs

def contains (t : Tree) (path : Path) : Bool := (t.locate path).isOk

def isDirectory (t : Tree) (path : Path) : Bool :=
  match t.locate path with
  | .ok p => t.node? p = some .directory
  | .error _ => false

/-- The content of a file. -/
def read (t : Tree) (path : Path) : Except FileFault Bytes := do
  match t.node? (← t.locate path) with
  | some (.file bs) => .ok bs
  | some .directory => .error .isDirectory
  | none => .error .notFound

/-- The directory in which the last piece of a path is looked up, that piece if the path names one,
and whether a slash follows it. -/
def locateLast (t : Tree) (path : Path) : Except FileFault (Place × Option String × Bool) := do
  let (p, bs) ← t.start path
  let back := bs.reverse.dropWhile (· = "")
  let dir ← t.follow p (back.tail.reverse ++ ["."])
  return (dir, back.head?.filter fun b => b ≠ "." && b ≠ "..", bs.getLast? = some "")

/-! ### Changing the tree -/

/-- Writes a file, which may be there before. -/
def write (t : Tree) (path : Path) (content : Bytes) : Except FileFault Tree := do
  match ← t.locateLast path with
  | (dir, some name, false) =>
    if maxName < size name then .error .tooLong
    else if t.node? (dir ++ [name]) = some .directory then .error .isDirectory
    else .ok (t.put (dir ++ [name]) (.file content))
  | _ => .error .isDirectory

/-- Makes a directory in one that is there. -/
def makeDir (t : Tree) (path : Path) : Except FileFault Tree := do
  match ← t.locateLast path with
  | (dir, some name, _) =>
    if maxName < size name then .error .tooLong
    else if (t.node? (dir ++ [name])).isSome then .error .occupied
    else .ok (t.put (dir ++ [name]) .directory)
  | _ => .error .occupied

/-- A directory that could not be made is as good as made if it is there. -/
def orThere (t : Tree) (p : Path) (f : FileFault) : Except FileFault Unit :=
  if t.isDirectory p then .ok () else .error f

/-- Makes the first of the given directories, each of which lies in the next. What has been made stays
when a later one fails. -/
def makeDirs (t : Tree) : List Path → Except FileFault Unit × Tree
  | [] => (.ok (), t)
  | p :: above =>
    match t.makeDir p with
    | .ok t => (.ok (), t)
    | .error .notFound =>
      match t.makeDirs above with
      | (.error f, t) => (.error f, t)
      | (.ok _, t) =>
        match t.makeDir p with
        | .ok t => (.ok (), t)
        | .error f => (t.orThere p f, t)
    | .error f => (t.orThere p f, t)

/-- Copies a file. -/
def copy (t : Tree) (source target : Path) : Except FileFault Tree := do
  match t.node? (← t.locate source) with
  | some (.file bs) => t.write target bs
  | some .directory => .error .notFile
  | none => .error .notFound

/-! ### Trees from lists of files -/

/-- A tree with nothing but a working directory. -/
def empty (workDir : Place) : Tree := ({ workDir } : Tree).makeWay [] workDir

/-- Adds a file, or a directory for a name that ends in a slash, with the directories above it. -/
def add (t : Tree) (name : String) (content : Bytes) : Tree :=
  let steps := (Path.pieces name).filter Path.isStep
  if name.toList.getLast? = some '/' then t.makeWay t.workDir steps
  else (t.makeWay t.workDir steps.dropLast).put (t.workDir ++ steps) (.file content)

/-- The files below the working directory, by their names seen from there. -/
def files (t : Tree) : List (String × Bytes) :=
  t.entries.filterMap fun (p, n) =>
    match n with
    | .file bs =>
      if t.workDir.isPrefixOf p then some ("/".intercalate (p.drop t.workDir.length), bs) else none
    | .directory => none

/-- The files below the working directory that are new or have another content than in `old`. -/
def written (old t : Tree) : List (String × Bytes) :=
  t.files.filter fun f => old.files.lookup f.1 ≠ some f.2

end Tree

end InstallScript
