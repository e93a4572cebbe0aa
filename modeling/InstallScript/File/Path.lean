/-!
Paths. A path is a text; slashes divide it into pieces. An empty piece or a single dot means nothing,
except for a slash or a dot in front, and two dots go up one directory.
-/

namespace InstallScript

structure Path where
  text : String
deriving DecidableEq, Repr

namespace Path

/-- What a path starts from: the top of the file system, a dot for the working directory, or the
working directory without a word about it. -/
inductive Anchor
  | root
  | here
  | none
deriving DecidableEq, Repr

/-- The pieces between the slashes of a text. -/
def pieces (s : String) : List String := (s.toList.splitOn '/').map String.ofList

/-- The anchor of a path, and the pieces after it. -/
def split (p : Path) : Anchor × List String :=
  match pieces p.text with
  | "" :: b :: bs => (.root, b :: bs)
  | "." :: bs => (.here, bs)
  | bs => (.none, bs)

/-- The path with an anchor and pieces. -/
def build : Anchor → List String → Path
  | .root, bs => ⟨"/" ++ "/".intercalate bs⟩
  | .here, bs => ⟨"/".intercalate ("." :: bs)⟩
  | .none, bs => ⟨"/".intercalate bs⟩

/-- The piece names something. -/
def isStep (piece : String) : Bool := piece ≠ "" && piece ≠ "."

/-- The pieces up to the last one that names something. -/
def trim (bs : List String) : List String := (bs.reverse.dropWhile (!isStep ·)).reverse

/-- What two ways of writing one path have in common. -/
def components (p : Path) : Anchor × List String := (p.split.1, p.split.2.filter isStep)

/-- Two paths are written alike but for pieces that mean nothing. -/
def same (p q : Path) : Bool := p.components = q.components

/-- The name at the end of the path, unless the path goes up there. -/
def fileName? (p : Path) : Option String :=
  (trim p.split.2).getLast?.filter (· ≠ "..")

/-- The path without its last step. -/
def parent? (p : Path) : Option Path :=
  let (a, bs) := p.split
  match trim bs, a with
  | [], .here => some ⟨""⟩
  | [], _ => none
  | b :: bs, a => some (build a (trim (b :: bs).dropLast))

def isAbsolute (p : Path) : Bool := p.split.1 = .root

/-- The path `q` seen from the directory `p`. -/
def join (p q : Path) : Path :=
  if q.isAbsolute || p.text = "" then q
  else if p.text.toList.getLast? = some '/' then ⟨p.text ++ q.text⟩
  else ⟨p.text ++ "/" ++ q.text⟩

/-- The path with another name at its end; a path without a name gets one. -/
def withFileName (p : Path) (name : String) : Path :=
  match p.fileName?, p.parent? with
  | some _, some dir => dir.join ⟨name⟩
  | _, _ => p.join ⟨name⟩

/-- A name as stem and extension. The extension follows the last dot; a dot in front makes none. -/
def splitExtension (name : String) : String × Option String :=
  let back := name.toList.reverse
  match back.dropWhile (· ≠ '.') with
  | _ :: c :: stem =>
    (String.ofList (c :: stem).reverse, some (String.ofList (back.takeWhile (· ≠ '.')).reverse))
  | _ => (name, none)

/-- The name of the file that is compiled from the file of a given name. -/
def compiledName (name : String) : String :=
  match splitExtension name with
  | (stem, none) => stem ++ ".bridle"
  | (stem, some ext) => stem ++ ".bridle." ++ ext

/-- Where the file that is compiled from a file goes, in the directory of that file. -/
def compiled (p : Path) : Path := p.withFileName (compiledName (p.fileName?.getD ""))

/-- The path and the directories above it, the nearest first, for pieces in reverse order. -/
def ancestorsFrom (a : Anchor) : List String → List Path
  | [] => []
  | b :: bs => if isStep b then build a (b :: bs).reverse :: ancestorsFrom a bs else ancestorsFrom a bs

def ancestors (p : Path) : List Path := ancestorsFrom p.split.1 p.split.2.reverse

end Path

end InstallScript
