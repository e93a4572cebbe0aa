import InstallScript.CommandLine

/-!
The program on disk. The files a build can ask for are read first, then the build runs in memory, and
what it has changed is written back.
-/

namespace InstallScript.Disk

/-- The file or directory at a place on disk. -/
def nodeAt (place : Place) : IO (Option Node) := do
  let path := (← IO.currentDir) / ("/" ++ "/".intercalate place)
  if ← path.isDir then return some .directory
  else if ← path.pathExists then return some (.file (← IO.FS.readBinFile path).toList)
  else return none

/-- Reads what lies on the way along pieces of a path. -/
def mountSteps (t : Tree) (p : Place) : List String → IO Tree
  | [] => return t
  | b :: bs => do
    if !Path.isStep b then mountSteps t p bs
    else if b = ".." then mountSteps t p.dropLast bs
    else
      let here := p ++ [b]
      let t ← if (t.node? here).isSome then pure t else do
        match ← nodeAt here with
        | some n => pure (t.put here n)
        | none => pure t
      mountSteps t here bs

/-- Reads what lies on the way of a path. -/
def mount (t : Tree) (path : Path) : IO Tree :=
  match t.start path with
  | .ok (p, bs) => mountSteps t p bs
  | .error _ => pure t

/-- The name of the file that a statement includes. -/
def inclusion? (s : Statement) : Option String :=
  match (({} : Compiler).step s).1.result with
  | .ok (.inclusion name) => some name
  | _ => none

/-- Reads a source file with all it includes, and what lies where the compiled files go. -/
partial def mountSource (o : Options) (seen : List Path) (t : Tree) (path : Path) :
    IO (List Path × Tree) := do
  if seen.contains path then return (seen, t)
  let t ← mount t path
  let seen := path :: seen
  match (t.read path).toOption.bind fun bs => (o.encoding.decode bs).toOption with
  | none => return (seen, t)
  | some source =>
    ((statements source).filterMap inclusion?).foldlM (fun (seen, t) name => do
      let t ← mount t (o.targetDir.join (⟨name⟩ : Path).compiled)
      mountSource o seen t (o.sourceDir.join ⟨name⟩)) (seen, t)

/-- Reads all that a build can ask for. -/
def mountPlan (p : CommandLine.Plan) (t : Tree) : IO Tree := do
  let t ← mount t p.output
  return (← mountSource p.options [] t (p.options.sourceDir.join ⟨p.name⟩)).2

/-- Writes what has changed back to disk. -/
def store (before after : Tree) : IO Unit := do
  let top ← IO.currentDir
  for (place, node) in after.entries do
    if before.entries.lookup place ≠ some node then
      let path := top / ("/" ++ "/".intercalate place)
      match node with
      | .directory => IO.FS.createDirAll path
      | .file bs => IO.FS.writeBinFile path (ByteArray.mk bs.toArray)

end InstallScript.Disk

open InstallScript in
/-- Runs the program on disk; its value is the exit code. -/
def main (args : List String) : IO UInt32 := do
  let steps := (Path.pieces (← IO.currentDir).toString).filter Path.isStep
  let empty := Tree.empty steps
  let files ← match (CommandLine.parse args).toOption.bind CommandLine.plan? with
    | some p => Disk.mountPlan p empty
    | none => pure empty
  let report := CommandLine.run files args
  Disk.store files report.files
  IO.print report.output
  IO.eprint report.errors
  return report.exit.toUInt32
