import InstallScript.Compile.Statement
import InstallScript.File.Tree

/-!
Builds. A source file is compiled together with the files it includes; each of them becomes a file of
its own, and what one file declares is known in all that are compiled after it.
-/

namespace InstallScript

/-- Where files are found and where compiled ones go, how texts are encoded, and which included files
are copied instead of compiled. -/
structure Options where
  sourceDir : Path := ⟨""⟩
  targetDir : Path := ⟨""⟩
  encoding : Encoding := .utf8
  exclude : List Path := []
deriving DecidableEq, Repr

/-- Why a build fails: at a file, or at the statement that ends in a line of a source. -/
inductive BuildFault
  | file (path : Path) (f : FileFault)
  | source (path : Path) (line : Nat) (f : Fault)
  | includeDepth (path : Path)
deriving DecidableEq, Repr

namespace BuildFault

/-- The report on the cause alone. -/
def cause : BuildFault → String
  | file _ f => f.message
  | source p l f => s!"{p.text}:{l}: " ++ f.message
  | includeDepth _ => "includes too deeply nested"

/-- The report with the place of the fault. -/
def message : BuildFault → String
  | file p f => p.text ++ ": " ++ f.message
  | includeDepth p => p.text ++ ": includes too deeply nested"
  | f => f.cause

end BuildFault

/-- The state of a build. `active` has the files that are being compiled, the outermost first. -/
structure Session where
  files : Tree
  compiler : Compiler := {}
  active : List Place := []
  fileCount : Nat := 0
  lineCount : Nat := 0
  log : List Entry := []

abbrev Build := ExceptT BuildFault (StateM Session)

namespace Build

def fail (f : BuildFault) : Build α := throw f

def log (es : List Entry) : Build Unit := modify fun s => { s with log := s.log ++ es }
def info (message : String) : Build Unit := log [⟨.info, .build, message⟩]

/-- The result of looking something up in the files. -/
def ofFile (path : Path) (r : Except FileFault α) : Build α :=
  match r with
  | .ok a => pure a
  | .error f => fail (.file path f)

def setFiles (t : Tree) : Build Unit := modify fun s => { s with files := t }

/-! ### Writing -/

/-- Makes the directory a file goes to. -/
def prepareDir (path : Path) : Build Unit := do
  match path.parent? with
  | none => return
  | some dir =>
    if dir.text ≠ "" then
      let (r, t) := (← get).files.makeDirs dir.ancestors
      setFiles t
      ofFile dir r

def writeFile (o : Options) (path : Path) (text : String) : Build Unit := do
  prepareDir path
  setFiles (← ofFile path ((← get).files.write path (o.encoding.encode text)))

/-- Copies a file to where its compiled form would go. -/
def copyFile (source target : Path) : Build Unit := do
  prepareDir target
  setFiles (← ofFile source ((← get).files.copy source target))

/-! ### Compiling -/

def isExcluded (o : Options) (name : String) (path : Path) : Bool :=
  o.exclude.any fun e => e.same ⟨name⟩ || e.same path

/-- The text for an inclusion. A file that is not there is left to the compiler of the target language
to find. -/
def inclusion (o : Options) (compileFile : Path → Build String) (source : Path) (s : Statement)
    (name : String) : Build String := do
  let path := o.sourceDir.join ⟨name⟩
  let targetName := (⟨name⟩ : Path).compiled
  let target := o.targetDir.join targetName
  if isExcluded o name path then
    info s!"Include file '{name}' is excluded, copying it to {target.text}"
    copyFile path target
    return Line.writeInclude s.indent targetName.text
  else if !(← get).files.contains path then
    info s!"Include file '{name}' not found, assuming the target compiler finds it"
    return s.text
  else
    let place ← ofFile path ((← get).files.locate path)
    if (← get).active.contains place then fail (.source source s.line (.recursiveInclude name))
    info s!"Follow include: {path.text}"
    let text ← compileFile path
    writeFile o target text
    return Line.writeInclude s.indent targetName.text

/-- The text that a statement of a source file becomes. -/
def statement (o : Options) (compileFile : Path → Build String) (source : Path) (s : Statement) :
    Build String := do
  let (step, c) := (← get).compiler.step s
  modify fun b => { b with compiler := c }
  log (step.notes.map (·.entry source.text s.line))
  match step.result with
  | .error f => fail (.source source s.line f)
  | .ok (.text t) => return t
  | .ok (.inclusion name) => inclusion o compileFile source s name

/-- The text that statements of a source file become, a line end behind each. -/
def statements (o : Options) (compileFile : Path → Build String) (source : Path) :
    List Statement → Build String
  | [] => return ""
  | s :: ss => do
    let text ← statement o compileFile source s
    let rest ← statements o compileFile source ss
    return text ++ Text.newline ++ rest

/-- Marks a file as being compiled for the time of `act`, however it ends. -/
def within (place : Place) (act : Build α) : Build α := do
  modify fun s => { s with active := s.active ++ [place] }
  ExceptT.mk do
    let r ← act.run
    modify fun s => { s with active := s.active.dropLast }
    return r

/-- The text that a file becomes. The number bounds the depth of inclusion. -/
def file (o : Options) : Nat → Path → Build String
  | 0, path => fail (.includeDepth path)
  | n + 1, path => do
    let bytes ← ofFile path ((← get).files.read path)
    let source ← ofFile path ((o.encoding.decode bytes).mapError .notText)
    modify fun s => { s with fileCount := s.fileCount + 1 }
    let place ← ofFile path ((← get).files.locate path)
    within place do
      let text ← statements o (file o n) path (InstallScript.statements source)
      let count := linesRead (InstallScript.statements source)
      info s!"End compiling {count} lines in file {path.text}"
      modify fun s => { s with lineCount := s.lineCount + count }
      return text

/-- No file is active twice, so sources cannot nest deeper than there are files; the rest is for files
that are written during the build and then included. -/
def depth (t : Tree) : Nat := t.entries.length + 1000

/-- Compiles the file `name` with all it includes to `target`. -/
def script (o : Options) (name : String) (target : Path) : Build Unit := do
  let path := o.sourceDir.join ⟨name⟩
  info s!"Begin compiling file: {path.text}"
  let text ← file o (depth (← get).files) path
  info s!"Output file: {target.text}"
  writeFile o target (Line.prelude ++ Text.newline ++ text)

end Build

/-- Runs a part of a build. -/
def Session.run (s : Session) (act : Build α) : Except BuildFault α × Session :=
  (ExceptT.run act).run s

end InstallScript
