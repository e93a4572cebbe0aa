import InstallScript.Build

/-!
The command line: which arguments are understood, and what a run of the program does with them.
-/

namespace InstallScript

/-- What the arguments ask for. -/
structure Request where
  input : Option String := none
  output : Option String := none
  targetDir : Option String := none
  encoding : Option Encoding := none
  exclude : List String := []
  verbosity : Nat := 0
deriving DecidableEq, Repr

namespace CommandLine

/-- Options that take a value. -/
inductive Key
  | output
  | targetDir
  | encoding
  | exclude
deriving DecidableEq, Repr

/-- What an option asks for. -/
inductive Switch
  | valued (key : Key)
  | verbose
  | version
  | help
deriving DecidableEq, Repr

def short? : Char → Option Switch
  | 'o' => some (.valued .output)
  | 'd' => some (.valued .targetDir)
  | 'e' => some (.valued .encoding)
  | 'x' => some (.valued .exclude)
  | 'v' => some .verbose
  | 'V' => some .version
  | 'h' => some .help
  | _ => none

def long? : String → Option Switch
  | "output" => some (.valued .output)
  | "out-dir" => some (.valued .targetDir)
  | "encoding" => some (.valued .encoding)
  | "exclude" => some (.valued .exclude)
  | "verbose" => some .verbose
  | "version" => some .version
  | "help" => some .help
  | _ => none

/-- Arguments that are not understood, or that ask for something else than a build. -/
inductive Stop
  | usage
  | version
  | help
deriving DecidableEq, Repr

/-- Sets an option. A path is not empty, and only the excluded files can be given more than once. -/
def set (r : Request) (key : Key) (value : String) : Except Stop Request :=
  match key with
  | .output =>
    if r.output.isSome || value = "" then .error .usage else .ok { r with output := some value }
  | .targetDir =>
    if r.targetDir.isSome || value = "" then .error .usage else .ok { r with targetDir := some value }
  | .encoding =>
    match r.encoding, Encoding.ofName? value with
    | none, some e => .ok { r with encoding := some e }
    | _, _ => .error .usage
  | .exclude => if value = "" then .error .usage else .ok { r with exclude := r.exclude ++ [value] }

/-- Takes an argument that is no option. -/
def setInput (r : Request) (value : String) : Except Stop Request :=
  if r.input.isSome || value = "" then .error .usage else .ok { r with input := some value }

/-- Reads a group of short options. An option with a value takes the rest of the group, less an equals
sign in front; if nothing is left it waits for the next argument. -/
def group (r : Request) : List Char → Except Stop (Request × Option Key)
  | [] => .ok (r, none)
  | c :: cs =>
    match short? c with
    | none => .error .usage
    | some .version => .error .version
    | some .help => .error .help
    | some .verbose => group { r with verbosity := r.verbosity + 1 } cs
    | some (.valued key) =>
      match cs with
      | [] => .ok (r, some key)
      | '=' :: cs => (set r key (String.ofList cs)).map (·, none)
      | cs => (set r key (String.ofList cs)).map (·, none)

/-- Reads a long option, the value of which may follow an equals sign. -/
def longOption (r : Request) (cs : List Char) : Except Stop (Request × Option Key) :=
  let name := String.ofList (cs.takeWhile (· ≠ '='))
  match long? name, cs.dropWhile (· ≠ '=') with
  | some (.valued key), [] => .ok (r, some key)
  | some (.valued key), _ :: v => (set r key (String.ofList v)).map (·, none)
  | some .verbose, [] => .ok ({ r with verbosity := r.verbosity + 1 }, none)
  | some .version, [] => .error .version
  | some .help, [] => .error .help
  | _, _ => .error .usage

/-- Reads arguments, with an option that waits for its value or without. An argument in the form of an
option is no value. -/
def read (r : Request) (waiting : Option Key) : List String → Except Stop Request
  | [] => if waiting.isSome then .error .usage else .ok r
  | arg :: args =>
    match arg.toList, waiting with
    | ['-', '-'], some _ => .error .usage
    | ['-', '-'], none => args.foldlM setInput r
    | '-' :: '-' :: cs, none => do
      let (r, waiting) ← longOption r cs
      read r waiting args
    | '-' :: c :: cs, none => do
      let (r, waiting) ← group r (c :: cs)
      read r waiting args
    | '-' :: _ :: _, some _ => .error .usage
    | _, some key => do
      let r ← set r key arg
      read r none args
    | _, none => do
      let r ← setInput r arg
      read r none args

/-- Reads all arguments. The input has to be among them. -/
def parse (args : List String) : Except Stop Request := do
  let r ← read {} none args
  if r.input.isNone then .error .usage else .ok r

end CommandLine

/-- What a run of the program leaves behind. -/
structure Report where
  exit : Nat
  output : String := ""
  errors : String := ""
  files : Tree

namespace CommandLine

/-- The least level that is shown. -/
def shows (verbosity : Nat) (l : Level) : Bool :=
  match l with
  | .warn => true
  | .info => 1 ≤ verbosity
  | .debug => 2 ≤ verbosity

def versionText : String := "bridle 0.1.0\n"

/-- The text with a line end behind each line. -/
def ofLines (ls : List String) : String := String.join (ls.map (· ++ "\n"))

def helpText : String :=
  ofLines [
    "Usage: bridle [OPTIONS] <INPUT>",
    "",
    "Arguments:",
    "  <INPUT>  The .nsi file to compile",
    "",
    "Options:",
    "  -o, --output <OUTPUT>      Write the compiled script to FILE",
    "  -d, --out-dir <OUT_DIR>    Directory for generated include files",
    "  -e, --encoding <ENCODING>  Input and output encoding: utf-8, utf-16le or utf-16be [default: utf-8]",
    "  -x, --exclude <EXCLUDE>    Copy this include file instead of compiling it",
    "  -v, --verbose...           More output, repeat for more",
    "  -h, --help                 Print help",
    "  -V, --version              Print version"]

def usageText : String :=
  ofLines ["error: invalid arguments", "", "Usage: bridle [OPTIONS] <INPUT>", "",
    "For more information, try '--help'."]

/-- A build that arguments ask for: of which file in the source directory, and to which file. -/
structure Plan where
  options : Options
  name : String
  output : Path
deriving DecidableEq, Repr

/-- The build for a request, if the input names a file. By default the compiled file goes beside the
file, and compiled includes beside the compiled file. -/
def plan? (r : Request) : Option Plan :=
  let input : Path := ⟨r.input.getD ""⟩
  input.fileName?.map fun name =>
    let sourceDir := input.parent?.getD ⟨""⟩
    let output := (r.output.map Path.mk).getD (sourceDir.join (⟨name⟩ : Path).compiled)
    let options : Options := {
      sourceDir
      targetDir := (r.targetDir.map Path.mk).getD (output.parent?.getD ⟨""⟩)
      encoding := r.encoding.getD .utf8
      exclude := r.exclude.map Path.mk }
    ⟨options, name, output⟩

/-- Carries out a request. -/
def build (files : Tree) (r : Request) : Report :=
  let input := r.input.getD ""
  match plan? r with
  | none => { exit := 1, errors := ofLines [s!"Error: '{input}' is not a file"], files }
  | some p =>
    let (result, s) := ({ files } : Session).run (Build.script p.options p.name p.output)
    let shown (es : List Entry) : String :=
      String.join ((es.filter fun e => shows r.verbosity e.level).map (·.print))
    match result with
    | .error f =>
      { exit := 1
        errors := shown s.log ++ ofLines [s!"Error compiling {input}: " ++ f.message]
        files := s.files }
    | .ok _ =>
      let done : Entry := ⟨.info, .program, s!"Compiled {s.lineCount} lines in {s.fileCount} file(s)"⟩
      { exit := 0
        output := p.output.text ++ "\n"
        errors := shown (s.log ++ [done])
        files := s.files }

/-- Runs the program. -/
def run (files : Tree) (args : List String) : Report :=
  match parse args with
  | .error .version => { exit := 0, output := versionText, files }
  | .error .help => { exit := 0, output := helpText, files }
  | .error .usage => { exit := 2, errors := usageText, files }
  | .ok r => build files r

end CommandLine

end InstallScript
