import InstallScript.Target.Line

/-!
Message boxes as calls. The target language answers a message box with a jump; here the answer is the
name of the pressed button, given to a variable on each of the ways on from the box.
-/

namespace InstallScript

/-- The sets of buttons a message box can have. -/
inductive ButtonGroup
  | ok
  | okCancel
  | abortRetryIgnore
  | retryCancel
  | yesNo
  | yesNoCancel
deriving DecidableEq, Repr

namespace ButtonGroup

def write : ButtonGroup → String
  | ok => "OK"
  | okCancel => "OKCANCEL"
  | abortRetryIgnore => "ABORTRETRYIGNORE"
  | retryCancel => "RETRYCANCEL"
  | yesNo => "YESNO"
  | yesNoCancel => "YESNOCANCEL"

def all : List ButtonGroup := [ok, okCancel, abortRetryIgnore, retryCancel, yesNo, yesNoCancel]

def ofName? (name : String) : Option ButtonGroup := all.find? (·.write = name)

/-- The button that has no jump: the script goes on behind the box. -/
def through : ButtonGroup → Button
  | ok | okCancel => .ok
  | abortRetryIgnore | retryCancel => .retry
  | yesNo | yesNoCancel => .yes

/-- The other buttons, each of which needs a jump. -/
def jumping : ButtonGroup → List Button
  | ok => []
  | okCancel | retryCancel => [.cancel]
  | abortRetryIgnore => [.abort, .ignore]
  | yesNo => [.no]
  | yesNoCancel => [.no, .cancel]

/-- The buttons of the group. -/
def buttons (g : ButtonGroup) : List Button := g.through :: g.jumping

end ButtonGroup

def Button.all : List Button := [ok, cancel, abort, retry, ignore, yes, no]

def Button.ofName? (name : String) : Option Button := all.find? (·.write = name)

namespace MessageBox

/-- The name of the call, and how many arguments it takes. -/
def name : String := "MsgBox"
def least : Nat := 2
def most : Nat := 4

/-- An argument that has to be known when the script is compiled, if it is given at all. -/
def literalArgument (args : List Operand) (i : Nat) (what : String) :
    Except Fault (Option String) :=
  match args.getD i .omitted with
  | .omitted => .ok none
  | x =>
    match x.literalText? with
    | some t => .ok (some t)
    | none => .error (.dialogLiteral what x.write)

def group (args : List Operand) : Except Fault ButtonGroup := do
  let text ← literalArgument args 0 "buttons"
  match text.bind fun t => ButtonGroup.ofName? (Text.upper t) with
  | some g => .ok g
  | none => .error (.dialogButtons (args.getD 0 .omitted).write)

def silent (args : List Operand) : Except Fault (Option Button) := do
  match ← literalArgument args 3 "sd" with
  | none => return none
  | some t =>
    match Button.ofName? (Text.upper t) with
    | some b => return some b
    | none => .error (.dialogSilent (Text.upper t))

/-- The parts of a text between the bars, empty ones left out. -/
def options (text : String) : List String :=
  ((text.toList.splitOn '|').filter (!·.isEmpty)).map String.ofList

/-- The message box for a list of arguments: buttons, message, options, silent answer. -/
def ofArguments (args : List Operand) : Except Fault (ButtonGroup × Dialog) := do
  let g ← group args
  let more ← literalArgument args 2 "options"
  let b ← silent args
  return (g, {
    flags := g.write :: options (more.getD "")
    message := args.getD 1 .omitted
    silent := b })

/-- A label for a way on from a message box. -/
def labelName (n : Nat) : String := "msgbox_" ++ Names.generated n

/-- The way on for a button with a jump: its label, the answer, and the jump to the common end. -/
def branch (result : Variable) (exit : String) (jump : Button × String) : List Line :=
  [⟨1, .label jump.2⟩, ⟨2, .copy result (.button jump.1.write)⟩, ⟨2, .jump exit⟩]

/-- The lines that ask and put the answer into `result`, with labels numbered from `n`. -/
def answer (g : ButtonGroup) (d : Dialog) (result : Variable) (n : Nat) : List Line :=
  let exit := labelName n
  let jumps := g.jumping.zipIdx.map fun (b, i) => (b, labelName (n + 1 + i))
  ⟨0, .dialog { d with jumps }⟩
    :: ⟨1, .copy result (.ofText g.through.write)⟩
    :: ⟨1, .jump exit⟩
    :: jumps.flatMap (branch result exit)
    ++ [⟨1, .label exit⟩]

/-- The lines for a message box, and the number of the last generated name when they are written; it
was `n` before. -/
def lines (args : List Operand) (result : Option Variable) (n : Nat) :
    Except Fault (List Line × Nat) := do
  let (g, d) ← ofArguments args
  match result with
  | none => return ([⟨0, .dialog d⟩], n)
  | some v => return (answer g d v (n + 1), n + 1 + g.jumping.length)

end MessageBox

end InstallScript
