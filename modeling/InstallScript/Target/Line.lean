import InstallScript.Target.Condition
import InstallScript.Text.Lines

/-!
Lines of the target language. A compiled statement is a list of instructions; they become text only
when the indent of the statement is known.
-/

namespace InstallScript

/-- The buttons of a message box. -/
inductive Button
  | ok | cancel | abort | retry | ignore | yes | no
deriving DecidableEq, Repr

def Button.write : Button → String
  | ok => "OK"
  | cancel => "CANCEL"
  | abort => "ABORT"
  | retry => "RETRY"
  | ignore => "IGNORE"
  | yes => "YES"
  | no => "NO"

/-- A message box. `silent` is the button that counts as pressed when nothing is shown, and a button
with a jump goes on at the label given for it. -/
structure Dialog where
  flags : List String
  message : Operand
  silent : Option Button := none
  jumps : List (Button × String) := []
deriving DecidableEq, Repr

def Dialog.write (d : Dialog) : String :=
  "MessageBox " ++ "|".intercalate (d.flags.map ("MB_" ++ ·)) ++ " " ++ d.message.write
    ++ String.join ((d.silent.map fun b => " /SD ID" ++ b.write).toList)
    ++ String.join (d.jumps.map fun j => " ID" ++ j.1.write ++ " " ++ j.2)

/-- A name of the target language: an instruction, or a macro of its headers. -/
inductive Primitive
  | instruction (name : String)
  | header (name : String)
deriving DecidableEq, Repr

def Primitive.write : Primitive → String
  | instruction n => n
  | header n => "$\x7b" ++ n ++ "\x7d"

inductive Instr
  /-- Makes a variable known. -/
  | declare (v : Variable)
  /-- Gives a variable a value. -/
  | copy (v : Variable) (x : Operand)
  /-- Gives a variable a value while the error flag is clear. -/
  | copyUnlessErrors (v : Variable) (x : Operand)
  | clearErrors
  | perform (p : Primitive) (args : List Operand)
  | push (x : Operand)
  | pop (v : Variable)
  | call (label : String)
  | functionBegin (label : String)
  | functionEnd
  | leave
  | label (name : String)
  | jump (label : String)
  | dialog (d : Dialog)
  /-- A keyword of control flow, with a condition on the same line or without. -/
  | keyword (name : String)
  | condition (loop : String) (t : Term)
deriving DecidableEq, Repr

def Instr.write : Instr → String
  | declare v => "Var /GLOBAL " ++ v.target
  | copy v x => "StrCpy " ++ v.value ++ " " ++ x.write
  | copyUnlessErrors v x =>
    "$\x7bIfNotThen\x7d $\x7bErrors\x7d $\x7b|\x7d StrCpy " ++ v.value ++ " " ++ x.write ++ " $\x7b|\x7d"
  | clearErrors => "ClearErrors"
  | perform p args => p.write ++ String.join (args.map fun x => " " ++ x.write)
  | push x => "Push " ++ x.write
  | pop v => "Pop " ++ v.value
  | call l => "Call " ++ l
  | functionBegin l => "Function " ++ l
  | functionEnd => "FunctionEnd"
  | leave => "Return"
  | label n => n ++ ":"
  | jump l => "Goto " ++ l
  | dialog d => d.write
  | keyword n => "$\x7b" ++ n ++ "\x7d"
  | condition loop t => t.write loop

/-- An instruction, a number of steps further in than the statement it comes from. -/
structure Line where
  inset : Nat := 0
  instr : Instr
deriving DecidableEq, Repr

namespace Line

/-- One step of indentation. -/
def step : String := "    "

def write (indent : String) (l : Line) : String :=
  indent ++ String.join (List.replicate l.inset step) ++ l.instr.write

/-- The lines of one statement as text. -/
def writeAll (indent : String) (ls : List Line) : String :=
  Text.joinLines (ls.map (write indent))

/-- Brings in another file. -/
def writeInclude (indent file : String) : String := indent ++ "!include " ++ Text.quote file

/-- What every compiled script begins with. -/
def prelude : String :=
  Text.joinLines
    [writeInclude "" "LogicLib.nsh", writeInclude "" "FileFunc.nsh",
      "!define " ++ Names.omitted ++ " " ++ Text.quote "BridleNSIS_NULL"]

end Line

end InstallScript
