import InstallScript.Target.MessageBox

/-!
What a script can call, and the lines a call becomes: primitives of the target language, functions of
the script, functions that are called before they are declared, and the message box.
-/

namespace InstallScript

/-- How a call hands back its result: not at all, in a place that may be left out, in a place that
must be given, or as the error flag. -/
inductive Convention
  | void
  | optional
  | required
  | errorFlag
deriving DecidableEq, Repr

/-- A primitive as a call. `slot` is the place of the result among the arguments. -/
structure Command where
  primitive : Primitive
  least : Nat
  most : Nat
  convention : Convention
  slot : Nat
deriving DecidableEq, Repr

namespace Command

def instruction (name : String) (least most : Nat) (convention : Convention) (slot : Nat) : Command :=
  ⟨.instruction name, least, most, convention, slot⟩

/-- A header macro has a fixed number of arguments and always writes a result. -/
def header (name : String) (args slot : Nat) : Command :=
  ⟨.header name, args, args, .required, slot⟩

def name (c : Command) : String :=
  match c.primitive with
  | .instruction n | .header n => n

/-- The convention has a place for the result among the arguments. -/
def hasSlot (c : Command) : Bool := c.convention = .optional || c.convention = .required

/-- The arguments with the result in its slot, or at the end if the slot lies beyond. -/
def spliced (c : Command) (args : List Operand) (result : Option Variable) : List Operand :=
  match result with
  | some v =>
    if c.hasSlot then args.take c.slot ++ [.var v] ++ args.drop c.slot else args
  | none => args

/-- The instruction for a call; omitted arguments are not written. -/
def instr (c : Command) (args : List Operand) (result : Option Variable) : Instr :=
  .perform c.primitive ((c.spliced args result).filter (!·.isOmitted))

end Command

/-- A function of the script. Its name is in lower case, its label as it was written; `earlier` has
the number of arguments of every call that came before the declaration. -/
structure Function where
  name : String
  label : String
  params : List Variable := []
  hasReturn : Bool := false
  earlier : List Nat := []
deriving DecidableEq, Repr

namespace Function

def addParam (f : Function) (v : Variable) : Function := { f with params := f.params ++ [v] }

def setReturn (f : Function) : Function := { f with hasReturn := true }

/-- A number of arguments that differs from the number of parameters is a fault. -/
def checkCount (f : Function) (provided : Nat) : Except Fault Unit :=
  if provided < f.params.length then .error (.tooFew f.label f.params.length provided)
  else if f.params.length < provided then .error (.tooMany f.label f.params.length provided)
  else .ok ()

/-- Every earlier call had as many arguments as the function has parameters. -/
def checkEarlier (f : Function) : Except Fault Unit := f.earlier.forM f.checkCount

end Function

/-- A function that has been called and not been declared. -/
structure Placeholder where
  name : String
  label : String
  calls : List Nat := []
deriving DecidableEq, Repr

inductive Callee
  | command (c : Command)
  | function (f : Function)
  | placeholder (p : Placeholder)
  | messageBox
deriving DecidableEq, Repr

namespace Callee

def name : Callee → String
  | command c => c.name
  | function f => f.name
  | placeholder p => p.name
  | messageBox => MessageBox.name

def least : Callee → Nat
  | command c => c.least
  | function f => f.params.length
  | placeholder _ => 0
  | messageBox => MessageBox.least

/-- The greatest number of arguments, if there is one. -/
def most : Callee → Option Nat
  | command c => some c.most
  | function f => some f.params.length
  | placeholder _ => none
  | messageBox => some MessageBox.most

def convention : Callee → Convention
  | command c => c.convention
  | _ => .optional

/-- The result comes back through the return register. -/
def returnsByRegister : Callee → Bool
  | function _ | placeholder _ => true
  | _ => false

/-- Pushes the arguments, calls the label, and fetches the result. -/
def labelCall (label : String) (args : List Operand) (result : Option Variable) : List Line :=
  args.map (fun x => ⟨0, .push x⟩)
    ++ [⟨0, .call label⟩]
    ++ (result.map fun v => ⟨0, .copy v (.var Names.returnRegister)⟩).toList

/-- The lines of a call, and the number of the last generated name when they are written; it was `n`
before. -/
def lines (c : Callee) (args : List Operand) (result : Option Variable) (n : Nat) :
    Except Fault (List Line × Nat) :=
  match c with
  | command c => .ok ([⟨0, c.instr args result⟩], n)
  | function f => .ok (labelCall f.label args result, n)
  | placeholder p => .ok (labelCall p.label args result, n)
  | messageBox => MessageBox.lines args result n

/-- The callee takes that many arguments. -/
def checkCount (c : Callee) (provided : Nat) : Except Fault Unit :=
  match c.most with
  | some most =>
    if most < provided then .error (.tooMany c.name most provided)
    else if provided < c.least then .error (.tooFew c.name c.least provided)
    else .ok ()
  | none => if provided < c.least then .error (.tooFew c.name c.least provided) else .ok ()

/-- The arguments with omitted ones for those at the end that were not given. -/
def pad (c : Callee) (args : List Operand) : List Operand :=
  args ++ List.replicate (c.most.getD 0 - args.length) .omitted

end Callee

end InstallScript
