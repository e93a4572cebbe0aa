import InstallScript.Declarations
import InstallScript.Log

/-!
The state in which a statement is compiled. What a statement has declared stays declared when the
statement turns out to be wrong, so the state outlives a fault; the lines written until then do not
matter any more.
-/

namespace InstallScript

/-- What is worth telling about a statement that is compiled. -/
inductive Note
  | newVariable (target : String)
  | newFunction (label : String)
  | shadows (name function : String)
  | holdsResult (call target : String)
  | notIntroduced (label : String)
  | neverReturns (label : String)
deriving DecidableEq, Repr

namespace Note

def level : Note → Level
  | newVariable _ | newFunction _ | holdsResult _ _ => .debug
  | shadows _ _ | notIntroduced _ => .info
  | neverReturns _ => .warn

def message : Note → String
  | newVariable t => s!"Register new variable '{t}'"
  | newFunction l => s!"Register new function '{l}'"
  | shadows n f =>
    s!"Declaring variable '{n}' in function '{f}' that overshadows a global variable with the same name"
  | holdsResult c t => s!"Hold result of '{c}' in '{t}'"
  | notIntroduced l => s!"Calling unintroduced function '{l}'"
  | neverReturns l => s!"Function '{l}' never returns a value"

/-- Results are held while a value is compiled, all else happens to statements. -/
def part : Note → Part
  | holdsResult _ _ => .values
  | _ => .statements

/-- The note about the statement that ends in a line of a source. -/
def entry (source : String) (line : Nat) (n : Note) : Entry :=
  ⟨n.level, n.part, s!"{source}:{line}: " ++ n.message⟩

end Note

/-- What is carried from statement to statement. `current` is the function that has been begun and
not been ended, `discarded` and `register` are the shared variables once they are declared, `depth`
is the nesting of the expression that is compiled. -/
structure Compiler where
  declarations : Declarations := .predefined
  current : Option String := none
  discarded : Option Variable := none
  register : Option Variable := none
  depth : Nat := 0
deriving DecidableEq, Repr

/-- The scope in which variables are declared. -/
def Compiler.scope (c : Compiler) : Scope := .ofFunction c.current

/-- A statement at work: the compiler, the words still to read, the lines and notes so far. -/
structure Work where
  compiler : Compiler
  cursor : Cursor
  lines : List Line := []
  notes : List Note := []
deriving DecidableEq, Repr

abbrev Compile := ExceptT Fault (StateM Work)

namespace Compile

/-- Expressions, conditions and calls nest no deeper. -/
def maxNesting : Nat := 64

def fail (f : Fault) : Compile α := throw f

/-- A step that may fail and changes nothing. -/
def ofExcept (r : Except Fault α) : Compile α :=
  match r with
  | .ok a => pure a
  | .error f => fail f

def declarations : Compile Declarations := return (← get).compiler.declarations
def current : Compile (Option String) := return (← get).compiler.current
def scope : Compile Scope := return (← get).compiler.scope

def modifyCompiler (change : Compiler → Compiler) : Compile Unit :=
  modify fun w => { w with compiler := change w.compiler }

def setDeclarations (d : Declarations) : Compile Unit :=
  modifyCompiler fun c => { c with declarations := d }

def emit (ls : List Line) : Compile Unit := modify fun w => { w with lines := w.lines ++ ls }
def note (n : Note) : Compile Unit := modify fun w => { w with notes := w.notes ++ [n] }

/-! ### Words -/

/-- The marks of the word just read. -/
def tail : Compile Tail := return (← get).cursor.tail

def hasNext : Compile Bool := return (← get).cursor.hasNext

/-- How many words are left; every loop over the words reads at least one of them each time. -/
def wordsAhead : Compile Nat := return (← get).cursor.ahead.length

def nextWord : Compile Word := do
  match (← get).cursor.next? with
  | none => fail .endOfStatement
  | some (w, c) =>
    modify fun s => { s with cursor := c }
    return w

def closeOne : Compile Unit := modify fun w => { w with cursor := w.cursor.closeOne }

/-- No word may be left. -/
def expectEnd : Compile Unit := do
  if ← hasNext then fail .trailingWord

/-! ### Nesting -/

/-- Goes one level deeper for the time of `act`, however it ends. -/
def nested (act : Compile α) : Compile α := do
  if maxNesting ≤ (← get).compiler.depth then fail .nesting
  modifyCompiler fun c => { c with depth := c.depth + 1 }
  ExceptT.mk do
    let r ← act.run
    modify fun w => { w with compiler := { w.compiler with depth := w.compiler.depth - 1 } }
    return r

/-! ### Variables -/

/-- Adds a variable to a scope. -/
def register (name : String) (scope : Scope) : Compile Variable := do
  let (v, d) ← ofExcept ((← declarations).declare name scope)
  setDeclarations d
  return v

/-- Declares a variable where the statement stands. -/
def declare (name : String) : Compile Variable := do
  let v ← register name (← scope)
  note (.newVariable v.target)
  emit [⟨0, .declare v⟩]
  return v

/-- Declares a variable with a generated name. -/
def declareTemporary : Compile Variable := do
  let (name, d) := (← declarations).generate
  setDeclarations d
  declare name

/-- Declares a variable the whole script shares. -/
def declareShared (v : Variable) : Compile Variable := do
  let v ← register v.name .global
  emit [⟨0, .declare v⟩]
  return v

/-- The variable for results nobody wants, declared when it is first needed. -/
def discarded : Compile Variable := do
  match (← get).compiler.discarded with
  | some v => return v
  | none =>
    let v ← declareShared Names.discarded
    modifyCompiler fun c => { c with discarded := some v }
    return v

/-- Declares the return register when it is first needed. -/
def ensureRegister : Compile Unit := do
  if (← get).compiler.register.isNone then
    let v ← declareShared Names.returnRegister
    modifyCompiler fun c => { c with register := some v }

/-- The variable a name means here. -/
def lookup (name : String) : Compile Variable := do
  ofExcept ((← declarations).find name (← current))

end Compile

end InstallScript
