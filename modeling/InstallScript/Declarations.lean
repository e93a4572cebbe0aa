import InstallScript.Callee.Catalogue

/-!
What a script has declared so far: its variables, what it can call, and how many names the compiler
has made up.
-/

namespace InstallScript

/-- An association list, of which the first entry for a key counts. -/
def putEntry (key : String) (c : Callee) : List (String × Callee) → List (String × Callee)
  | [] => [(key, c)]
  | e :: es => if e.1 = key then (key, c) :: es else e :: putEntry key c es

structure Declarations where
  vars : List Variable := []
  callees : List (String × Callee) := []
  /-- The number of the last generated name. -/
  generated : Nat := 0
deriving DecidableEq, Repr

namespace Declarations

/-- The variables and callees that every script can use. -/
def predefined : Declarations where
  vars := Catalogue.vars
  callees := Catalogue.callees.map fun c => (Text.lower c.name, c)

/-- The variable of exactly that name and scope. -/
def declared? (d : Declarations) (name : String) (scope : Scope) : Option Variable :=
  d.vars.find? fun v => v.name = name && v.scope = scope

def addVariable (d : Declarations) (v : Variable) : Declarations :=
  { d with vars := v :: d.vars }

/-- Declares a variable, unless one of that name and scope is there. -/
def declare (d : Declarations) (name : String) (scope : Scope) :
    Except Fault (Variable × Declarations) :=
  match d.declared? name scope with
  | some _ => .error (.duplicate name scope)
  | none => .ok (⟨name, scope, none⟩, d.addVariable ⟨name, scope, none⟩)

/-- The variable a name means inside a function: one of the function, else a global one. -/
def find? (d : Declarations) (name : String) (function : Option String) : Option Variable :=
  match function with
  | none => d.declared? name .global
  | some f => (d.declared? name (.function f)).or (d.declared? name .global)

def find (d : Declarations) (name : String) (function : Option String) : Except Fault Variable :=
  match d.find? name function with
  | some v => .ok v
  | none => .error (.undefinedVariable name)

def callee? (d : Declarations) (name : String) : Option Callee := d.callees.lookup name

def putCallee (d : Declarations) (name : String) (c : Callee) : Declarations :=
  { d with callees := putEntry name c d.callees }

/-- Declares a function. Calls that were made to the name before are handed on to it. -/
def declareFunction (d : Declarations) (name label : String) :
    Except Fault (Function × Declarations) :=
  let add (earlier : List Nat) : Function × Declarations :=
    let f : Function := { name, label, earlier }
    (f, d.putCallee name (.function f))
  match d.callee? name with
  | none => .ok (add [])
  | some (.placeholder p) => .ok (add p.calls)
  | some _ => .error (.duplicate name .global)

def function? (d : Declarations) (name : String) : Option Function :=
  match d.callee? name with
  | some (.function f) => some f
  | _ => none

/-- Changes a function that has been declared. -/
def modifyFunction (d : Declarations) (name : String) (change : Function → Function) : Declarations :=
  match d.function? name with
  | some f => d.putCallee name (.function (change f))
  | none => d

/-- What a name calls; a name that means nothing yet gets a placeholder. -/
def callee (d : Declarations) (name label : String) : Callee × Declarations :=
  match d.callee? name with
  | some c => (c, d)
  | none =>
    let c := Callee.placeholder { name, label }
    (c, d.putCallee name c)

/-- Remembers a call to a placeholder. -/
def recordCall (d : Declarations) (name : String) (args : Nat) : Declarations :=
  match d.callee? name with
  | some (.placeholder p) => d.putCallee name (.placeholder { p with calls := p.calls ++ [args] })
  | _ => d

/-- The next generated name. -/
def generate (d : Declarations) : String × Declarations :=
  (Names.generated (d.generated + 1), { d with generated := d.generated + 1 })

end Declarations

end InstallScript
