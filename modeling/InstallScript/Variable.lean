/-!
Variables of a script. The target language has one flat name space, so a local variable is written
with the name of its function in front.
-/

namespace InstallScript

/-- Where a variable can be seen: everywhere, or inside one function (named in lower case). -/
inductive Scope
  | global
  | function (name : String)
deriving DecidableEq, Repr

namespace Scope

def ofFunction : Option String → Scope
  | none => global
  | some f => function f

def describe : Scope → String
  | global => "global scope"
  | function f => s!"function '{f}'"

end Scope

/-- A variable is known by its name and scope. The target language's own variables have a spelling
of their own there. -/
structure Variable where
  name : String
  scope : Scope
  predefined : Option String := none
deriving DecidableEq, Repr

namespace Variable

/-- The name of the variable in the target language. -/
def target (v : Variable) : String :=
  match v.predefined, v.scope with
  | some t, _ => t
  | none, .global => v.name
  | none, .function f => f ++ "." ++ v.name

/-- The variable as it is read in the target language. -/
def value (v : Variable) : String := "$" ++ v.target

end Variable

end InstallScript
