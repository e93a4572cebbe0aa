import InstallScript.Target.Operand

/-!
Conditions of the target language. Each term of a condition is a line of its own, opened by a keyword
that says how the term goes on from the one before it.
-/

namespace InstallScript

/-- What a term of a condition begins with. -/
inductive Opener
  | ifTrue
  | elseIf
  | andIf
  | orIf
  | whileTrue
  | untilTrue
deriving DecidableEq, Repr

namespace Opener

/-- The opener that a name in lower case stands for. -/
def ofName? : String → Option Opener
  | "if" => some ifTrue
  | "elseif" => some elseIf
  | "and" => some andIf
  | "or" => some orIf
  | "while" => some whileTrue
  | "until" => some untilTrue
  | _ => none

def write : Opener → String
  | ifTrue => "If"
  | elseIf => "ElseIf"
  | andIf => "AndIf"
  | orIf => "OrIf"
  | whileTrue => "While"
  | untilTrue => "Until"

/-- The opener begins a branch. -/
def isBranch : Opener → Bool
  | ifTrue | elseIf => true
  | _ => false

/-- The opener joins its term to the one before. -/
def isConnective : Opener → Bool
  | andIf | orIf => true
  | _ => false

/-- The opener bounds a loop. -/
def isLoop : Opener → Bool
  | whileTrue | untilTrue => true
  | _ => false

end Opener

/-- A term: operands on the left, then maybe a relation with the operand on its right. -/
structure Term where
  opener : Opener
  negated : Bool := false
  left : List Operand := []
  comparison : Option (String × Operand) := none
deriving DecidableEq, Repr

namespace Term

def negate (t : Term) : Term := { t with negated := true }

def addLeft (t : Term) (x : Operand) : Term := { t with left := t.left ++ [x] }

def compare (t : Term) (relation : String) (right : Operand) : Term :=
  { t with comparison := some (relation, right) }

/-- The operands of the term in the order they are written. -/
def operands (t : Term) : List Operand := t.left ++ (t.comparison.map (·.2)).toList

/-- The term as a line; the condition of a loop stands together with the keyword of the loop. -/
def write (loop : String) (t : Term) : String :=
  "$\x7b" ++ loop ++ t.opener.write ++ (if t.negated then "Not" else "") ++ "\x7d"
    ++ String.join (t.left.map fun x => " " ++ x.write)
    ++ match t.comparison with
      | none => ""
      | some (relation, right) => " " ++ relation ++ " " ++ right.write

end Term

end InstallScript
