import InstallScript.Variable

/-!
Why a statement cannot be compiled, and how each cause is reported.
-/

namespace InstallScript

inductive Fault
  | unterminatedString
  | endOfStatement
  | trailingWord
  | variableName (word : String)
  | assignmentTarget (word : String)
  | nestedFunction
  | parameterName (word : String)
  | unterminatedHeader
  | wordAfterHeader
  | returnOutsideFunction
  | endOutsideFunction
  | unterminatedCall
  | conditionKeyword (word : String)
  | connective (word : String)
  | loopKeyword (loop word : String)
  | loopShape
  | loopNegation (loop : String)
  | missingOperand (relation : String)
  | nesting
  | undefinedVariable (name : String)
  | duplicate (name : String) (scope : Scope)
  | tooFew (callee : String) (expected provided : Nat)
  | tooMany (callee : String) (expected provided : Nat)
  | noResult (callee : String)
  | reservedName (name : String)
  | dialogLiteral (argument value : String)
  | dialogButtons (value : String)
  | dialogSilent (button : String)
  | recursiveInclude (name : String)
deriving DecidableEq, Repr

namespace Fault

/-- What is wrong with the form of a statement; `none` if its form is right and its meaning is not. -/
def form : Fault → Option String
  | unterminatedString => some "Unterminated string"
  | endOfStatement => some "Unexpected end of statement"
  | trailingWord => some "Unexpected word at the end of statement"
  | variableName w => some s!"Invalid variable name '{w}'"
  | assignmentTarget w => some s!"Invalid assignment target '{w}'"
  | nestedFunction => some "Cannot declare function within a function"
  | parameterName w => some s!"Invalid function parameter '{w}'"
  | unterminatedHeader => some "Unterminated function definition"
  | wordAfterHeader => some "Unexpected word in function argument"
  | returnOutsideFunction => some "Return is not allowed outside function"
  | endOutsideFunction => some "FunctionEnd is not allowed outside function"
  | unterminatedCall => some "Unterminated function call"
  | conditionKeyword w => some s!"Unexpected word '{w}'"
  | connective w => some s!"Expected 'And' or 'Or', found '{w}'"
  | loopKeyword l w => some s!"Expected 'While' or 'Until' after '{l}', found '{w}'"
  | loopShape => some "Illegal loop syntax"
  | loopNegation l => some s!"Illegal modifier 'Not' in {l} statement"
  | missingOperand r => some s!"Missing right operand for '{r}'"
  | nesting => some "expression too deeply nested"
  | _ => none

/-- The fault is one of form. -/
def isFormal (f : Fault) : Bool := f.form.isSome

/-- The report of a fault. -/
def message (f : Fault) : String :=
  match f with
  | undefinedVariable n => s!"undefined variable '{n}'"
  | duplicate n s => s!"'{n}' is already declared in " ++ s.describe
  | tooFew c e p => s!"too few arguments for '{c}' (expected at minimum {e}, provided {p})"
  | tooMany c e p => s!"too many arguments for '{c}' (expected at most {e}, provided {p})"
  | noResult c => s!"Function '{c}' doesn't return a value"
  | reservedName n => s!"'{n}' is reserved for names generated by the compiler"
  | dialogLiteral a v => s!"MsgBox {a} must be a literal, got '{v}'"
  | dialogButtons v => s!"Invalid button group argument '{v}'"
  | dialogSilent b => s!"Unsupported MsgBox SD return {b}"
  | recursiveInclude n => s!"recursive include of '{n}'"
  | f => "syntax error: " ++ f.form.getD ""

end Fault

end InstallScript
