import InstallScript.Names
import InstallScript.Token

/-!
Operands of the target language, and how they are written. A concatenation is one string there, in
which variables are read in place.
-/

namespace InstallScript

/-- A part of a string: characters, or the value of a variable. -/
inductive Piece
  | text (s : String)
  | value (v : Variable)
deriving DecidableEq, Repr

def Piece.write : Piece → String
  | text s => s
  | value v => v.value

/-- A literal is kept as it is written, with its quotes. -/
inductive Operand
  | literal (text : String)
  | var (v : Variable)
  | joined (pieces : List Piece)
  | button (name : String)
  | omitted
deriving DecidableEq, Repr

namespace Operand

def ofText (s : String) : Operand := literal (Text.quote s)
def ofInt (n : Int) : Operand := literal (toString n)

/-- The literal a word stands for, unless it is a name. -/
def ofWord (w : Word) : Operand := literal w.text

def isOmitted : Operand → Bool
  | omitted => true
  | _ => false

/-- The operand as part of a string. -/
def pieces : Operand → List Piece
  | literal t => [.text (Text.unquote t)]
  | var v => [.value v]
  | joined ps => ps
  | button b => [.text b]
  | omitted => [.text ("$\x7b" ++ Names.omitted ++ "\x7d")]

/-- The operand as text inside a string. -/
def bare (x : Operand) : String := String.join (x.pieces.map Piece.write)

/-- Two operands as one string. -/
def join (x y : Operand) : Operand := joined (x.pieces ++ y.pieces)

/-- The operand as it is written in a statement. -/
def write : Operand → String
  | literal t => t
  | var v => v.value
  | x => Text.quote x.bare

/-- The text of an operand that is known when the script is compiled. -/
def literalText? : Operand → Option String
  | literal t => some (Text.unquote t)
  | joined ps => some (joined ps).bare
  | _ => none

end Operand

end InstallScript
