import InstallScript.Token.Scan

/-!
The statements of a source text. A statement is a line; a backslash at its end joins the next line to
it, and a block comment goes on to the line that closes it.
-/

namespace InstallScript

open Text

/-- A statement with the number of its last line. The words are missing if they cannot be read. -/
structure Statement where
  line : Nat
  indent : String
  text : String
  tokens : Except Fault (List Token)

/-- A statement while its lines are put together. -/
structure Draft where
  indent : String
  comment : Bool
  text : String
deriving DecidableEq, Repr

namespace Draft

def opensComment : List Char → Bool
  | '/' :: '*' :: _ => true
  | _ => false

def closesComment : List Char → Bool
  | '*' :: '/' :: _ => true
  | _ :: cs => closesComment cs
  | [] => false

def start (line : String) : Draft :=
  ⟨indentation line, opensComment (unindented line).toList, line⟩

/-- A further line belongs to the statement. -/
def isOpen (d : Draft) : Bool :=
  if d.comment then !closesComment d.text.toList else d.text.toList.getLast? = some '\\'

/-- Lines of a comment stay apart; a joined line replaces the backslash and loses its indent. -/
def extend (d : Draft) (line : String) : Draft :=
  if d.comment then { d with text := d.text ++ newline ++ line }
  else { d with text := String.ofList d.text.toList.dropLast ++ unindented line }

def finish (d : Draft) (line : Nat) : Statement where
  line := line
  indent := d.indent
  text := d.text
  tokens := if d.comment then .ok [] else Scan.statement (d.text.toList.drop d.indent.length)

end Draft

/-- The statements of the lines that follow line `n`, the first of which go on with an open draft. -/
def statementsFrom (n : Nat) (pending : Option Draft) : List String → List Statement
  | [] => (pending.map (·.finish n)).toList
  | l :: ls =>
    let d := match pending with
      | none => Draft.start l
      | some d => d.extend l
    if d.isOpen then statementsFrom (n + 1) (some d) ls
    else d.finish (n + 1) :: statementsFrom (n + 1) none ls

/-- The statements of a source text. -/
def statements (source : String) : List Statement := statementsFrom 0 none (lines source)

/-- The number of lines that have been read with the statements. -/
def linesRead (ss : List Statement) : Nat := (ss.getLast?.map (·.line)).getD 0

/-- Reads a source statement by statement and each statement word by word. -/
structure Reader where
  name : String
  upcoming : List Statement
  line : Nat := 0
  indent : String := ""
  text : String := ""
  cursor : Cursor := {}

namespace Reader

def ofSource (source name : String) : Reader := { name, upcoming := statements source }

/-- Goes on to the next statement, if there is one. One whose words cannot be read is passed over:
it leaves no words, and the text of the statement before it. -/
def nextStatement (r : Reader) : Except Fault Bool × Reader :=
  match r.upcoming with
  | [] => (.ok false, r)
  | s :: rest =>
    let r := { r with upcoming := rest, line := s.line, indent := s.indent, cursor := {} }
    match s.tokens with
    | .error f => (.error f, r)
    | .ok ts => (.ok true, { r with text := s.text, cursor := { ahead := ts } })

def nextWord (r : Reader) : Except Fault Word × Reader :=
  match r.cursor.next? with
  | none => (.error .endOfStatement, r)
  | some (w, c) => (.ok w, { r with cursor := c })

def closeOne (r : Reader) : Reader := { r with cursor := r.cursor.closeOne }

end Reader

end InstallScript
