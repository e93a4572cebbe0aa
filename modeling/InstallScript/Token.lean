import InstallScript.Text.Case
import InstallScript.Text.Quote

/-!
The words of a statement. Punctuation makes no words of its own: it is kept with the word it follows,
as a record of which marks occurred, and the meaning of a statement is read off these records.
-/

namespace InstallScript

/-- A quoted word has its quotes; special words are what is none of the others, such as `$INSTDIR`,
`/SD` or `-1`. -/
inductive Word.Kind
  | name
  | quoted
  | integer
  | special
deriving DecidableEq, Repr

structure Word where
  kind : Word.Kind
  text : String
deriving DecidableEq, Repr

namespace Word

/-- Names are the same in upper and lower case. -/
def name (w : Word) : String := Text.lower w.text

/-- The text of the word without its quotes. -/
def bare (w : Word) : String := Text.unquote w.text

def isName (w : Word) : Bool := w.kind = .name

end Word

/-- The comparison operators. -/
inductive Relation
  | eq | ne | lt | le | differ | gt | ge
deriving DecidableEq, Repr

def Relation.text : Relation → String
  | eq => "=="
  | ne => "!="
  | lt => "<"
  | le => "<="
  | differ => "<>"
  | gt => ">"
  | ge => ">="

/-- One mark of punctuation. -/
inductive Mark
  | join
  | opening
  | closing
  | comma
  | assign
  | relation (r : Relation)
deriving DecidableEq, Repr

/-- The marks after a word. Closing parentheses are counted, of the relations the last one counts;
`command` marks the exclamation mark that begins a statement. -/
structure Tail where
  joins : Bool := false
  opens : Bool := false
  closes : Nat := 0
  separates : Bool := false
  relation : Option Relation := none
  assigns : Bool := false
  command : Bool := false
deriving DecidableEq, Repr

namespace Tail

def isEmpty (t : Tail) : Bool := t = {}

/-- A closing parenthesis is pending. -/
def isClosing (t : Tail) : Bool := 0 < t.closes

def add (t : Tail) : Mark → Tail
  | .join => { t with joins := true }
  | .opening => { t with opens := true }
  | .closing => { t with closes := t.closes + 1 }
  | .comma => { t with separates := true }
  | .assign => { t with assigns := true }
  | .relation r => { t with relation := some r }

def ofMarks (ms : List Mark) : Tail := ms.foldl add {}

/-- One closing parenthesis less. -/
def closeOne (t : Tail) : Tail := { t with closes := t.closes - 1 }

end Tail

structure Token where
  word : Word
  tail : Tail
deriving DecidableEq, Repr

/-- A place between the words of a statement: the marks of the word just read, and the words to
come. -/
structure Cursor where
  tail : Tail := {}
  ahead : List Token := []
deriving DecidableEq, Repr

namespace Cursor

def hasNext (c : Cursor) : Bool := !c.ahead.isEmpty

def next? (c : Cursor) : Option (Word × Cursor) :=
  match c.ahead with
  | [] => none
  | t :: ts => some (t.word, ⟨t.tail, ts⟩)

/-- Takes one pending parenthesis off the marks of the word just read. -/
def closeOne (c : Cursor) : Cursor := { c with tail := c.tail.closeOne }

end Cursor

end InstallScript
