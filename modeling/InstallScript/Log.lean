import InstallScript.Text.Terminal

/-!
The log: what is worth telling about a run of the program, how much it matters, and which part of the
program tells it.
-/

namespace InstallScript

inductive Level
  | debug
  | info
  | warn
deriving DecidableEq, Repr

def Level.write : Level → String
  | debug => "DEBUG"
  | info => "INFO"
  | warn => "WARN"

/-- The part of the program that has something to tell. -/
inductive Part
  | program
  | build
  | statements
  | values
deriving DecidableEq, Repr

def Part.write : Part → String
  | program => "bridle"
  | build => "bridle::driver"
  | statements => "bridle::compiler"
  | values => "bridle::expression"

structure Entry where
  level : Level
  part : Part
  message : String
deriving DecidableEq, Repr

namespace Entry

/-- Lines of a message after the first stand this far to the right. -/
def margin : List Char := [' ', ' ', ' ', ' ']

/-- The message, with a margin in front of its further lines. -/
def indented (e : Entry) : String :=
  String.ofList (e.message.toList.flatMap fun c => if c = '\n' then c :: margin else [c])

/-- What stands in front of a message; the levels take up the same width. -/
def heading (e : Entry) : String :=
  "[" ++ String.ofList (e.level.write.toList.rightpad 5 ' ') ++ " " ++ e.part.write ++ "] "

/-- The entry as it is printed. A control sequence that has not ended takes the line end with it. -/
def print (e : Entry) : String := Terminal.remove (e.heading ++ e.indented ++ "\n")

end Entry

end InstallScript
