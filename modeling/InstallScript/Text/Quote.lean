/-!
Quoted texts. A string is written between two equal quote characters, of which there are three.
-/

namespace InstallScript.Text

/-- The double quote, the apostrophe and the backquote. -/
def isQuote (c : Char) : Bool := c = '\x22' || c = '\x27' || c = '\x60'

/-- A text between two equal quotes loses them; any other text stays as it is. -/
def unquoteChars : List Char → List Char
  | [] => []
  | q :: cs => if isQuote q && cs.getLast? = some q then cs.dropLast else q :: cs

def unquote (s : String) : String := String.ofList (unquoteChars s.toList)

/-- The text between double quotes. -/
def quote (s : String) : String := "\"" ++ s ++ "\""

end InstallScript.Text
