/-!
White space, indentation and lines of a text. Two classes of white space are in use: the scanner of
words knows the ASCII blanks only, indentation takes in every space character of Unicode.
-/

namespace InstallScript.Text

/-- Space, tab, line feed, form feed and carriage return separate words. -/
def isBlank (c : Char) : Bool :=
  c = ' ' || c = '\t' || c = '\n' || c = '\x0c' || c = '\r'

/-- Characters of the Unicode property White_Space. -/
def isSpace (c : Char) : Bool :=
  let n := c.toNat
  (0x09 ≤ n && n ≤ 0x0D) || n = 0x20 || n = 0x85 || n = 0xA0 || n = 0x1680
    || (0x2000 ≤ n && n ≤ 0x200A) || n = 0x2028 || n = 0x2029 || n = 0x202F || n = 0x205F
    || n = 0x3000

/-- The white space a text begins with. -/
def indentation (s : String) : String := String.ofList (s.toList.takeWhile isSpace)

/-- The text without the white space it begins with. -/
def unindented (s : String) : String := String.ofList (s.toList.dropWhile isSpace)

/-- The lines of a text. A line ends with a line feed, which takes a carriage return right before it
along; what follows the last line feed is a line if it is not empty. -/
def splitLines : List Char → List (List Char)
  | [] => []
  | '\r' :: '\n' :: cs => [] :: splitLines cs
  | '\n' :: cs => [] :: splitLines cs
  | c :: cs =>
    match splitLines cs with
    | [] => [[c]]
    | l :: ls => (c :: l) :: ls

def lines (s : String) : List String := (splitLines s.toList).map String.ofList

/-- Ends every line of a written file. -/
def newline : String := "\r\n"

/-- The texts as one, a line end between each two. -/
def joinLines (ls : List String) : String := newline.intercalate ls

end InstallScript.Text
