import InstallScript.Text.CaseTable

/-!
Lower and upper case of texts. A letter may change into several, and a capital sigma at the end of a
word becomes the final form of the small letter.
-/

namespace InstallScript.Text

/-- One of the ranges holds the character. -/
def inRanges (rs : List (Nat × Nat)) (c : Char) : Bool :=
  rs.any fun r => r.1 ≤ c.toNat && c.toNat ≤ r.2

def isCased (c : Char) : Bool := inRanges casedRanges c
def isIgnorable (c : Char) : Bool := inRanges ignorableRanges c

/-- The other case of a character by a table of runs, the character itself outside of them. -/
def shifted (rs : List CaseRun) (c : Char) : Char :=
  match rs.find? (·.covers c.toNat) with
  | some r => Char.ofNat (c.toNat + r.offset).toNat
  | none => c

/-- Lower case of a character on its own. -/
def lowerChar (c : Char) : List Char :=
  if c.toNat < 0x80 then [c.toLower]
  else if c.toNat = 0x130 then ['i', Char.ofNat 0x307]
  else [shifted lowerRuns c]

/-- Upper case of a character on its own. -/
def upperChar (c : Char) : List Char :=
  if c.toNat < 0x80 then [c.toUpper]
  else match upperSequences.lookup c.toNat with
    | some cs => cs.map Char.ofNat
    | none => [shifted upperRuns c]

/-- Past the ignorable characters a cased letter comes first. -/
def meetsCased (cs : List Char) : Bool :=
  match cs.dropWhile isIgnorable with
  | c :: _ => isCased c
  | [] => false

/-- Lower case of `cs`, which stands after the reverse of `before`. -/
def lowerChars (before : List Char) : List Char → List Char
  | [] => []
  | c :: cs =>
    (if c = 'Σ' then [if meetsCased before && !meetsCased cs then 'ς' else 'σ'] else lowerChar c)
      ++ lowerChars (c :: before) cs

/-- The text in lower case. -/
def lower (s : String) : String := String.ofList (lowerChars [] s.toList)

/-- The text in upper case. -/
def upper (s : String) : String := String.ofList (s.toList.flatMap upperChar)

end InstallScript.Text
