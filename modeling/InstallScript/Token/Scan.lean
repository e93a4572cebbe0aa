import InstallScript.Fault
import InstallScript.Text.Lines
import InstallScript.Token

/-!
From the characters of a statement to its words. A word is followed by white space and marks of
punctuation, which are gathered into its tail; a comment ends the statement.
-/

namespace InstallScript.Scan

open Text

/-- A semicolon or a number sign, where a word could begin, opens a comment. -/
def isComment (c : Char) : Bool := c = ';' || c = '#'

def isNameStart (c : Char) : Bool := c.isAlpha || c = '_'
def isNameRest (c : Char) : Bool := c.isAlphanum || c = '_' || c = '.'

/-- The characters stand at a mark of punctuation. -/
def atMark : List Char → Bool
  | '!' :: '=' :: _ => true
  | c :: _ => c = '&' || c = '(' || c = ')' || c = ',' || c = '=' || c = '<' || c = '>'
  | [] => false

/-- Reads up to and with the quote `q`. The escape `$\` hides the character after it. -/
def quoted (q : Char) : List Char → Option (List Char × List Char)
  | [] => none
  | '$' :: '\\' :: c :: cs => (quoted q cs).map fun p => ('$' :: '\\' :: c :: p.1, p.2)
  | ['$', '\\'] => none
  | c :: cs => if c = q then some ([c], cs) else (quoted q cs).map fun p => (c :: p.1, p.2)

/-- Reads up to white space or a mark. -/
def special : List Char → List Char × List Char
  | [] => ([], [])
  | c :: cs =>
    if isBlank c || atMark (c :: cs) then ([], c :: cs)
    else (c :: (special cs).1, (special cs).2)

/-- Reads the marks that come first, past any white space, each as long as it can be. -/
def marks : List Char → List Mark × List Char
  | '&' :: cs => (.join :: (marks cs).1, (marks cs).2)
  | '(' :: cs => (.opening :: (marks cs).1, (marks cs).2)
  | ')' :: cs => (.closing :: (marks cs).1, (marks cs).2)
  | ',' :: cs => (.comma :: (marks cs).1, (marks cs).2)
  | '=' :: '=' :: cs => (.relation .eq :: (marks cs).1, (marks cs).2)
  | '=' :: cs => (.assign :: (marks cs).1, (marks cs).2)
  | '!' :: '=' :: cs => (.relation .ne :: (marks cs).1, (marks cs).2)
  | '<' :: '=' :: cs => (.relation .le :: (marks cs).1, (marks cs).2)
  | '<' :: '>' :: cs => (.relation .differ :: (marks cs).1, (marks cs).2)
  | '<' :: cs => (.relation .lt :: (marks cs).1, (marks cs).2)
  | '>' :: '=' :: cs => (.relation .ge :: (marks cs).1, (marks cs).2)
  | '>' :: cs => (.relation .gt :: (marks cs).1, (marks cs).2)
  | c :: cs => if isBlank c then marks cs else ([], c :: cs)
  | [] => ([], [])

/-- The word that begins with `c`, which is no white space. A mark where a word is due makes a word
of its first character. -/
def wordFrom (c : Char) (cs : List Char) : Except Fault (Word × List Char) :=
  if isQuote c then
    match quoted c cs with
    | none => .error .unterminatedString
    | some (body, rest) => .ok (⟨.quoted, String.ofList (c :: body)⟩, rest)
  else if c.isDigit then
    .ok (⟨.integer, String.ofList (c :: cs.takeWhile Char.isAlphanum)⟩, cs.dropWhile Char.isAlphanum)
  else if isNameStart c then
    .ok (⟨.name, String.ofList (c :: cs.takeWhile isNameRest)⟩, cs.dropWhile isNameRest)
  else if atMark (c :: cs) then
    .ok (⟨.special, String.ofList [c]⟩, cs)
  else
    .ok (⟨.special, String.ofList (c :: (special cs).1)⟩, (special cs).2)

/-- The first word with its tail, and what follows; nothing at the end or at a comment. -/
def token? (cs : List Char) : Except Fault (Option (Token × List Char)) :=
  match cs.dropWhile isBlank with
  | [] => .ok none
  | c :: rest =>
    if isComment c then .ok none
    else (wordFrom c rest).map fun p => some (⟨p.1, Tail.ofMarks (marks p.2).1⟩, (marks p.2).2)

/-! ### What is left is shorter -/

theorem quoted_append {q : Char} {cs body rest : List Char} (h : quoted q cs = some (body, rest)) :
    body ++ rest = cs := by
  fun_induction quoted q cs generalizing body rest with
  | case1 => cases h
  | case2 c cs ih =>
    obtain ⟨p, hp, h⟩ := Option.map_eq_some_iff.1 h
    cases h
    simp [ih hp]
  | case3 => cases h
  | case4 => cases h; rfl
  | case5 c cs _ _ _ ih =>
    obtain ⟨p, hp, h⟩ := Option.map_eq_some_iff.1 h
    cases h
    simp [ih hp]

theorem special_append (cs : List Char) : (special cs).1 ++ (special cs).2 = cs := by
  fun_induction special cs <;> simp_all

/-- Where no mark stands a blank is passed over, and anything else ends the marks. -/
theorem marks_of_not_atMark {c : Char} {cs : List Char} (h : atMark (c :: cs) = false) :
    marks (c :: cs) = if isBlank c then marks cs else ([], c :: cs) := by
  conv => lhs; unfold marks
  split <;> simp_all [atMark]

theorem length_marks_le (cs : List Char) : (marks cs).2.length ≤ cs.length := by
  fun_induction marks cs <;> grind

theorem length_wordFrom_le {c : Char} {cs rest : List Char} {w : Word}
    (h : wordFrom c cs = .ok (w, rest)) : rest.length ≤ cs.length := by
  have hs := congrArg List.length (special_append cs)
  have hd := (List.dropWhile_suffix (l := cs) Char.isAlphanum).length_le
  have hn := (List.dropWhile_suffix (l := cs) isNameRest).length_le
  simp only [List.length_append] at hs
  unfold wordFrom at h
  split at h
  · split at h
    · cases h
    · next hq =>
      cases h
      have := congrArg List.length (quoted_append hq)
      simp only [List.length_append] at this
      omega
  · grind

theorem length_token?_lt {cs rest : List Char} {t : Token} (h : token? cs = .ok (some (t, rest))) :
    rest.length < cs.length := by
  have hd := (List.dropWhile_suffix (l := cs) isBlank).length_le
  unfold token? at h
  split at h
  · cases h
  · next c r hc =>
    split at h
    · cases h
    · cases hw : wordFrom c r with
      | error f => rw [hw] at h; cases h
      | ok p =>
        rw [hw] at h
        cases h
        have h₁ := length_marks_le p.2
        have h₂ := length_wordFrom_le hw
        rw [hc, List.length_cons] at hd
        omega

/-- The words of a statement. -/
def tokens (cs : List Char) : Except Fault (List Token) :=
  match _h : token? cs with
  | .error f => .error f
  | .ok none => .ok []
  | .ok (some (t, rest)) => (tokens rest).map (t :: ·)
termination_by cs.length
decreasing_by exact length_token?_lt _h

/-- An exclamation mark in front makes a statement a command to the compiler of the target
language. -/
def command : Token := ⟨⟨.special, "!"⟩, { command := true }⟩

/-- The words of a statement, a leading exclamation mark taken apart. -/
def statement (s : List Char) : Except Fault (List Token) :=
  match s.dropWhile isBlank with
  | '!' :: cs => (tokens cs).map (command :: ·)
  | cs => tokens cs

end InstallScript.Scan
