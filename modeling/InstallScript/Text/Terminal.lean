import InstallScript.Text.Encoding

/-!
Texts without the control sequences of terminals. An escape character begins a sequence, and what
follows it decides where the sequence ends. Main statement: a text of visible characters stays as it
is (`removeFrom_of_visible`).
-/

namespace InstallScript.Terminal

/-- Tabs and line ends move on in a text and are kept. -/
def isMove (c : Char) : Bool := c = '\t' || c = '\n' || c = '\x0c' || c = '\r'

/-- The character is no control character, or one that is kept. -/
def isVisible (c : Char) : Bool := isMove c || (' ' ≤ c && c ≠ '\x7f')

/-- What has begun and not ended: nothing, an escape sequence, one with intermediate characters, a
control sequence, the three parts in front of a device string, a string, or a system command. -/
inductive State
  | ground
  | escape
  | intermediate
  | control
  | device
  | deviceParameter
  | deviceIntermediate
  | string
  | command
deriving DecidableEq, Repr

namespace State

/-- Tabs and line ends count even inside of the sequence. -/
def passesMoves : State → Bool
  | ground | escape | intermediate | control => true
  | _ => false

/-- The byte 9C ends a string, also as a part of a longer character. -/
def endsString (c : Char) : Bool := (Utf8.encodeChar c).contains 0x9C

/-- The state behind a character that goes by unseen. -/
def next (s : State) (c : Char) : State :=
  let within (first last : Char) : Bool := first ≤ c && c ≤ last
  if c = '\x1b' then escape
  else if c = '\x18' || c = '\x1a' then ground
  else match s with
    | ground => ground
    | escape =>
      if within ' ' '/' then intermediate
      else if c = '[' then control
      else if c = ']' then command
      else if c = 'P' then device
      else if c = 'X' || c = '^' || c = '_' then string
      else if within '0' '~' then ground
      else escape
    | intermediate => if within '0' '~' then ground else intermediate
    | control => if within '@' '~' then ground else control
    | device =>
      if within ' ' '/' then deviceIntermediate
      else if within '0' '?' then deviceParameter
      else if within '@' '~' then string
      else device
    | deviceParameter =>
      if within ' ' '/' then deviceIntermediate
      else if within '<' '~' then string
      else deviceParameter
    | deviceIntermediate => if within '0' '~' then string else deviceIntermediate
    | string => if endsString c then ground else string
    | command => if c = '\x07' then ground else command

end State

/-- The part of a text that is seen. Behind a seen character, which `seen` tells, all that is visible
is seen, even if a sequence has not ended; the sequence goes on at the next control character. -/
def removeFrom (s : State) (seen : Bool) : List Char → List Char
  | [] => []
  | c :: cs =>
    if isVisible c && (seen || s = .ground || (isMove c && s.passesMoves)) then
      c :: removeFrom (if c.toNat < 0x80 then s else .ground) true cs
    else removeFrom (s.next c) false cs

theorem removeFrom_of_visible {cs : List Char} (h : ∀ c ∈ cs, isVisible c = true) (seen : Bool) :
    removeFrom .ground seen cs = cs := by
  induction cs generalizing seen with
  | nil => rfl
  | cons c cs ih =>
    have hc : isVisible c = true := h c List.mem_cons_self
    have hcs := ih (fun d hd => h d (List.mem_cons_of_mem c hd)) true
    simp [removeFrom, hc, hcs]

/-- The text without control sequences and control characters. -/
def remove (s : String) : String := String.ofList (removeFrom .ground false s.toList)

end InstallScript.Terminal
