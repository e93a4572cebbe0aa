import InstallScript.Proofs.ByteScan
import InstallScript.Proofs.Lossless

/-!
Words, byte by byte. The scanner of this module sees nothing but the bytes of a text and an offset: it
tests single bytes, goes on by one byte at a time, jumps three bytes in strings, and takes the bytes
between two offsets for a word, where a stretch that is no character would be replaced (`Utf8.lossy`).
All the same it stops only where a character begins. A byte of a character outside ASCII passes no test
for an ASCII character, so a loop goes through such a character as a whole or stops in front of it
(`skipWhile_utf8`), and the single byte it goes on by where a mark stands is a whole character. Hence the
words are those of the characters (`statementAt_utf8`), and nothing of a text is lost
(`words_and_gaps_make_statement`).
-/

namespace InstallScript

namespace Utf8

/-- The bytes with a replacement character for every stretch that is no character: the bytes up to the
one that does not go with them, or all that is left at the end. -/
def lossy : Bytes → List Char
  | [] => []
  | b :: bs =>
    match _h : decodeChar b bs with
    | .ok (c, rest) => c :: lossy rest
    | .error (some n) => '\uFFFD' :: lossy (bs.drop (n - 1))
    | .error none => ['\uFFFD']
termination_by bs => bs.length
decreasing_by
  · exact Nat.lt_succ_of_le (length_decodeChar_le _h)
  · rw [List.length_drop]
    exact Nat.lt_succ_of_le (Nat.sub_le _ _)

/-- The byte is an ASCII character of the class. -/
def isAscii (p : Char → Bool) (b : UInt8) : Bool := b.toNat < 0x80 && p (Char.ofNat b.toNat)

variable {p : Char → Bool} {c : Char} {b : UInt8}

theorem isAscii_ascii (hc : c.toNat < 0x80) : isAscii p (ascii c) = p c := by
  have hbyte : (ascii c).toNat = c.toNat := toNat_byte (by omega)
  rw [isAscii, hbyte, Char.ofNat_toNat, decide_eq_true hc, Bool.true_and]

theorem isAscii_of_le (hb : 0x80 ≤ b.toNat) : isAscii p b = false := by
  rw [isAscii, decide_eq_false (by omega), Bool.false_and]

end Utf8

namespace Scan

open Text Utf8

/-! ## The scanner -/

/-- Goes on byte by byte as long as a byte and the one behind it pass the test. -/
def skipWhile (test : UInt8 → Option UInt8 → Bool) (code : Bytes) (offset : Nat) : Nat :=
  match _h : code[offset]? with
  | none => offset
  | some b => if test b code[offset + 1]? then skipWhile test code (offset + 1) else offset
termination_by code.length - offset
decreasing_by
  obtain ⟨hlt, -⟩ := List.getElem?_eq_some_iff.mp _h
  omega

/-- The first byte is an ASCII character of the class. -/
def first (p : Char → Bool) (b : UInt8) (_ : Option UInt8) : Bool := isAscii p b

def skipBlanks (code : Bytes) (offset : Nat) : Nat := skipWhile (first isBlank) code offset

/-- The characters that are a mark or begin one, whatever follows. -/
def isMarkStart (c : Char) : Bool :=
  c = '&' || c = '(' || c = ')' || c = ',' || c = '=' || c = '<' || c = '>'

/-- A mark stands at the byte. -/
def markStands (b : UInt8) (next : Option UInt8) : Bool :=
  isAscii isMarkStart b || b = ascii '!' && next = some (ascii '=')

/-- The byte can be part of a special word. -/
def isSpecial (b : UInt8) (next : Option UInt8) : Bool := !isAscii isBlank b && !markStands b next

/-- The text of the bytes between two offsets. -/
def slice (code : Bytes) (start stop : Nat) : String :=
  String.ofList (lossy ((code.take stop).drop start))

/-- The word that stands at an offset or behind white space there, and the offset behind it. -/
def wordAt (code : Bytes) (offset : Nat) : Except Fault (Option (Word × Nat)) :=
  let start := skipBlanks code offset
  let upTo (kind : Word.Kind) (stop : Nat) := .ok (some (⟨kind, slice code start stop⟩, stop))
  match code[start]? with
  | none => .ok none
  | some b =>
    if isAscii isComment b then .ok none
    else if isAscii isQuote b then
      match closeFrom code b (start + 1) with
      | none => .error .unterminatedString
      | some stop => upTo .quoted stop
    else if isAscii Char.isDigit b then upTo .integer (skipWhile (first Char.isAlphanum) code start)
    else if isAscii isNameStart b then upTo .name (skipWhile (first isNameRest) code start)
    else
      let stop := skipWhile isSpecial code start
      upTo .special (if stop = start then start + 1 else stop)

/-- The mark at a byte, and the number of its bytes. -/
def markAt? (b : UInt8) (next : Option UInt8) : Option (Mark × Nat) :=
  let double := next = some (ascii '=')
  if b = ascii '&' then some (.join, 1)
  else if b = ascii '(' then some (.opening, 1)
  else if b = ascii ')' then some (.closing, 1)
  else if b = ascii ',' then some (.comma, 1)
  else if b = ascii '=' then if double then some (.relation .eq, 2) else some (.assign, 1)
  else if b = ascii '!' then if double then some (.relation .ne, 2) else none
  else if b = ascii '<' then
    if double then some (.relation .le, 2)
    else if next = some (ascii '>') then some (.relation .differ, 2)
    else some (.relation .lt, 1)
  else if b = ascii '>' then if double then some (.relation .ge, 2) else some (.relation .gt, 1)
  else none

/-! ### Offsets grow -/

theorem le_skipWhile (test : UInt8 → Option UInt8 → Bool) (code : Bytes) (offset : Nat) :
    offset ≤ skipWhile test code offset := by
  fun_induction skipWhile test code offset with
  | case1 => exact Nat.le_refl _
  | case2 _ _ _ _ ih => omega
  | case3 => exact Nat.le_refl _

theorem lt_skipWhile {test : UInt8 → Option UInt8 → Bool} {code : Bytes} {offset : Nat} {b : UInt8}
    (hb : code[offset]? = some b) (htest : test b code[offset + 1]? = true) :
    offset < skipWhile test code offset := by
  have hnext := le_skipWhile test code (offset + 1)
  rw [skipWhile]
  split
  · next h => cases hb.symm.trans h
  · next h =>
    cases hb.symm.trans h
    rw [if_pos htest]
    omega

theorem lt_closeFrom {code : Bytes} {q : UInt8} {offset stop : Nat}
    (h : closeFrom code q offset = some stop) : offset < stop := by
  fun_induction closeFrom code q offset with
  | case1 => cases h
  | case2 offset b hb _ ih =>
    obtain ⟨hlt, -⟩ := List.getElem?_eq_some_iff.mp hb
    have hstop := ih h
    omega
  | case3 =>
    cases h
    exact Nat.lt_succ_self _
  | case4 _ _ _ _ _ ih => exact Nat.lt_of_succ_lt (ih h)

theorem isAscii_mono {p q : Char → Bool} {b : UInt8} (h : ∀ c, p c → q c) (hb : isAscii p b) :
    isAscii q b := by
  rw [isAscii, Bool.and_eq_true] at hb ⊢
  exact ⟨hb.1, h _ hb.2⟩

theorem lt_of_wordAt {code : Bytes} {offset stop : Nat} {w : Word}
    (h : wordAt code offset = .ok (some (w, stop))) : offset < stop ∧ offset < code.length := by
  have hle : offset ≤ skipBlanks code offset := le_skipWhile _ code offset
  unfold wordAt at h
  dsimp only at h
  generalize skipBlanks code offset = start at h hle
  split at h
  · cases h
  next b hb =>
  obtain ⟨hlt, -⟩ := List.getElem?_eq_some_iff.mp hb
  refine ⟨Nat.lt_of_le_of_lt hle ?_, Nat.lt_of_le_of_lt hle hlt⟩
  split at h
  · cases h
  split at h
  · split at h
    · cases h
    next hstop =>
    cases h
    exact Nat.lt_of_succ_lt (lt_closeFrom hstop)
  split at h
  · next hdigit =>
    cases h
    exact lt_skipWhile hb (isAscii_mono (fun c hc => by simp [Char.isAlphanum, hc]) hdigit)
  split at h
  · next hname =>
    cases h
    refine lt_skipWhile hb (isAscii_mono (fun c hc => ?_) hname)
    simp only [isNameStart, isNameRest, Char.isAlphanum, Bool.or_eq_true] at hc ⊢
    exact .inl (hc.imp_left .inl)
  · cases h
    have hspecial := le_skipWhile isSpecial code start
    split <;> omega

theorem markAt?_pos {b : UInt8} {next : Option UInt8} {m : Mark} {n : Nat}
    (h : markAt? b next = some (m, n)) : 0 < n := by
  unfold markAt? at h
  grind

/-- Adds the marks that stand at an offset, past any white space, to a tail. -/
def tailFrom (code : Bytes) (offset : Nat) (tail : Tail) : Tail × Nat :=
  let here := skipBlanks code offset
  match _h : code[here]? with
  | none => (tail, here)
  | some b =>
    match _hm : markAt? b code[here + 1]? with
    | none => (tail, here)
    | some (m, n) => tailFrom code (here + n) (tail.add m)
termination_by code.length - offset
decreasing_by
  obtain ⟨hlt, -⟩ := List.getElem?_eq_some_iff.mp _h
  have hle := le_skipWhile (first isBlank) code offset
  have hpos := markAt?_pos _hm
  simp only [here, skipBlanks] at hlt ⊢
  omega

theorem le_tailFrom (code : Bytes) (offset : Nat) (tail : Tail) :
    offset ≤ (tailFrom code offset tail).2 := by
  fun_induction tailFrom code offset tail with
  | case1 offset => exact le_skipWhile _ code offset
  | case2 offset => exact le_skipWhile _ code offset
  | case3 offset _ here _ _ _ _ _ ih =>
    have hle : offset ≤ here := le_skipWhile _ code offset
    omega

/-- The word at an offset with its tail, and the offset behind them. -/
def tokenAt (code : Bytes) (offset : Nat) : Except Fault (Option (Token × Nat)) :=
  (wordAt code offset).map <| Option.map fun p =>
    let tail := tailFrom code p.2 {}
    (⟨p.1, tail.1⟩, tail.2)

theorem lt_of_tokenAt {code : Bytes} {offset stop : Nat} {t : Token}
    (h : tokenAt code offset = .ok (some (t, stop))) : offset < stop ∧ offset < code.length := by
  unfold tokenAt at h
  cases hw : wordAt code offset with
  | error f =>
    rw [hw] at h
    cases h
  | ok found =>
    cases found with
    | none =>
      rw [hw] at h
      cases h
    | some p =>
      rw [hw] at h
      cases h
      have hlt := lt_of_wordAt hw
      exact ⟨Nat.lt_of_lt_of_le hlt.1 (le_tailFrom _ _ _), hlt.2⟩

/-- The words from an offset on. -/
def wordsFrom (code : Bytes) (offset : Nat) : Except Fault (List Token) :=
  match _h : tokenAt code offset with
  | .error f => .error f
  | .ok none => .ok []
  | .ok (some (t, stop)) => (wordsFrom code stop).map (t :: ·)
termination_by code.length - offset
decreasing_by
  have hlt := lt_of_tokenAt _h
  omega

/-- The words of a statement, a leading exclamation mark taken apart. -/
def statementAt (code : Bytes) : Except Fault (List Token) :=
  let start := skipBlanks code 0
  if code[start]? = some (ascii '!') then (wordsFrom code (start + 1)).map (command :: ·)
  else wordsFrom code start

/-! ## Offsets and characters -/

/-- The offset of what is left of a text. -/
def offsetOf (text rest : List Char) : Nat := (utf8 text).length - (utf8 rest).length

/-- Only characters of ASCII are in the class. -/
def AsciiOnly (p : Char → Bool) : Prop := ∀ c, p c → c.toNat < 0x80

variable {p : Char → Bool} {c d : Char} {text cs ds before : List Char}

theorem offsetOf_append (before cs : List Char) :
    offsetOf (before ++ cs) cs = (utf8 before).length := by
  rw [offsetOf, utf8_append, List.length_append, Nat.add_sub_cancel]

theorem offsetOf_cons (hc : c.toNat < 0x80) (h : c :: cs <:+ text) :
    offsetOf text cs = offsetOf text (c :: cs) + 1 := by
  obtain ⟨before, rfl⟩ := h
  have hsplit : before ++ c :: cs = (before ++ [c]) ++ cs := by simp
  rw [offsetOf_append, hsplit, offsetOf_append, utf8_append, utf8_ascii hc, List.length_append]
  rfl

theorem suffix_of_cons (h : c :: cs <:+ text) : cs <:+ text := (List.suffix_cons c cs).trans h

/-- The bytes at an offset are those of what is left of the text. -/
theorem getElem?_offsetOf (h : cs <:+ text) (n : Nat) :
    (utf8 text)[offsetOf text cs + n]? = (utf8 cs)[n]? := by
  obtain ⟨before, rfl⟩ := h
  rw [offsetOf_append, utf8_append, getElem?_behind]

theorem head?_offsetOf (h : cs <:+ text) : (utf8 text)[offsetOf text cs]? = (utf8 cs).head? := by
  have hhere := getElem?_offsetOf h 0
  rw [Nat.add_zero] at hhere
  rw [hhere, List.head?_eq_getElem?]

theorem next_offsetOf (hc : c.toNat < 0x80) (h : c :: cs <:+ text) :
    (utf8 text)[offsetOf text (c :: cs) + 1]? = (utf8 cs).head? := by
  rw [getElem?_offsetOf h, utf8_ascii hc, List.getElem?_cons_succ, List.head?_eq_getElem?]

theorem not_ascii_of_le (h : ∀ b ∈ encodeChar c, 0x80 ≤ b.toNat) : ¬c.toNat < 0x80 := by
  intro hc
  have hbyte : encodeChar c = [ascii c] := by
    rw [encodeChar]
    exact if_pos hc
  have hlarge := h (ascii c) (by simp [hbyte])
  have hsmall := toNat_ascii hc
  omega

/-- A class of ASCII characters is told from the first byte of a character. -/
theorem isAscii_head (hp : AsciiOnly p) {b : UInt8} (hb : (utf8 (c :: cs)).head? = some b) :
    isAscii p b = p c := by
  rcases encodeChar_cases c with ⟨hc, -⟩ | hc
  · rw [utf8_ascii hc, List.head?_cons, Option.some_inj] at hb
    rw [← hb, isAscii_ascii hc]
  · obtain ⟨first, tail, hfirst, -⟩ := exists_encodeChar c
    rw [utf8_cons, hfirst, List.cons_append, List.head?_cons, Option.some_inj] at hb
    have hlarge : 0x80 ≤ b.toNat := hc b (by simp [hfirst, hb])
    rw [isAscii_of_le hlarge, Bool.eq_false_iff.mpr fun h => not_ascii_of_le hc (hp c h)]

/-! ### The classes -/

theorem asciiOnly_isBlank : AsciiOnly isBlank := by
  intro c hc
  simp only [isBlank, Bool.or_eq_true, decide_eq_true_eq] at hc
  rcases hc with (((rfl | rfl) | rfl) | rfl) | rfl <;> decide

theorem asciiOnly_isComment : AsciiOnly isComment := by
  intro c hc
  simp only [isComment, Bool.or_eq_true, decide_eq_true_eq] at hc
  rcases hc with rfl | rfl <;> decide

theorem asciiOnly_isQuote : AsciiOnly isQuote := by
  intro c hc
  simp only [isQuote, Bool.or_eq_true, decide_eq_true_eq] at hc
  rcases hc with (rfl | rfl) | rfl <;> decide

theorem asciiOnly_isAlphanum : AsciiOnly Char.isAlphanum := by
  intro c hc
  rcases Bool.or_eq_true_iff.mp hc with hletter | hdigit
  · rcases Bool.or_eq_true_iff.mp hletter with hupper | hlower
    · exact Nat.lt_of_le_of_lt (of_decide_eq_true hupper).2 (by decide)
    · exact Nat.lt_of_le_of_lt (of_decide_eq_true (Bool.and_eq_true_iff.mp hlower).2) (by decide)
  · exact Nat.lt_of_le_of_lt (of_decide_eq_true (Bool.and_eq_true_iff.mp hdigit).2) (by decide)

theorem AsciiOnly.mono {q : Char → Bool} (hp : AsciiOnly p) (h : ∀ c, q c → p c) : AsciiOnly q :=
  fun c hc => hp c (h c hc)

theorem asciiOnly_isDigit : AsciiOnly Char.isDigit :=
  asciiOnly_isAlphanum.mono fun c hc => by simp [Char.isAlphanum, hc]

theorem asciiOnly_isNameRest : AsciiOnly isNameRest := by
  intro c hc
  simp only [isNameRest, Bool.or_eq_true, decide_eq_true_eq] at hc
  rcases hc with (hc | rfl) | rfl
  · exact asciiOnly_isAlphanum c hc
  · decide
  · decide

theorem isNameRest_of_isNameStart (c : Char) (hc : isNameStart c) : isNameRest c := by
  simp only [isNameStart, isNameRest, Char.isAlphanum, Bool.or_eq_true] at hc ⊢
  exact .inl (hc.imp_left .inl)

theorem asciiOnly_isNameStart : AsciiOnly isNameStart :=
  asciiOnly_isNameRest.mono isNameRest_of_isNameStart

theorem asciiOnly_isMarkStart : AsciiOnly isMarkStart := by
  intro c hc
  simp only [isMarkStart, Bool.or_eq_true, decide_eq_true_eq] at hc
  rcases hc with (((((rfl | rfl) | rfl) | rfl) | rfl) | rfl) | rfl <;> decide

theorem atMark_cons (c : Char) (cs : List Char) :
    atMark (c :: cs) = (isMarkStart c || c = '!' && cs.head? = some '=') := by
  by_cases h : c = '!' ∧ cs.head? = some '='
  · obtain ⟨rfl, hhead⟩ := h
    obtain ⟨ds, rfl⟩ := List.head?_eq_some_iff.mp hhead
    rfl
  · have hplain : atMark (c :: cs) = isMarkStart c := by
      rw [atMark, isMarkStart]
      rintro ds rfl rfl
      exact h ⟨rfl, rfl⟩
    rw [hplain, ← Bool.decide_and, decide_eq_false h, Bool.or_false]

theorem ascii_of_atMark (h : atMark (c :: cs)) : c.toNat < 0x80 := by
  rw [atMark_cons, Bool.or_eq_true, Bool.and_eq_true, decide_eq_true_eq] at h
  rcases h with h | ⟨rfl, -⟩
  · exact asciiOnly_isMarkStart c h
  · decide

/-! ## Loops over bytes -/

/-- What is left of characters behind those that pass a test, which may look at the ones that follow. -/
def behind (stay : Char → List Char → Bool) : List Char → List Char
  | [] => []
  | c :: cs => if stay c cs then behind stay cs else c :: cs

/-- A test of bytes comes to the same as a test of characters. All bytes outside ASCII pass it, or
none. -/
structure Agree (test : UInt8 → Option UInt8 → Bool) (stay : Char → List Char → Bool) (wide : Bool) :
    Prop where
  ascii : ∀ c cs, c.toNat < 0x80 → test (ascii c) (utf8 cs).head? = stay c cs
  byte : ∀ b next, 0x80 ≤ b.toNat → test b next = wide
  char : ∀ c cs, ¬c.toNat < 0x80 → stay c cs = wide

variable {test : UInt8 → Option UInt8 → Bool} {stay : Char → List Char → Bool} {wide : Bool}

theorem Agree.first (hp : AsciiOnly p) : Agree (first p) (fun c _ => p c) false where
  ascii _ _ hc := isAscii_ascii hc
  byte _ _ hb := isAscii_of_le hb
  char c _ hc := Bool.eq_false_iff.mpr fun h => hc (hp c h)

theorem head?_utf8_eq_iff (hc : c.toNat < 0x80) : (utf8 cs).head? = some (ascii c) ↔ cs.head? = some c := by
  refine ⟨head?_of_head?_utf8 hc, fun h => ?_⟩
  obtain ⟨ds, rfl⟩ := List.head?_eq_some_iff.mp h
  rw [utf8_ascii hc, List.head?_cons]

theorem ascii_eq_iff (hc : c.toNat < 0x80) (hd : d.toNat < 0x80) : ascii c = ascii d ↔ c = d :=
  ⟨ascii_inj hc hd, congrArg ascii⟩

theorem ne_ascii_of_le {b : UInt8} (hb : 0x80 ≤ b.toNat) (hd : d.toNat < 0x80) : b ≠ ascii d := by
  rintro rfl
  have hsmall := toNat_ascii hd
  omega

theorem markStands_ascii (hc : c.toNat < 0x80) :
    markStands (ascii c) (utf8 cs).head? = atMark (c :: cs) := by
  rw [markStands, atMark_cons, isAscii_ascii hc, decide_eq_decide.mpr (ascii_eq_iff hc (by decide)),
    decide_eq_decide.mpr (head?_utf8_eq_iff (by decide))]

theorem markStands_of_le {b : UInt8} (hb : 0x80 ≤ b.toNat) (next : Option UInt8) :
    markStands b next = false := by
  rw [markStands, isAscii_of_le hb, decide_eq_false (ne_ascii_of_le hb (by decide))]
  rfl

theorem agree_isSpecial : Agree isSpecial (fun c cs => !(isBlank c || atMark (c :: cs))) true where
  ascii c cs hc := by rw [isSpecial, isAscii_ascii hc, markStands_ascii hc, Bool.not_or]
  byte b next hb := by
    rw [isSpecial, isAscii_of_le hb, markStands_of_le hb]
    rfl
  char c cs hc := by
    have hblank : isBlank c = false := Bool.eq_false_iff.mpr fun h => hc (asciiOnly_isBlank c h)
    have hmark : atMark (c :: cs) = false := Bool.eq_false_iff.mpr fun h => hc (ascii_of_atMark h)
    rw [hblank, hmark]
    rfl

theorem skipWhile_cons {code front back : Bytes} {b : UInt8} (hcode : code = front ++ b :: back) :
    skipWhile test code front.length =
      if test b back.head? then skipWhile test code (front.length + 1) else front.length := by
  have hhere : code[front.length]? = some b := by
    rw [hcode]
    exact getElem?_behind front (b :: back) 0
  have hnext : code[front.length + 1]? = back.head? := by
    rw [hcode, getElem?_behind, List.getElem?_cons_succ, List.head?_eq_getElem?]
  rw [skipWhile]
  split
  · next h => cases hhere.symm.trans h
  · next h =>
    cases hhere.symm.trans h
    rw [hnext]

theorem skipWhile_end (code : Bytes) : skipWhile test code code.length = code.length := by
  rw [skipWhile]
  split
  · rfl
  · next h => simp at h

/-- Bytes that pass the test are passed over. -/
theorem skipWhile_pass {code front bytes back : Bytes} (hbytes : ∀ b ∈ bytes, ∀ next, test b next = true)
    (hcode : code = front ++ (bytes ++ back)) :
    skipWhile test code front.length = skipWhile test code (front ++ bytes).length := by
  induction bytes generalizing front with
  | nil => rw [List.append_nil]
  | cons b bytes ih =>
    obtain ⟨hb, hbytes⟩ := List.forall_mem_cons.mp hbytes
    have hnext : skipWhile test code (front ++ [b]).length =
        skipWhile test code (front ++ [b] ++ bytes).length := ih hbytes (by simp [hcode])
    rw [List.length_append, List.length_singleton, List.append_assoc] at hnext
    rw [skipWhile_cons hcode, if_pos (hb _), hnext]
    rfl

/-- A loop over bytes stops where a character begins, the first one that does not pass the test. -/
theorem skipWhile_utf8 (h : Agree test stay wide) (hcs : cs <:+ text) :
    skipWhile test (utf8 text) (offsetOf text cs) = offsetOf text (behind stay cs) := by
  induction cs with
  | nil =>
    rw [behind, offsetOf]
    exact skipWhile_end _
  | cons c cs ih =>
    have hnext := ih (suffix_of_cons hcs)
    obtain ⟨before, rfl⟩ := hcs
    have hsplit : before ++ c :: cs = (before ++ [c]) ++ cs := by simp
    have hbehind : offsetOf (before ++ c :: cs) cs = (utf8 (before ++ [c])).length := by
      rw [hsplit, offsetOf_append]
    rw [hbehind] at hnext
    rw [behind, offsetOf_append]
    rcases encodeChar_cases c with ⟨hc, -⟩ | hc
    · have hcode : utf8 (before ++ c :: cs) = utf8 before ++ ascii c :: utf8 cs := by
        rw [utf8_append, utf8_ascii hc]
      have hstep : (utf8 (before ++ [c])).length = (utf8 before).length + 1 := by
        rw [utf8_append, utf8_ascii hc, List.length_append]
        rfl
      rw [skipWhile_cons hcode, h.ascii c cs hc, ← hstep, hnext]
      split
      · rfl
      · rw [offsetOf_append]
    · have hcode : utf8 (before ++ c :: cs) = utf8 before ++ (encodeChar c ++ utf8 cs) := by
        rw [utf8_append, utf8_cons]
      have hwide : ¬c.toNat < 0x80 := not_ascii_of_le hc
      rw [h.char c cs hwide]
      cases wide with
      | true =>
        have hpass := skipWhile_pass (fun b hb next => h.byte b next (hc b hb)) hcode
        have hstep : utf8 before ++ encodeChar c = utf8 (before ++ [c]) := by
          rw [utf8_append, utf8_cons]
          simp [utf8, Encoding.encodeChars]
        rw [hpass, hstep, hnext, if_pos rfl]
      | false =>
        obtain ⟨first, tail, hfirst, -⟩ := exists_encodeChar c
        rw [hfirst] at hcode hc
        rw [skipWhile_cons hcode, h.byte first _ (hc first (List.mem_cons_self ..)), if_neg (by decide),
          if_neg (by decide), offsetOf_append]

/-! ## Words -/

/-- Nothing is replaced in the bytes of whole characters. -/
theorem lossy_utf8 (cs : List Char) : lossy (utf8 cs) = cs := by
  induction cs with
  | nil =>
    show lossy [] = []
    rw [lossy]
  | cons c cs ih =>
    obtain ⟨b, bs, hc, hdecode⟩ := decodeChar_encodeChar c (utf8 cs)
    rw [utf8_cons, hc, List.cons_append, lossy]
    split
    · next h =>
      cases hdecode.symm.trans h
      rw [ih]
    · next h => cases hdecode.symm.trans h
    · next h => cases hdecode.symm.trans h

/-- Between the offsets of two characters stand the characters between them. -/
theorem slice_offsetOf {body rest : List Char} (h : body ++ rest <:+ text) :
    slice (utf8 text) (offsetOf text (body ++ rest)) (offsetOf text rest) = String.ofList body := by
  obtain ⟨before, rfl⟩ := h
  have hstop : offsetOf (before ++ (body ++ rest)) rest = (utf8 before ++ utf8 body).length := by
    rw [← List.append_assoc, offsetOf_append, utf8_append]
  have hcode : utf8 (before ++ (body ++ rest)) = utf8 before ++ utf8 body ++ utf8 rest := by
    rw [utf8_append, utf8_append, List.append_assoc]
  rw [slice, hstop, offsetOf_append, hcode, List.take_left, List.drop_left, lossy_utf8]

theorem offsetOf_lt {body rest : List Char} (h : c :: body ++ rest <:+ text) :
    offsetOf text (c :: body ++ rest) < offsetOf text rest := by
  obtain ⟨first, tail, hfirst, -⟩ := exists_encodeChar c
  obtain ⟨before, rfl⟩ := h
  have hstop : offsetOf (before ++ (c :: body ++ rest)) rest = (utf8 before ++ utf8 (c :: body)).length := by
    rw [← List.append_assoc, offsetOf_append, utf8_append]
  rw [hstop, offsetOf_append, utf8_cons, hfirst, List.length_append]
  simp

theorem behind_class (p : Char → Bool) (cs : List Char) : behind (fun c _ => p c) cs = cs.dropWhile p := by
  induction cs with
  | nil => rfl
  | cons c cs ih =>
    rw [behind, List.dropWhile_cons, ih]

theorem behind_special (cs : List Char) :
    behind (fun c cs => !(isBlank c || atMark (c :: cs))) cs = (special cs).2 := by
  fun_induction special cs with
  | case1 => rfl
  | case2 c cs h => rw [behind, h, if_neg (by decide)]
  | case3 c cs h ih => rw [behind, Bool.eq_false_iff.mpr h, if_pos (by decide), ih]

theorem skipWhile_class (hp : AsciiOnly p) (hcs : cs <:+ text) :
    skipWhile (first p) (utf8 text) (offsetOf text cs) = offsetOf text (cs.dropWhile p) := by
  rw [skipWhile_utf8 (.first hp) hcs, behind_class]

theorem skipBlanks_utf8 (hcs : cs <:+ text) :
    skipBlanks (utf8 text) (offsetOf text cs) = offsetOf text (cs.dropWhile isBlank) :=
  skipWhile_class asciiOnly_isBlank hcs

theorem dropWhile_suffix_of (hcs : cs <:+ text) : cs.dropWhile p <:+ text :=
  (List.dropWhile_suffix p).trans hcs

/-- A word of which every character behind the first is of a class. -/
theorem upTo_class (hp : AsciiOnly p) (hc : p c) (hcs : c :: cs <:+ text) (kind : Word.Kind) :
    let start := offsetOf text (c :: cs)
    let stop := skipWhile (first p) (utf8 text) start
    (⟨kind, slice (utf8 text) start stop⟩, stop) =
      ((⟨kind, String.ofList (c :: cs.takeWhile p)⟩, offsetOf text (cs.dropWhile p)) : Word × Nat) := by
  have hword : c :: cs = c :: cs.takeWhile p ++ cs.dropWhile p := by simp
  dsimp only
  rw [skipWhile_class hp hcs, List.dropWhile_cons, if_pos hc]
  rw [hword] at hcs ⊢
  rw [slice_offsetOf hcs]

theorem wordAt_end (hcs : cs <:+ text) (h : cs.dropWhile isBlank = []) :
    wordAt (utf8 text) (offsetOf text cs) = .ok none := by
  have hend : (utf8 text)[offsetOf text ([] : List Char)]? = none := head?_offsetOf List.nil_suffix
  rw [wordAt, skipBlanks_utf8 hcs, h, hend]

theorem closeFrom_offsetOf (hq : isQuote c) (hcs : c :: cs <:+ text) :
    closeFrom (utf8 text) (ascii c) (offsetOf text (c :: cs) + 1) =
      (quoted c cs).map fun p => offsetOf text p.2 := by
  have hnext := offsetOf_cons (asciiOnly_isQuote c hq) hcs
  obtain ⟨before, rfl⟩ := hcs
  have hclose := closeFrom_utf8 hq (before ++ [c]) cs
  have hsplit : before ++ [c] ++ cs = before ++ c :: cs := by simp
  rw [hsplit] at hclose
  rw [← hnext, ← hsplit, offsetOf_append, hsplit, hclose]
  refine Option.map_congr fun p hp => ?_
  have hrest : before ++ c :: cs = before ++ [c] ++ p.1 ++ p.2 := by simp [quoted_append hp]
  rw [hrest, offsetOf_append]

theorem wordAt_word {rest : List Char} (hcs : cs <:+ text) (h : cs.dropWhile isBlank = c :: rest) :
    wordAt (utf8 text) (offsetOf text cs) =
      if isComment c then .ok none
      else (wordFrom c rest).map fun p => some (p.1, offsetOf text p.2) := by
  have hsuffix : c :: rest <:+ text := h ▸ dropWhile_suffix_of hcs
  obtain ⟨b, hb⟩ : ∃ b, (utf8 (c :: rest)).head? = some b := by
    obtain ⟨first, tail, hfirst, -⟩ := exists_encodeChar c
    exact ⟨first, by rw [utf8_cons, hfirst]; rfl⟩
  have hblank : isBlank c = false := by
    have := List.head_dropWhile_not isBlank (w := by rw [h]; simp) (l := cs)
    simpa [h] using this
  rw [wordAt, skipBlanks_utf8 hcs, h, head?_offsetOf hsuffix, hb]
  dsimp only
  rw [isAscii_head asciiOnly_isComment hb, isAscii_head asciiOnly_isQuote hb,
    isAscii_head asciiOnly_isDigit hb, isAscii_head asciiOnly_isNameStart hb]
  split
  · rfl
  rw [wordFrom]
  split
  · next hq =>
    rw [utf8_ascii (asciiOnly_isQuote c hq), List.head?_cons, Option.some_inj] at hb
    rw [← hb, closeFrom_offsetOf hq hsuffix]
    cases hquoted : quoted c rest with
    | none => rfl
    | some p =>
      obtain ⟨body, behind⟩ := p
      have hword : c :: rest = c :: body ++ behind := by rw [← quoted_append hquoted, List.cons_append]
      rw [hword] at hsuffix ⊢
      rw [Option.map_some]
      dsimp only
      rw [slice_offsetOf hsuffix]
      rfl
  split
  · next hdigit =>
    rw [upTo_class asciiOnly_isAlphanum (by simp [Char.isAlphanum, hdigit]) hsuffix]
    rfl
  split
  · next hname =>
    rw [upTo_class asciiOnly_isNameRest (isNameRest_of_isNameStart c hname) hsuffix]
    rfl
  rw [skipWhile_utf8 agree_isSpecial hsuffix, behind_special, special, hblank, Bool.false_or]
  split
  · next hmark =>
    have hforced := slice_offsetOf (show [c] ++ rest <:+ text from hsuffix)
    rw [if_pos rfl, ← offsetOf_cons (ascii_of_atMark hmark) hsuffix]
    rw [List.singleton_append] at hforced
    rw [hforced]
    rfl
  · have hword : c :: rest = c :: (special rest).1 ++ (special rest).2 := by
      rw [List.cons_append, special_append]
    dsimp only
    rw [hword] at hsuffix ⊢
    rw [if_neg (Nat.ne_of_gt (offsetOf_lt hsuffix)), slice_offsetOf hsuffix]
    rfl

/-! ## Tails -/

variable {m : Mark} {n : Nat} {b : UInt8}

theorem tailFrom_eq (code : Bytes) (offset : Nat) (tail : Tail) :
    tailFrom code offset tail =
      match code[skipBlanks code offset]? with
      | none => (tail, skipBlanks code offset)
      | some b =>
        match markAt? b code[skipBlanks code offset + 1]? with
        | none => (tail, skipBlanks code offset)
        | some (m, n) => tailFrom code (skipBlanks code offset + n) (tail.add m) := by
  rw [tailFrom]
  split
  · next h => rw [h]
  · next h =>
    rw [h]
    dsimp only
    split
    · next hm => rw [hm]
    · next hm => rw [hm]

theorem tailFrom_blank (hc : isBlank c) (hcs : c :: cs <:+ text) (tail : Tail) :
    tailFrom (utf8 text) (offsetOf text (c :: cs)) tail = tailFrom (utf8 text) (offsetOf text cs) tail := by
  rw [tailFrom_eq, tailFrom_eq _ (offsetOf text cs), skipBlanks_utf8 hcs,
    skipBlanks_utf8 (suffix_of_cons hcs), List.dropWhile_cons, if_pos hc]

theorem tailFrom_mark (hc : c.toNat < 0x80) (hblank : isBlank c = false) (hcs : c :: cs <:+ text)
    (hm : markAt? (ascii c) (utf8 cs).head? = some (m, n)) (tail : Tail) :
    tailFrom (utf8 text) (offsetOf text (c :: cs)) tail =
      tailFrom (utf8 text) (offsetOf text (c :: cs) + n) (tail.add m) := by
  rw [tailFrom_eq, skipBlanks_utf8 hcs, List.dropWhile_cons, hblank, if_neg (by decide),
    head?_offsetOf hcs, utf8_ascii hc, List.head?_cons]
  dsimp only
  rw [next_offsetOf hc hcs, hm]

theorem markAt?_eq_none {next : Option UInt8} (h : markStands b next = false) :
    markAt? b next = none := by
  have hne : ∀ d, isAscii isMarkStart (ascii d) = true → b ≠ ascii d := by
    rintro d hd rfl
    rw [markStands, hd] at h
    cases h
  unfold markAt?
  rw [if_neg (hne '&' rfl), if_neg (hne '(' rfl), if_neg (hne ')' rfl), if_neg (hne ',' rfl),
    if_neg (hne '=' rfl), if_neg (hne '<' rfl), if_neg (hne '>' rfl)]
  split
  · next hbang =>
    refine if_neg fun hdouble => ?_
    rw [markStands, hbang, hdouble] at h
    cases h
  · rfl

theorem tailFrom_stop (hblank : isBlank c = false) (hmark : atMark (c :: cs) = false)
    (hcs : c :: cs <:+ text) (tail : Tail) :
    tailFrom (utf8 text) (offsetOf text (c :: cs)) tail = (tail, offsetOf text (c :: cs)) := by
  rw [tailFrom_eq, skipBlanks_utf8 hcs, List.dropWhile_cons, hblank, if_neg (by decide),
    head?_offsetOf hcs]
  rcases encodeChar_cases c with ⟨hc, -⟩ | hc
  · rw [utf8_ascii hc, List.head?_cons]
    dsimp only
    rw [next_offsetOf hc hcs, markAt?_eq_none ((markStands_ascii hc).trans hmark)]
  · obtain ⟨first, tail, hfirst, -⟩ := exists_encodeChar c
    rw [utf8_cons, hfirst, List.cons_append, List.head?_cons]
    dsimp only
    rw [markAt?_eq_none (markStands_of_le (hc first (by simp [hfirst])) _)]

theorem tailFrom_single (hc : c.toNat < 0x80) (hblank : isBlank c = false) (hcs : c :: cs <:+ text)
    (hm : markAt? (ascii c) (utf8 cs).head? = some (m, 1)) (tail : Tail) :
    tailFrom (utf8 text) (offsetOf text (c :: cs)) tail =
      tailFrom (utf8 text) (offsetOf text cs) (tail.add m) := by
  rw [tailFrom_mark hc hblank hcs hm, ← offsetOf_cons hc hcs]

theorem tailFrom_double (hc : c.toNat < 0x80) (hd : d.toNat < 0x80) (hblank : isBlank c = false)
    (hcs : c :: d :: cs <:+ text) (hm : markAt? (ascii c) (some (ascii d)) = some (m, 2)) (tail : Tail) :
    tailFrom (utf8 text) (offsetOf text (c :: d :: cs)) tail =
      tailFrom (utf8 text) (offsetOf text cs) (tail.add m) := by
  have hhead : (utf8 (d :: cs)).head? = some (ascii d) := by rw [utf8_ascii hd, List.head?_cons]
  rw [tailFrom_mark hc hblank hcs (hhead ▸ hm), offsetOf_cons hd (suffix_of_cons hcs), offsetOf_cons hc hcs]

theorem head?_utf8_ne (hd : d.toNat < 0x80) (h : ∀ ds, cs = d :: ds → False) :
    (utf8 cs).head? ≠ some (ascii d) := by
  intro hhead
  obtain ⟨ds, hds⟩ := List.head?_eq_some_iff.mp (head?_of_head?_utf8 hd hhead)
  exact h ds hds

/-- The marks that are read from the bytes are those of the characters. -/
theorem tailFrom_utf8 (hcs : cs <:+ text) (tail : Tail) :
    tailFrom (utf8 text) (offsetOf text cs) tail =
      ((marks cs).1.foldl Tail.add tail, offsetOf text (marks cs).2) := by
  fun_induction marks cs generalizing tail with
  | case1 _ ih | case2 _ ih | case3 _ ih | case4 _ ih =>
    rw [tailFrom_single (by decide) rfl hcs rfl, ih (suffix_of_cons hcs), List.foldl_cons]
  | case5 _ ih | case7 _ ih | case8 _ ih | case9 _ ih | case11 _ ih =>
    rw [tailFrom_double (by decide) (by decide) rfl hcs rfl, ih (suffix_of_cons (suffix_of_cons hcs)),
      List.foldl_cons]
  | case6 cs hne ih =>
    have hm : markAt? (ascii '=') (utf8 cs).head? = some (.assign, 1) :=
      if_neg (head?_utf8_ne (by decide) hne)
    rw [tailFrom_single (by decide) rfl hcs hm, ih (suffix_of_cons hcs), List.foldl_cons]
  | case10 cs hne hne' ih =>
    have hm : markAt? (ascii '<') (utf8 cs).head? = some (.relation .lt, 1) :=
      (if_neg (head?_utf8_ne (by decide) hne)).trans (if_neg (head?_utf8_ne (by decide) hne'))
    rw [tailFrom_single (by decide) rfl hcs hm, ih (suffix_of_cons hcs), List.foldl_cons]
  | case12 cs hne ih =>
    have hm : markAt? (ascii '>') (utf8 cs).head? = some (.relation .gt, 1) :=
      if_neg (head?_utf8_ne (by decide) hne)
    rw [tailFrom_single (by decide) rfl hcs hm, ih (suffix_of_cons hcs), List.foldl_cons]
  | case13 c cs _ _ _ _ _ _ _ _ _ _ _ _ hc ih => rw [tailFrom_blank hc hcs, ih (suffix_of_cons hcs)]
  | case14 c cs =>
    refine tailFrom_stop (Bool.eq_false_iff.mpr (by assumption)) ?_ hcs tail
    unfold atMark
    split <;> simp_all
  | case15 =>
    have hend : (utf8 text)[offsetOf text ([] : List Char)]? = none := head?_offsetOf List.nil_suffix
    rw [tailFrom_eq, skipBlanks_utf8 hcs, List.dropWhile_nil, hend]
    rfl

/-! ## Statements -/

theorem suffix_of_wordFrom {rest : List Char} {w : Word} (h : wordFrom c cs = .ok (w, rest)) :
    rest <:+ cs := by
  obtain ⟨body, -, hbody⟩ := wordFrom_append h
  exact ⟨body, hbody⟩

/-- A word that is read from the bytes with its tail is that of the characters. -/
theorem tokenAt_utf8 (hcs : cs <:+ text) : tokenAt (utf8 text) (offsetOf text cs) =
    (token? cs).map (Option.map fun p => (p.1, offsetOf text p.2)) := by
  unfold tokenAt token?
  cases hword : cs.dropWhile isBlank with
  | nil =>
    rw [wordAt_end hcs hword]
    rfl
  | cons c rest =>
    have hrest : rest <:+ text := suffix_of_cons (c := c) (hword ▸ dropWhile_suffix_of hcs)
    rw [wordAt_word hcs hword]
    dsimp only
    split
    · rfl
    · cases hw : wordFrom c rest with
      | error f => rfl
      | ok p =>
        have htail := tailFrom_utf8 ((suffix_of_wordFrom hw).trans hrest) {}
        simp only [Except.map, Option.map_some, htail, Tail.ofMarks]

theorem suffix_of_token? {t : Token} {rest : List Char} (h : token? cs = .ok (some (t, rest))) :
    rest <:+ cs := by
  obtain ⟨-, -, gap, ms, -, -, hcs⟩ := token?_append h
  exact (List.suffix_append _ rest).trans (hcs ▸ List.dropWhile_suffix isBlank)

/-- The words that are read from the bytes are those of the characters. -/
theorem wordsFrom_utf8 (hcs : cs <:+ text) : wordsFrom (utf8 text) (offsetOf text cs) = tokens cs := by
  fun_induction tokens cs with
  | case1 cs f h =>
    have hat := tokenAt_utf8 hcs
    rw [h] at hat
    rw [wordsFrom]
    split
    · next h' =>
      cases hat.symm.trans h'
      rfl
    · next h' => cases hat.symm.trans h'
    · next h' => cases hat.symm.trans h'
  | case2 cs h =>
    have hat := tokenAt_utf8 hcs
    rw [h] at hat
    rw [wordsFrom]
    split
    · next h' => cases hat.symm.trans h'
    · rfl
    · next h' => cases hat.symm.trans h'
  | case3 cs t rest h ih =>
    have hat := tokenAt_utf8 hcs
    rw [h] at hat
    rw [wordsFrom]
    split
    · next h' => cases hat.symm.trans h'
    · next h' => cases hat.symm.trans h'
    · next h' =>
      cases hat.symm.trans h'
      rw [ih ((suffix_of_token? h).trans hcs)]

/-- The words of a text are those that are read from its bytes. -/
theorem statementAt_utf8 (text : List Char) : statementAt (utf8 text) = statement text := by
  have hstart : skipBlanks (utf8 text) 0 = offsetOf text (text.dropWhile isBlank) := by
    have hzero : offsetOf text text = 0 := Nat.sub_self _
    rw [← skipBlanks_utf8 List.suffix_rfl, hzero]
  have hsuffix : text.dropWhile isBlank <:+ text := List.dropWhile_suffix isBlank
  rw [statementAt, hstart, head?_offsetOf hsuffix, statement]
  generalize text.dropWhile isBlank = cs at hsuffix
  split
  · next hhead =>
    obtain ⟨ds, rfl⟩ := List.head?_eq_some_iff.mp (head?_of_head?_utf8 (by decide) hhead)
    rw [← offsetOf_cons (by decide) hsuffix, wordsFrom_utf8 (suffix_of_cons hsuffix)]
    rfl
  · next hhead =>
    have hne : ∀ ds, cs ≠ '!' :: ds := by
      rintro ds rfl
      exact hhead ((head?_utf8_eq_iff (by decide)).mpr rfl)
    split
    · next ds => exact absurd rfl (hne ds)
    · exact wordsFrom_utf8 hsuffix

/-- The scan of the bytes reads what the scan of the characters reads, or fails with it. A text that is
read is white space, then its words with a gap behind each, then a comment or nothing. -/
theorem words_and_gaps_make_statement (text : String) :
    let read := statementAt (utf8 text.toList)
    read = statement text.toList ∧ ∀ ts, read = .ok ts → ∃ lead body rest,
      text.toList = lead ++ body ++ rest ∧ (∀ c ∈ lead, isBlank c) ∧ SpellsStatement ts body ∧
        IsComment rest := by
  have hread := statementAt_utf8 text.toList
  exact ⟨hread, fun ts hts => spellsStatement_of_statement (hread ▸ hts)⟩

/-- A mark in the place of a word, escapes in front of a quote and of a character outside ASCII, and
operators without white space around them. -/
theorem words_and_gaps_make_statement_of_call :
    let text := "\t&é=f(\"$\\ü$\\\"\" & ß<>= 1)) ; end"
    let ts := [⟨⟨.special, "&"⟩, {}⟩, ⟨⟨.special, "é"⟩, { assigns := true }⟩,
      ⟨⟨.name, "f"⟩, { opens := true }⟩, ⟨⟨.quoted, "\"$\\ü$\\\"\""⟩, { joins := true }⟩,
      ⟨⟨.special, "ß"⟩, { relation := some .differ, assigns := true }⟩,
      ⟨⟨.integer, "1"⟩, { closes := 2 }⟩]
    statementAt (utf8 text.toList) = .ok ts ∧ ∃ lead body rest, text.toList = lead ++ body ++ rest ∧
      (∀ c ∈ lead, isBlank c) ∧ SpellsStatement ts body ∧ IsComment rest := by
  intro text ts
  have hread : statement text.toList = .ok ts := by decide +kernel
  obtain ⟨hsame, hparts⟩ := words_and_gaps_make_statement text
  exact ⟨hsame.trans hread, hparts ts (hsame.trans hread)⟩

end Scan

end InstallScript
