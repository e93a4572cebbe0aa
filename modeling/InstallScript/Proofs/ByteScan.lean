import InstallScript.Proofs.Encodings
import InstallScript.Token.Scan

/-!
Strings, byte by byte. A quoted word ends at the first quote that no escape covers (`Closes`), where an
escape is `$\` with the whole character behind it. A scanner that only sees the bytes of a text can
find this place: it goes on three bytes from the beginning of an escape (`closeFrom`). This may lead it
into the middle of a character, but none of the bytes that are left of the character is taken for a
quote or for the beginning of an escape, so that it comes out at the end of the character
(`closeFrom_tail`). Hence the two agree (`string_closes_at_free_quote`).
-/

namespace InstallScript

namespace Utf8

/-- The byte of an ASCII character. -/
def ascii (c : Char) : UInt8 := .ofNat c.toNat

/-- An ASCII character is one byte, and no byte of any other character is one of ASCII. -/
theorem encodeChar_cases (c : Char) :
    (c.toNat < 0x80 ∧ encodeChar c = [ascii c]) ∨ ∀ b ∈ encodeChar c, 0x80 ≤ b.toNat := by
  by_cases hc : c.toNat < 0x80
  · refine .inl ⟨hc, ?_⟩
    rw [encodeChar]
    exact if_pos hc
  · right
    have hseq := sequence_encodeChar c
    generalize encodeChar c = bytes at hseq
    generalize c.toNat = n at hseq hc
    cases hseq with
    | one ha => exact absurd ha hc
    | two ha hb =>
      simp only [List.forall_mem_cons, List.not_mem_nil, false_imp_iff, implies_true, and_true]
      omega
    | three ha hb hd =>
      simp only [List.forall_mem_cons, List.not_mem_nil, false_imp_iff, implies_true, and_true]
      split at hb <;> omega
    | four ha hb hd he =>
      simp only [List.forall_mem_cons, List.not_mem_nil, false_imp_iff, implies_true, and_true]
      split at hb <;> omega

/-- What follows the first byte of a character is no byte of ASCII. -/
theorem exists_encodeChar (c : Char) :
    ∃ first tail, encodeChar c = first :: tail ∧ ∀ b ∈ tail, 0x80 ≤ b.toNat := by
  rcases encodeChar_cases c with ⟨-, hc⟩ | hc
  · exact ⟨ascii c, [], hc, by simp⟩
  · cases hbytes : encodeChar c with
    | nil =>
      have hseq := sequence_encodeChar c
      rw [hbytes] at hseq
      cases hseq
    | cons first tail =>
      rw [hbytes] at hc
      exact ⟨first, tail, rfl, (List.forall_mem_cons.mp hc).2⟩

theorem ascii_inj {c d : Char} (hc : c.toNat < 0x80) (hd : d.toNat < 0x80) (h : ascii c = ascii d) :
    c = d := by
  have hnat := congrArg UInt8.toNat h
  rw [ascii, ascii, toNat_byte (by omega), toNat_byte (by omega)] at hnat
  exact Char.toNat_inj.mp hnat

theorem toNat_ascii {c : Char} (hc : c.toNat < 0x80) : (ascii c).toNat < 0x80 := by
  rw [ascii, toNat_byte (by omega)]
  exact hc

end Utf8

namespace Scan

open Text Utf8

/-! ## Escapes and the end of a string -/

/-- Which characters an escape covers, read from left to right. At the end of the text an escape may have
nothing to cover. -/
def covered : List Char → List Bool
  | '$' :: '\\' :: _ :: cs => true :: true :: true :: covered cs
  | ['$', '\\'] => [true, true]
  | _ :: cs => false :: covered cs
  | [] => []

/-- At the place there is a quote that no escape covers. -/
def Free (q : Char) (cs : List Char) (i : Nat) : Prop :=
  cs[i]? = some q ∧ (covered cs)[i]? = some false

/-- The first quote that no escape covers is at the place. -/
def Closes (q : Char) (cs : List Char) (i : Nat) : Prop := Free q cs i ∧ ∀ j < i, ¬Free q cs j

instance (q : Char) (cs : List Char) (i : Nat) : Decidable (Free q cs i) :=
  inferInstanceAs (Decidable (_ ∧ _))

instance (q : Char) (cs : List Char) (i : Nat) : Decidable (Closes q cs i) :=
  inferInstanceAs (Decidable (_ ∧ _))

/-- The character does not begin an escape. -/
def Plain (c : Char) (cs : List Char) : Prop := c = '$' → cs.head? ≠ some '\\'

variable {q c : Char} {cs body rest : List Char} {i j : Nat}

theorem covered_plain (h : Plain c cs) : covered (c :: cs) = false :: covered cs := by
  rw [covered]
  · rintro d ds rfl rfl
    exact h rfl rfl
  · rintro rfl rfl
    exact h rfl rfl

theorem free_zero (h : Plain c cs) : Free q (c :: cs) 0 ↔ c = q := by
  rw [Free, covered_plain h]
  simp

theorem free_succ (h : Plain c cs) : Free q (c :: cs) (i + 1) ↔ Free q cs i := by
  rw [Free, covered_plain h]
  rfl

theorem free_escape : Free q ('$' :: '\\' :: c :: cs) i ↔ ∃ j, i = j + 3 ∧ Free q cs j := by
  rw [Free, covered]
  rcases i with _ | _ | _ | j <;> simp [Free]

theorem closes_plain (h : Plain c cs) (hc : c ≠ q) (hi : Closes q cs i) :
    Closes q (c :: cs) (i + 1) := by
  refine ⟨(free_succ h).mpr hi.1, fun j hj => ?_⟩
  cases j with
  | zero => exact mt (free_zero h).mp hc
  | succ j => exact mt (free_succ h).mp (hi.2 j (by omega))

theorem closes_escape (hi : Closes q cs i) : Closes q ('$' :: '\\' :: c :: cs) (i + 3) := by
  refine ⟨free_escape.mpr ⟨i, rfl, hi.1⟩, fun j hj hfree => ?_⟩
  obtain ⟨k, rfl, hk⟩ := free_escape.mp hfree
  exact hi.2 k (by omega) hk

theorem Closes.unique (hi : Closes q cs i) (hj : Closes q cs j) : i = j := by
  rcases Nat.lt_trichotomy i j with h | h | h
  · exact absurd hi.1 (hj.2 i h)
  · exact h
  · exact absurd hj.1 (hi.2 j h)

theorem plain_of_ne (hescape : ∀ d ds, c = '$' → cs = '\\' :: d :: ds → False)
    (hend : c = '$' → cs = ['\\'] → False) : Plain c cs := by
  intro hc hhead
  obtain ⟨ds, hds⟩ := List.head?_eq_some_iff.mp hhead
  cases ds with
  | nil => exact hend hc hds
  | cons d ds => exact hescape d ds hc hds

/-- What is read ends with the first free quote. -/
theorem closes_of_quoted (h : quoted q cs = some (body, rest)) :
    ∃ i, Closes q cs i ∧ body = cs.take (i + 1) ∧ rest = cs.drop (i + 1) := by
  fun_induction quoted q cs generalizing body rest with
  | case1 => cases h
  | case2 c cs ih =>
    obtain ⟨⟨body, rest⟩, hp, h⟩ := Option.map_eq_some_iff.mp h
    cases h
    obtain ⟨i, hi, rfl, rfl⟩ := ih hp
    exact ⟨i + 3, closes_escape hi, rfl, rfl⟩
  | case3 => cases h
  | case4 cs hescape hend =>
    cases h
    exact ⟨0, ⟨(free_zero (plain_of_ne hescape hend)).mpr rfl, by simp⟩, rfl, rfl⟩
  | case5 c cs hescape hend hc ih =>
    obtain ⟨⟨body, rest⟩, hp, h⟩ := Option.map_eq_some_iff.mp h
    cases h
    obtain ⟨i, hi, rfl, rfl⟩ := ih hp
    exact ⟨i + 1, closes_plain (plain_of_ne hescape hend) hc hi, rfl, rfl⟩

theorem not_free_of_quoted (h : quoted q cs = none) : ¬Free q cs i := by
  fun_induction quoted q cs generalizing i with
  | case1 => simp [Free]
  | case2 c cs ih =>
    intro hfree
    obtain ⟨j, -, hj⟩ := free_escape.mp hfree
    exact ih (Option.map_eq_none_iff.mp h) hj
  | case3 =>
    rintro ⟨-, hfree⟩
    rcases i with _ | _ | i <;> simp [covered] at hfree
  | case4 => cases h
  | case5 c cs hescape hend hc ih =>
    have hplain := plain_of_ne hescape hend
    cases i with
    | zero => exact mt (free_zero hplain).mp hc
    | succ i => exact mt (free_succ hplain).mp (ih (Option.map_eq_none_iff.mp h))

theorem quoted_of_closes (h : Closes q cs i) :
    quoted q cs = some (cs.take (i + 1), cs.drop (i + 1)) := by
  cases hquoted : quoted q cs with
  | none => exact absurd h.1 (not_free_of_quoted hquoted)
  | some p =>
    obtain ⟨body, rest⟩ := p
    obtain ⟨j, hj, hbody, hrest⟩ := closes_of_quoted hquoted
    rw [h.unique hj, ← hbody, ← hrest]

theorem quoted_eq_none_iff : quoted q cs = none ↔ ∀ i, ¬Free q cs i := by
  refine ⟨fun h i => not_free_of_quoted h, fun h => ?_⟩
  cases hquoted : quoted q cs with
  | none => rfl
  | some p =>
    obtain ⟨body, rest⟩ := p
    obtain ⟨i, hi, -⟩ := closes_of_quoted hquoted
    exact absurd hi.1 (h i)

theorem wordFrom_quote (hq : isQuote q) (h : quoted q cs = some (body, rest)) :
    wordFrom q cs = .ok (⟨.quoted, String.ofList (q :: body)⟩, rest) := by
  rw [wordFrom, if_pos hq, h]

theorem wordFrom_eq_unterminated (hq : isQuote q) :
    wordFrom q cs = .error .unterminatedString ↔ quoted q cs = none := by
  rw [wordFrom, if_pos hq]
  cases quoted q cs <;> simp

/-! ## Byte by byte -/

/-- Looks for the end of a string from an offset on. After `$\` the scan goes on three bytes further, or
at the end of the text. -/
def closeFrom (code : Bytes) (q : UInt8) (offset : Nat) : Option Nat :=
  match _h : code[offset]? with
  | none => none
  | some b =>
    if b = ascii '$' ∧ code[offset + 1]? = some (ascii '\\') then
      closeFrom code q (min (offset + 3) code.length)
    else if b = q then some (offset + 1)
    else closeFrom code q (offset + 1)
termination_by code.length - offset
decreasing_by
  all_goals
    obtain ⟨hlt, -⟩ := List.getElem?_eq_some_iff.mp _h
    omega

variable {code front back bytes : Bytes} {b u : UInt8}

theorem closeFrom_end (code : Bytes) (u : UInt8) : closeFrom code u code.length = none := by
  rw [closeFrom]
  split
  · rfl
  · next h => simp at h

/-- An offset stands behind the bytes that come before it. -/
theorem getElem?_behind (front back : Bytes) (n : Nat) :
    (front ++ back)[front.length + n]? = back[n]? := by
  rw [List.getElem?_append_right (by omega), Nat.add_sub_cancel_left]

theorem closeFrom_cons (u : UInt8) (hcode : code = front ++ b :: back) :
    closeFrom code u front.length =
      if b = ascii '$' ∧ back.head? = some (ascii '\\') then
        closeFrom code u (min (front.length + 3) code.length)
      else if b = u then some (front.length + 1)
      else closeFrom code u (front.length + 1) := by
  have hhere : code[front.length]? = some b := by
    rw [hcode]
    exact getElem?_behind front (b :: back) 0
  have hnext : code[front.length + 1]? = back.head? := by
    rw [hcode, getElem?_behind, List.getElem?_cons_succ, List.head?_eq_getElem?]
  rw [closeFrom]
  split
  · next h => cases hhere.symm.trans h
  · next h =>
    cases hhere.symm.trans h
    rw [hnext]

/-- Bytes that are not of ASCII are passed over. -/
theorem closeFrom_tail (hu : u.toNat < 0x80) (hbytes : ∀ b ∈ bytes, 0x80 ≤ b.toNat)
    (hcode : code = front ++ (bytes ++ back)) :
    closeFrom code u front.length = closeFrom code u (front ++ bytes).length := by
  induction bytes generalizing front with
  | nil => rw [List.append_nil]
  | cons b bytes ih =>
    obtain ⟨hb, hbytes⟩ := List.forall_mem_cons.mp hbytes
    have hdollar : b ≠ ascii '$' := by
      rintro rfl
      exact absurd hb (by decide)
    have hquote : b ≠ u := by
      rintro rfl
      omega
    have hnext : closeFrom code u (front ++ [b]).length =
        closeFrom code u (front ++ [b] ++ bytes).length := ih hbytes (by simp [hcode])
    rw [closeFrom_cons u hcode, if_neg fun h => hdollar h.1, if_neg hquote]
    rw [List.length_append, List.length_singleton, List.append_assoc] at hnext
    exact hnext

/-! ## The same end -/

/-- The bytes of characters. -/
def utf8 (cs : List Char) : Bytes := Encoding.utf8.encodeChars cs

theorem utf8_append (cs ds : List Char) : utf8 (cs ++ ds) = utf8 cs ++ utf8 ds := List.flatMap_append

theorem utf8_cons (c : Char) (cs : List Char) : utf8 (c :: cs) = encodeChar c ++ utf8 cs := rfl

theorem utf8_ascii (hc : c.toNat < 0x80) (cs : List Char) : utf8 (c :: cs) = ascii c :: utf8 cs := by
  rw [utf8_cons, encodeChar]
  exact congrArg (· ++ utf8 cs) (if_pos hc)

/-- A byte of ASCII comes from its character only. -/
theorem head?_of_head?_utf8 (hc : c.toNat < 0x80) (h : (utf8 cs).head? = some (ascii c)) :
    cs.head? = some c := by
  cases cs with
  | nil => cases h
  | cons d cs =>
    rcases encodeChar_cases d with ⟨hd, -⟩ | hd
    · rw [utf8_ascii hd] at h
      exact congrArg some (ascii_inj hd hc (Option.some.inj h))
    · obtain ⟨first, tail, hfirst, -⟩ := exists_encodeChar d
      rw [utf8_cons, hfirst] at h
      cases Option.some.inj h
      have hlarge := hd (ascii c) (by simp [hfirst])
      have hsmall := toNat_ascii hc
      omega

/-- A character that is neither the quote nor begins an escape is passed over. -/
theorem closeFrom_plain (hq : q.toNat < 0x80) (hplain : Plain c cs) (hc : c ≠ q) (before : List Char) :
    closeFrom (utf8 (before ++ c :: cs)) (ascii q) (utf8 before).length =
      closeFrom (utf8 (before ++ c :: cs)) (ascii q) (utf8 (before ++ [c])).length := by
  rcases encodeChar_cases c with ⟨hascii, hbyte⟩ | hbytes
  · have hescape : ¬(ascii c = ascii '$' ∧ (utf8 cs).head? = some (ascii '\\')) := by
      rintro ⟨hdollar, hhead⟩
      exact hplain (ascii_inj hascii (by decide) hdollar) (head?_of_head?_utf8 (by decide) hhead)
    have hquote : ascii c ≠ ascii q := mt (ascii_inj hascii hq) hc
    rw [closeFrom_cons (ascii q) (by rw [utf8_append, utf8_ascii hascii]), if_neg hescape, if_neg hquote,
      utf8_append before [c], utf8_ascii hascii, List.length_append]
    rfl
  · have htail := closeFrom_tail (toNat_ascii hq) hbytes
      (show utf8 (before ++ c :: cs) = utf8 before ++ (encodeChar c ++ utf8 cs) from utf8_append _ _)
    rw [htail, utf8_append before [c], utf8_cons]
    simp [utf8, Encoding.encodeChars]

/-- An escape is passed over with the whole character that it covers. -/
theorem closeFrom_escape (hq : q.toNat < 0x80) (before : List Char) :
    closeFrom (utf8 (before ++ '$' :: '\\' :: c :: cs)) (ascii q) (utf8 before).length =
      closeFrom (utf8 (before ++ '$' :: '\\' :: c :: cs)) (ascii q)
        (utf8 (before ++ ['$', '\\', c])).length := by
  obtain ⟨first, tail, hfirst, htail⟩ := exists_encodeChar c
  have hcode : utf8 (before ++ '$' :: '\\' :: c :: cs) =
      utf8 before ++ ascii '$' :: ascii '\\' :: first :: (tail ++ utf8 cs) := by
    rw [utf8_append, utf8_ascii (by decide), utf8_ascii (by decide), utf8_cons, hfirst]
    rfl
  have hjump : min ((utf8 before).length + 3) (utf8 (before ++ '$' :: '\\' :: c :: cs)).length =
      (utf8 before ++ [ascii '$', ascii '\\', first]).length := by
    rw [hcode]
    simp only [List.length_append, List.length_cons, List.length_nil]
    omega
  have hlanding : utf8 (before ++ '$' :: '\\' :: c :: cs) =
      utf8 before ++ [ascii '$', ascii '\\', first] ++ (tail ++ utf8 cs) := by
    rw [hcode]
    simp
  rw [closeFrom_cons (ascii q) hcode, if_pos ⟨rfl, rfl⟩, hjump,
    closeFrom_tail (toNat_ascii hq) htail hlanding]
  congr 2
  rw [utf8_append, utf8_ascii (by decide), utf8_ascii (by decide), utf8_cons, hfirst]
  simp [utf8, Encoding.encodeChars]

/-- The scan of bytes finds the end of the string. The induction goes along the characters, where
`before` grows with what has been passed. -/
theorem closeFrom_utf8 (hq : isQuote q) (before cs : List Char) :
    closeFrom (utf8 (before ++ cs)) (ascii q) (utf8 before).length =
      (quoted q cs).map fun p => (utf8 (before ++ p.1)).length := by
  have hascii : q.toNat < 0x80 := by
    simp only [isQuote, Bool.or_eq_true, decide_eq_true_eq] at hq
    rcases hq with (rfl | rfl) | rfl <;> decide
  have hdollar : q ≠ '$' := by
    rintro rfl
    exact absurd hq (by decide)
  fun_induction quoted q cs generalizing before with
  | case1 =>
    rw [List.append_nil, closeFrom_end]
    rfl
  | case2 c cs ih =>
    have hnext := ih (before ++ ['$', '\\', c])
    rw [List.append_assoc] at hnext
    rw [closeFrom_escape hascii, Option.map_map]
    refine hnext.trans (Option.map_congr fun p _ => ?_)
    simp
  | case3 =>
    have hcode : utf8 (before ++ ['$', '\\']) = utf8 before ++ [ascii '$', ascii '\\'] := by
      rw [utf8_append, utf8_ascii (by decide), utf8_ascii (by decide)]
      rfl
    have hjump : min ((utf8 before).length + 3) (utf8 (before ++ ['$', '\\'])).length =
        (utf8 (before ++ ['$', '\\'])).length := by
      rw [hcode, List.length_append]
      simp
    rw [closeFrom_cons (ascii q) hcode, if_pos ⟨rfl, rfl⟩, hjump, closeFrom_end]
    rfl
  | case4 cs hescape hend =>
    have hcode : utf8 (before ++ q :: cs) = utf8 before ++ ascii q :: utf8 cs := by
      rw [utf8_append, utf8_ascii hascii]
    have hne : ascii q ≠ ascii '$' := mt (ascii_inj hascii (by decide)) hdollar
    rw [closeFrom_cons (ascii q) hcode, if_neg fun h => hne h.1, if_pos rfl, Option.map_some,
      utf8_append, utf8_ascii hascii, List.length_append]
    rfl
  | case5 c cs hescape hend hc ih =>
    have hnext := ih (before ++ [c])
    rw [List.append_assoc] at hnext
    rw [closeFrom_plain hascii (plain_of_ne hescape hend) hc, Option.map_map]
    refine hnext.trans (Option.map_congr fun p _ => ?_)
    simp

/-- A string ends at the first quote that no escape covers. The word is the text up to it, and what
follows is read next. Without such a quote, and only then, the string is reported as unterminated. Where
the quote `q` and the text behind it have any text in front of them, the scan of the bytes comes to the
same answers: it stops on the boundary of a character, with the bytes of the word behind it and those of
the rest ahead. -/
theorem string_closes_at_free_quote {q : Char} (hq : isQuote q) (before cs : List Char) :
    let code := utf8 (before ++ q :: cs)
    let start := (utf8 before).length
    (∀ i, Closes q cs i →
      let word := q :: cs.take (i + 1)
      wordFrom q cs = .ok (⟨.quoted, String.ofList word⟩, cs.drop (i + 1)) ∧
        ∃ stop, closeFrom code (ascii q) (start + 1) = some stop ∧
          (code.take stop).drop start = utf8 word ∧ code.drop stop = utf8 (cs.drop (i + 1))) ∧
      (wordFrom q cs = .error .unterminatedString ↔ ∀ i, ¬Free q cs i) ∧
      (closeFrom code (ascii q) (start + 1) = none ↔ ∀ i, ¬Free q cs i) ∧
      Fault.unterminatedString.form = some "Unterminated string" := by
  have hascii : utf8 [q] = [ascii q] := by
    simp only [isQuote, Bool.or_eq_true, decide_eq_true_eq] at hq
    rcases hq with (rfl | rfl) | rfl <;> exact utf8_ascii (by decide) []
  have hclose := closeFrom_utf8 hq (before ++ [q]) cs
  rw [List.append_assoc, utf8_append before [q], hascii, List.length_append] at hclose
  dsimp only
  refine ⟨fun i hi => ?_, ?_, ?_, rfl⟩
  · have hsplit : before ++ q :: cs = before ++ [q] ++ cs.take (i + 1) ++ cs.drop (i + 1) := by simp
    have hcode := congrArg utf8 hsplit
    rw [utf8_append _ (cs.drop (i + 1))] at hcode
    rw [quoted_of_closes hi] at hclose
    refine ⟨wordFrom_quote hq (quoted_of_closes hi), _, hclose, ?_, ?_⟩
    · rw [hcode, List.take_left' rfl, List.append_assoc, utf8_append, List.drop_left' rfl]
      rfl
    · rw [hcode]
      exact List.drop_left' rfl
  · rw [← quoted_eq_none_iff, wordFrom_eq_unterminated hq]
  · rw [← quoted_eq_none_iff]
    exact (congrArg (· = none) hclose).to_iff.trans Option.map_eq_none_iff

/-- The first escape covers a character of two bytes, the second one a quote; the dollar sign after it
covers nothing. -/
theorem string_closes_at_free_quote_of_escapes :
    Closes '"' "$\\é$\\\"$\" x".toList 7 ∧
      wordFrom '"' "$\\é$\\\"$\" x".toList = .ok (⟨.quoted, "\"$\\é$\\\"$\""⟩, [' ', 'x']) ∧
      ∃ stop, closeFrom (utf8 "ü = \"$\\é$\\\"$\" x".toList) (ascii '"') 6 = some stop ∧
        (utf8 "ü = \"$\\é$\\\"$\" x".toList).drop stop = utf8 [' ', 'x'] := by
  have hcloses : Closes '"' "$\\é$\\\"$\" x".toList 7 := by decide +kernel
  obtain ⟨hall, -⟩ := string_closes_at_free_quote (q := '"') (by decide) "ü = ".toList
    "$\\é$\\\"$\" x".toList
  obtain ⟨hword, stop, hstop, -, hrest⟩ := hall 7 hcloses
  exact ⟨hcloses, hword, stop, hstop, hrest⟩

end Scan

end InstallScript
