import InstallScript.Proofs.Lossless
import InstallScript.Proofs.Rendering

/-!
Words written out again. Every list of words that a statement is cut into can be written with single
spaces around all marks, and is read from that text once more (`respacing_keeps_words`). What may
stand where in such a list is all that the proof needs: a word is read again up to the next space
(`Word.Rescans`), and no word but the first begins like a mark (`Word.Unmarked`).
-/

namespace InstallScript

/-- The marks that a tail records, in a fixed order. -/
def Tail.marks (t : Tail) : List Mark :=
  (if t.joins then [.join] else []) ++ (if t.opens then [.opening] else []) ++
    List.replicate t.closes .closing ++ (if t.separates then [.comma] else []) ++
    (t.relation.map Mark.relation).toList ++ (if t.assigns then [.assign] else [])

/-- Marks with a space in front of each. -/
def Mark.spaced (ms : List Mark) : List Char := ms.flatMap fun m => ' ' :: m.text.toList

/-- The word with its marks behind it. -/
def Token.spaced (t : Token) : List Char := t.word.text.toList ++ Mark.spaced t.tail.marks

/-- The words with one space between them. -/
def Token.respaced (ts : List Token) : String := String.ofList ([' '].intercalate (ts.map Token.spaced))

theorem Token.toList_respaced_cons (t u : Token) (us : List Token) :
    (respaced (t :: u :: us)).toList = t.spaced ++ ' ' :: (respaced (u :: us)).toList := by
  simp [respaced, List.intercalate]

theorem Token.toList_respaced_singleton (t : Token) : (respaced [t]).toList = t.spaced := by
  simp [respaced, List.intercalate]

/-! ## Marks -/

theorem Tail.foldl_add_replicate_closing (n : Nat) (t : Tail) :
    (List.replicate n Mark.closing).foldl add t = { t with closes := t.closes + n } := by
  induction n generalizing t with
  | zero => rfl
  | succ n ih =>
    rw [List.replicate_succ, List.foldl_cons, ih]
    show ({ t with closes := t.closes + 1 + n } : Tail) = _
    rw [Nat.add_assoc, Nat.add_comm 1 n]

/-- Nothing is lost of a tail but the mark of a command, which is no mark of punctuation. -/
theorem Tail.ofMarks_marks (t : Tail) (h : t.command = false) : ofMarks t.marks = t := by
  obtain ⟨joins, opens, closes, separates, relation, assigns, command⟩ := t
  cases h
  unfold ofMarks marks
  simp only [List.foldl_append, foldl_add_replicate_closing]
  cases joins <;> cases opens <;> cases separates <;> cases relation <;> cases assigns <;> simp [add]

namespace Scan

open Text

/-- A space comes next, or nothing. -/
def Spaced (cs : List Char) : Prop := cs = [] ∨ ∃ ds, cs = ' ' :: ds

theorem Spaced.nil : Spaced [] := .inl rfl

theorem Spaced.space (cs : List Char) : Spaced (' ' :: cs) := .inr ⟨cs, rfl⟩

theorem Spaced.append_marks {rest : List Char} (h : Spaced rest) (ms : List Mark) :
    Spaced (Mark.spaced ms ++ rest) := by
  cases ms with
  | nil => exact h
  | cons m ms => exact .space _

theorem marks_space (cs : List Char) : marks (' ' :: cs) = marks cs := by
  rw [marks] <;> simp [isBlank]

/-- In front of a space every mark is as long as it can be. -/
theorem marks_mark (m : Mark) {rest : List Char} (h : Spaced rest) :
    marks (m.text.toList ++ rest) = (m :: (marks rest).1, (marks rest).2) := by
  rcases h with rfl | ⟨cs, rfl⟩
  · cases m with
    | relation r => cases r <;> rfl
    | _ => rfl
  · cases m with
    | relation r => cases r <;> simp [Mark.text, Relation.text, marks]
    | _ => simp [Mark.text, marks]

theorem marks_spaced (ms : List Mark) {rest : List Char} (h : Spaced rest) :
    marks (Mark.spaced ms ++ rest) = (ms ++ (marks rest).1, (marks rest).2) := by
  induction ms with
  | nil => rfl
  | cons m ms ih =>
    have hcons : Mark.spaced (m :: ms) ++ rest = ' ' :: (m.text.toList ++ (Mark.spaced ms ++ rest)) := by
      simp [Mark.spaced]
    rw [hcons, marks_space, marks_mark m (h.append_marks ms), ih]
    rfl

/-- Behind the marks no further one stands. -/
theorem atMark_marks (cs : List Char) : atMark (marks cs).2 = false := by
  fun_induction marks cs <;> simp_all [atMark]

/-! ## Words -/

end Scan

/-- The scanner reads the word from its own text, if a space follows or nothing. -/
def Word.Rescans (w : Word) : Prop :=
  ∃ c cs, w.text.toList = c :: cs ∧ Text.isBlank c = false ∧ Scan.isComment c = false ∧
    ∀ rest, Scan.Spaced rest → Scan.wordFrom c (cs ++ rest) = .ok (w, rest)

/-- The word does not begin like a mark. -/
def Word.Unmarked (w : Word) : Prop :=
  ∀ rest, Scan.Spaced rest → Scan.atMark (w.text.toList ++ rest) = false

namespace Scan

open Text

theorem Spaced.ends {rest : List Char} (h : Spaced rest) : Ends rest := by
  rcases h with rfl | ⟨cs, rfl⟩
  · exact fun c hc => nomatch hc
  · rintro _ ⟨⟩
    rfl

/-- A quoted word is read again without what stood behind it. -/
theorem quoted_body {q : Char} (hq : isQuote q) {cs body rest : List Char}
    (h : quoted q cs = some (body, rest)) : quoted q body = some (body, []) := by
  have hne : '\\' ≠ q := by
    rintro rfl
    revert hq
    decide
  fun_induction quoted q cs generalizing body rest with
  | case1 => cases h
  | case2 c cs ih =>
    obtain ⟨p, hp, h⟩ := Option.map_eq_some_iff.1 h
    cases h
    simp [quoted, ih hp]
  | case3 => cases h
  | case4 cs hesc hend =>
    cases h
    simp [quoted]
  | case5 c cs hesc hend hc ih =>
    obtain ⟨p, hp, h⟩ := Option.map_eq_some_iff.1 h
    cases h
    have happend := quoted_append hp
    have hbody := ih hp
    rw [quoted, if_neg hc, hbody]
    · rfl
    · intro d ds hd hds
      exact hesc d (ds ++ p.2) hd (by rw [← happend, hds]; rfl)
    · intro hd hds
      rw [hds] at hbody
      simp [quoted, hne] at hbody

/-- All marks can be told by their first character but for one, which needs the next character. -/
theorem atMark_cons_eq_true {c : Char} {cs : List Char} : atMark (c :: cs) = true ↔
    c ∈ ['&', '(', ')', ',', '=', '<', '>'] ∨ c = '!' ∧ cs.head? = some '=' := by
  unfold atMark
  split
  · next h =>
    cases h
    simp
  · next hne h =>
    cases h
    cases cs <;> grind
  · next h => cases h

/-- No mark arises where a space or the same character follows as before. -/
theorem atMark_cons_congr {c : Char} {cs ds : List Char} (h : atMark (c :: cs) = false)
    (hd : ds.head? = cs.head? ∨ Spaced ds) : atMark (c :: ds) = false := by
  rw [Bool.eq_false_iff, ne_eq, atMark_cons_eq_true] at h ⊢
  rintro (hc | ⟨hc, he⟩)
  · exact h (.inl hc)
  · rcases hd with hd | rfl | ⟨ds, rfl⟩
    · exact h (.inr ⟨hc, hd ▸ he⟩)
    · cases he
    · cases he

/-- Where characters are cut off for a space, the first one stays or there is a space. -/
theorem Spaced.head?_append {rest : List Char} (h : Spaced rest) (body behind : List Char) :
    (body ++ rest).head? = (body ++ behind).head? ∨ Spaced (body ++ rest) := by
  cases body with
  | nil => exact .inr h
  | cons c body => exact .inl rfl

/-- The characters of a special word are read again up to the space. -/
theorem special_append_space {rest : List Char} (h : Spaced rest) (cs : List Char) :
    special ((special cs).1 ++ rest) = ((special cs).1, rest) := by
  have hstop : special rest = ([], rest) := by rcases h with rfl | ⟨ds, rfl⟩ <;> rfl
  induction cs with
  | nil => exact hstop
  | cons c cs ih =>
    by_cases hc : isBlank c || atMark (c :: cs)
    · rw [show special (c :: cs) = ([], c :: cs) by rw [special, if_pos hc]]
      exact hstop
    · have hword : special (c :: cs) = (c :: (special cs).1, (special cs).2) := by
        rw [special, if_neg hc]
      simp only [Bool.or_eq_true, not_or, Bool.not_eq_true] at hc
      have hhead := h.head?_append (special cs).1 (special cs).2
      rw [special_append] at hhead
      have hmark := atMark_cons_congr hc.2 hhead
      rw [hword, List.cons_append, special, if_neg (by simp [hc.1, hmark]), ih]

/-- A word that the scanner has found is read again, and it begins like a mark only if a mark stood
there. -/
theorem wordFrom_rescans {c : Char} {cs behind : List Char} {w : Word} (hb : isBlank c = false)
    (hc : isComment c = false) (h : wordFrom c cs = .ok (w, behind)) :
    w.Rescans ∧ (atMark (c :: cs) = false → w.Unmarked) := by
  obtain ⟨body, htext, happend⟩ := wordFrom_append h
  have hhead := fun rest (hr : Spaced rest) => happend ▸ hr.head?_append body behind
  refine ⟨⟨c, body, htext, hb, hc, fun rest hr => ?_⟩, fun hm rest hr => ?_⟩
  · unfold wordFrom at h ⊢
    split at h
    · next hq =>
      split at h
      · cases h
      · next hquoted =>
        cases h
        cases String.toList_ofList.symm.trans htext
        rw [if_pos hq]
        simp [quoted_append_rest hq (quoted_body hq hquoted) rest]
    next hq =>
    rw [if_neg hq]
    split at h
    · next hd =>
      cases h
      cases String.toList_ofList.symm.trans htext
      obtain ⟨htake, hdrop⟩ := takeWhile_of_ends (p := Char.isAlphanum)
        (fun c hc => by simp [isNameRest, hc]) List.all_takeWhile hr.ends
      rw [if_pos hd, htake, hdrop]
    next hd =>
    rw [if_neg hd]
    split at h
    · next hn =>
      cases h
      cases String.toList_ofList.symm.trans htext
      obtain ⟨htake, hdrop⟩ := takeWhile_of_ends (fun _ => id) List.all_takeWhile hr.ends
      rw [if_pos hn, htake, hdrop]
    next hn =>
    rw [if_neg hn]
    split at h
    · cases h
      cases String.toList_ofList.symm.trans htext
      split
      · rfl
      · have hstop := special_append_space hr []
        simp only [special, List.nil_append] at hstop
        rw [List.nil_append, hstop]
    · next hm =>
      cases h
      cases String.toList_ofList.symm.trans htext
      rw [Bool.not_eq_true] at hm
      rw [if_neg (by rw [atMark_cons_congr hm (hhead rest hr)]; decide), special_append_space hr]
  · rw [htext, List.cons_append]
    exact atMark_cons_congr hm (hhead rest hr)

/-! ## Statements -/

/-- How a word has been found: it begins with the first character that is no white space, and the marks
behind it make its tail. -/
theorem token?_eq_some {cs rest : List Char} {t : Token} (h : token? cs = .ok (some (t, rest))) :
    ∃ c ds behind, cs.dropWhile isBlank = c :: ds ∧ isBlank c = false ∧ isComment c = false ∧
      wordFrom c ds = .ok (t.word, behind) ∧ t.tail = Tail.ofMarks (marks behind).1 ∧
      rest = (marks behind).2 := by
  unfold token? at h
  split at h
  · cases h
  · next c ds hcs =>
    have hblank := List.head?_dropWhile_not isBlank cs
    rw [hcs] at hblank
    split at h
    · cases h
    · next hc =>
      cases hw : wordFrom c ds with
      | error f =>
        rw [hw] at h
        cases h
      | ok p =>
        rw [hw] at h
        cases h
        exact ⟨c, ds, p.2, hcs, by simpa using hblank, by simpa using hc, hw, rfl, rfl⟩

/-- Every word of a scanned text can be read again, and none begins like a mark but the first one,
and that only where the text begins so. -/
theorem tokens_rescan {cs : List Char} {ts : List Token} (h : tokens cs = .ok ts) :
    (∀ t ∈ ts, t.word.Rescans ∧ t.tail.command = false) ∧ (∀ t ∈ ts.tail, t.word.Unmarked) ∧
      (atMark (cs.dropWhile isBlank) = false → ∀ t ∈ ts, t.word.Unmarked) := by
  fun_induction tokens cs generalizing ts with
  | case1 => cases h
  | case2 =>
    cases h
    simp
  | case3 cs t rest htoken ih =>
    cases hts : tokens rest with
    | error f =>
      rw [hts] at h
      cases h
    | ok us =>
      rw [hts] at h
      cases h
      obtain ⟨c, ds, behind, hcs, hblank, hcomment, hword, htail, rfl⟩ := token?_eq_some htoken
      obtain ⟨hscans, -, hunmarked⟩ := ih hts
      obtain ⟨hscan, hmark⟩ := wordFrom_rescans hblank hcomment hword
      have hmore : ∀ u ∈ us, u.word.Unmarked :=
        hunmarked (by rw [dropWhile_marks]; exact atMark_marks behind)
      have hcommand : t.tail.command = false := by rw [htail]; exact (Tail.records_ofMarks _).command
      refine ⟨?_, hmore, fun hm => ?_⟩
      · exact List.forall_mem_cons.mpr ⟨⟨hscan, hcommand⟩, hscans⟩
      · exact List.forall_mem_cons.mpr ⟨hmark (hcs ▸ hm), hmore⟩

/-- A word with its marks is read up to the next word. -/
theorem token?_spaced {t : Token} (hw : t.word.Rescans) (hc : t.tail.command = false)
    {rest next : List Char} (hr : Spaced rest) (hn : marks rest = ([], next)) :
    token? (t.spaced ++ rest) = .ok (some (t, next)) := by
  obtain ⟨c, cs, htext, hblank, hcomment, hword⟩ := hw
  have hchars : t.spaced ++ rest = c :: (cs ++ (Mark.spaced t.tail.marks ++ rest)) := by
    simp [Token.spaced, htext]
  rw [hchars, token?, List.dropWhile_cons_of_neg (by simp [hblank])]
  simp only [hcomment, Bool.false_eq_true, if_false]
  rw [hword _ (hr.append_marks _)]
  simp [Except.map, marks_spaced _ hr, hn, Tail.ofMarks_marks _ hc]

theorem tokens_nil : tokens [] = .ok [] := by
  rw [tokens]
  rfl

/-- White space in front of the words does not matter. -/
theorem tokens_space (cs : List Char) : tokens (' ' :: cs) = tokens cs := by
  have htoken : token? (' ' :: cs) = token? cs := rfl
  conv_lhs => rw [tokens]
  conv_rhs => rw [tokens]
  split <;> split <;> simp_all

/-- Behind the first word comes a space or nothing. -/
theorem respaced_cons (t : Token) (ts : List Token) :
    ∃ rest, (Token.respaced (t :: ts)).toList = t.word.text.toList ++ rest ∧ Spaced rest := by
  cases ts with
  | nil =>
    refine ⟨Mark.spaced t.tail.marks, Token.toList_respaced_singleton t, ?_⟩
    simpa using Spaced.nil.append_marks t.tail.marks
  | cons u us =>
    refine ⟨_, (Token.toList_respaced_cons t u us).trans (List.append_assoc _ _ _), ?_⟩
    exact (Spaced.space _).append_marks t.tail.marks

/-- Words that can be read again are read from the text they are written to. -/
theorem tokens_respaced {ts : List Token}
    (hw : ∀ t ∈ ts, t.word.Rescans ∧ t.tail.command = false) (hu : ∀ t ∈ ts.tail, t.word.Unmarked) :
    tokens (Token.respaced ts).toList = .ok ts := by
  induction ts with
  | nil => exact tokens_nil
  | cons t ts ih =>
    obtain ⟨⟨hscan, hcommand⟩, hws⟩ := List.forall_mem_cons.mp hw
    cases ts with
    | nil =>
      have htoken := token?_spaced hscan hcommand Spaced.nil rfl
      rw [List.append_nil] at htoken
      rw [Token.toList_respaced_singleton]
      exact tokens_of_token? htoken tokens_nil
    | cons u us =>
      rw [Token.toList_respaced_cons]
      refine tokens_of_token? (token?_spaced hscan hcommand (.space _) ?_) (ih hws ?_)
      · obtain ⟨c, cs, htext, hblank, -⟩ := (hws u List.mem_cons_self).1
        obtain ⟨rest, hrest, hspaced⟩ := respaced_cons u us
        have hmark := hu u List.mem_cons_self rest hspaced
        rw [marks_space, hrest]
        rw [htext, List.cons_append] at hmark ⊢
        rw [marks_of_not_atMark hmark, hblank, if_neg Bool.false_ne_true]
      · exact fun v hv => hu v (List.mem_of_mem_tail hv)

/-- A statement that begins with a word is read word by word, unless it is a command. -/
theorem statement_respaced {ts : List Token}
    (hw : ∀ t ∈ ts, t.word.Rescans ∧ t.tail.command = false) (hu : ∀ t ∈ ts.tail, t.word.Unmarked)
    (hne : ∀ t ∈ ts.head?, t.word.text.toList.head? ≠ some '!') :
    statement (Token.respaced ts).toList = .ok ts := by
  rw [← tokens_respaced hw hu]
  cases ts with
  | nil => rfl
  | cons t ts =>
    obtain ⟨c, cs, htext, hblank, -⟩ := (hw t List.mem_cons_self).1
    obtain ⟨rest, hrest, -⟩ := respaced_cons t ts
    have hhead := hne t rfl
    rw [htext, List.head?_cons, ne_eq, Option.some.injEq] at hhead
    rw [hrest, htext, List.cons_append, statement, List.dropWhile_cons_of_neg (by simp [hblank])]
    split
    · next h => exact absurd (List.cons.inj h).1 hhead
    · rfl

theorem statement_command_respaced {ts : List Token}
    (hw : ∀ t ∈ ts, t.word.Rescans ∧ t.tail.command = false) (hu : ∀ t ∈ ts.tail, t.word.Unmarked) :
    statement (Token.respaced (command :: ts)).toList = .ok (command :: ts) := by
  have hagain := tokens_respaced hw hu
  have hcommand : ∀ cs, statement (command.spaced ++ cs) = (tokens cs).map (command :: ·) := fun _ => rfl
  cases ts with
  | nil =>
    rw [Token.toList_respaced_singleton, ← List.append_nil command.spaced, hcommand, tokens_nil]
    rfl
  | cons t ts =>
    rw [Token.toList_respaced_cons, hcommand, tokens_space, hagain]
    rfl

/-- The words of a statement are read again from the text in which single spaces set off all words and
marks. -/
theorem respacing_keeps_words {text : String} {ts : List Token}
    (h : statement text.toList = .ok ts) : statement (Token.respaced ts).toList = .ok ts := by
  unfold statement at h
  split at h
  · next cs hcs =>
    cases hts : tokens cs with
    | error f =>
      rw [hts] at h
      cases h
    | ok us =>
      rw [hts] at h
      cases h
      obtain ⟨hw, hu, -⟩ := tokens_rescan hts
      exact statement_command_respaced hw hu
  · next hne =>
    obtain ⟨hw, hu, -⟩ := tokens_rescan h
    refine statement_respaced hw hu fun t ht hhead => ?_
    obtain ⟨us, rfl⟩ := List.head?_eq_some_iff.mp ht
    obtain ⟨body, rest, hbody, hspells, -⟩ := tokens_append h
    obtain ⟨cs, hcs⟩ := List.head?_eq_some_iff.mp hhead
    rw [List.dropWhile_idempotent] at hbody
    cases hspells with
    | word =>
      rw [hcs] at hbody
      exact hne _ hbody

/-- Marks where words are due, an exclamation mark in front of an equals sign and marks out of their
order. -/
theorem respacing_keeps_words_of_stray_marks :
    let text := "! != x)(,<=\"a b\"=>= /SD!=1;"
    let ts := [command, ⟨⟨.special, "!"⟩, { assigns := true }⟩,
      ⟨⟨.name, "x"⟩, { opens := true, closes := 1, separates := true, relation := some .le }⟩,
      ⟨⟨.quoted, "\"a b\""⟩, { assigns := true, relation := some .ge }⟩,
      ⟨⟨.special, "/SD"⟩, { relation := some .ne }⟩, ⟨⟨.integer, "1"⟩, {}⟩]
    statement text.toList = .ok ts ∧
      Token.respaced ts = "! ! = x ( ) , <= \"a b\" >= = /SD != 1" ∧
      statement (Token.respaced ts).toList = .ok ts := by
  intro text ts
  have h : statement text.toList = .ok ts := by decide +kernel
  exact ⟨h, by decide +kernel, respacing_keeps_words h⟩

end Scan

end InstallScript
