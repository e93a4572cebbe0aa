import Mathlib.Data.List.Forall2
import InstallScript.Proofs.SourceLines
import InstallScript.Source

/-!
Sources in lower case. Neither the cuts between statements nor those between words depend on the case
of letters of ASCII: the statements of a source in lower case are its statements in lower case
(`statements_toLower`). So two sources that differ in nothing but the case of the letters of their names
have statements of the same form, word for word (`Recased.statements`).
-/

namespace InstallScript

namespace Text

/-! ## Characters -/

/-- What holds of the capital letters of ASCII in lower case and as they are does not depend on case. -/
theorem eq_of_capitals {α : Type} {p : Char → α}
    (h : ∀ n : Fin 26, p (Char.ofNat (65 + n)).toLower = p (Char.ofNat (65 + n))) (c : Char) :
    p c.toLower = p c := by
  by_cases hc : 65 ≤ c.toNat ∧ c.toNat ≤ 90
  · have hn := h ⟨c.toNat - 65, by omega⟩
    rwa [show 65 + (c.toNat - 65) = c.toNat by omega, Char.ofNat_toNat] at hn
  · refine congrArg p (dif_neg fun hv => hc ?_)
    exact ⟨UInt32.le_iff_toNat_le.mp hv.1, UInt32.le_iff_toNat_le.mp hv.2⟩

theorem isBlank_toLower (c : Char) : isBlank c.toLower = isBlank c := eq_of_capitals (by decide) c

theorem isSpace_toLower (c : Char) : isSpace c.toLower = isSpace c := eq_of_capitals (by decide) c

theorem isQuote_toLower (c : Char) : isQuote c.toLower = isQuote c := eq_of_capitals (by decide) c

theorem isDigit_toLower (c : Char) : c.toLower.isDigit = c.isDigit := eq_of_capitals (by decide) c

theorem isAlphanum_toLower (c : Char) : c.toLower.isAlphanum = c.isAlphanum :=
  eq_of_capitals (by decide) c

theorem isCased_toLower (c : Char) : isCased c.toLower = isCased c := eq_of_capitals (by decide +kernel) c

theorem isIgnorable_toLower (c : Char) : isIgnorable c.toLower = isIgnorable c :=
  eq_of_capitals (by decide +kernel) c

theorem lowerChar_toLower (c : Char) : lowerChar c.toLower = lowerChar c := eq_of_capitals (by decide) c

/-- No letter becomes a mark or a blank. -/
theorem toLower_eq_iff {c d : Char} (hd : d.isAlpha = false) : c.toLower = d ↔ c = d := by
  have h : decide (c.toLower = d) = decide (c = d) := by
    refine eq_of_capitals (p := fun c => decide (c = d)) (fun n => ?_) c
    have hall : ∀ n : Fin 26, (Char.ofNat (65 + n)).toLower.isAlpha ∧ (Char.ofNat (65 + n)).isAlpha := by
      decide
    rw [decide_eq_false, decide_eq_false]
    · rintro rfl
      exact absurd (hall n).2 (by rw [hd]; decide)
    · rintro rfl
      exact absurd (hall n).1 (by rw [hd]; decide)
  simpa using h

/-- Lower case in the sense of all alphabets is the same for a text in lower case of ASCII. -/
theorem lowerChars_map_toLower (before cs : List Char) :
    lowerChars (before.map Char.toLower) (cs.map Char.toLower) = lowerChars before cs := by
  have hcased : ∀ cs, meetsCased (cs.map Char.toLower) = meetsCased cs := by
    intro cs
    have hdrop : (cs.map Char.toLower).dropWhile isIgnorable =
        (cs.dropWhile isIgnorable).map Char.toLower := by
      rw [List.dropWhile_map]
      exact congrArg _ (congrArg (List.dropWhile · cs) (funext isIgnorable_toLower))
    unfold meetsCased
    rw [hdrop]
    cases cs.dropWhile isIgnorable with
    | nil => rfl
    | cons c cs => exact isCased_toLower c
  induction cs generalizing before with
  | nil => rfl
  | cons c cs ih =>
    have hs : c.toLower = 'Σ' ↔ c = 'Σ' := toLower_eq_iff (by decide)
    rw [List.map_cons, lowerChars, lowerChars, ← List.map_cons, ih, hcased, hcased, lowerChar_toLower]
    simp only [hs]

theorem toList_toLower (s : String) : s.toLower.toList = s.toList.map Char.toLower := String.toList_map

theorem toLower_eq {s t : String} (h : s.toList.map Char.toLower = t.toList) : s.toLower = t := by
  rw [← String.toList_inj, toList_toLower, h]

theorem toLower_append (s t : String) : (s ++ t).toLower = s.toLower ++ t.toLower :=
  toLower_eq (by simp [toList_toLower])

theorem toLower_append_left {s t : String} (h : s.toLower = t.toLower) (r : String) :
    (s ++ r).toLower = (t ++ r).toLower := by
  rw [toLower_append, toLower_append, h]

theorem toLower_append_right {s t : String} (h : s.toLower = t.toLower) (r : String) :
    (r ++ s).toLower = (r ++ t).toLower := by
  rw [toLower_append, toLower_append, h]

theorem toLower_toLower (s : String) : s.toLower.toLower = s.toLower := by
  refine toLower_eq ?_
  rw [toList_toLower, List.map_map]
  exact congrArg (List.map · _) (funext (eq_of_capitals (p := Char.toLower) (by decide)))

theorem toLower_joinLines (ls : List String) :
    (joinLines ls).toLower = joinLines (ls.map String.toLower) := by
  induction ls with
  | nil => exact toLower_eq (by decide)
  | cons l ls ih =>
    cases ls with
    | nil => rfl
    | cons m ls =>
      have hnewline : newline.toLower = newline := toLower_eq (by decide)
      show (newline.intercalate (l :: m :: ls)).toLower =
        newline.intercalate (l.toLower :: m.toLower :: ls.map String.toLower)
      rw [String.intercalate_cons_cons, String.intercalate_cons_cons, toLower_append, toLower_append,
        hnewline]
      exact congrArg (l.toLower ++ newline ++ ·) ih

theorem ofList_map_toLower (cs : List Char) :
    String.ofList (cs.map Char.toLower) = (String.ofList cs).toLower :=
  (toLower_eq (by simp)).symm

theorem getLast?_map_toLower {cs : List Char} {d : Char} (hd : d.isAlpha = false) :
    (cs.map Char.toLower).getLast? = some d ↔ cs.getLast? = some d := by
  rw [List.getLast?_map, Option.map_eq_some_iff]
  constructor
  · rintro ⟨c, hc, he⟩
    rw [hc, (toLower_eq_iff hd).mp he]
  · exact fun h => ⟨d, h, (toLower_eq_iff hd).mpr rfl⟩

theorem isAlpha_of_isQuote {q : Char} (h : isQuote q) : q.isAlpha = false := by
  simp only [isQuote, Bool.or_eq_true, decide_eq_true_eq] at h
  rcases h with (rfl | rfl) | rfl <;> rfl

theorem toLower_of_isQuote {q : Char} (h : isQuote q) : q.toLower = q :=
  (toLower_eq_iff (isAlpha_of_isQuote h)).mpr rfl

theorem unquoteChars_map_toLower (cs : List Char) :
    unquoteChars (cs.map Char.toLower) = (unquoteChars cs).map Char.toLower := by
  cases cs with
  | nil => rfl
  | cons q cs =>
    rw [List.map_cons, unquoteChars, unquoteChars, isQuote_toLower]
    by_cases hq : isQuote q = true
    · have hlast : (cs.map Char.toLower).getLast? = some q ↔ cs.getLast? = some q :=
        getLast?_map_toLower (isAlpha_of_isQuote hq)
      rw [toLower_of_isQuote hq]
      simp only [hq, hlast, Bool.true_and]
      split
      · exact List.map_dropLast.symm
      · rw [List.map_cons, toLower_of_isQuote hq]
    · rw [Bool.not_eq_true] at hq
      simp [hq]

theorem unquote_toLower (s : String) : unquote s.toLower = (unquote s).toLower := by
  rw [unquote, unquote, toList_toLower, unquoteChars_map_toLower, ofList_map_toLower]

theorem lower_toLower (s : String) : lower s.toLower = lower s := by
  rw [lower, lower, toList_toLower]
  exact congrArg _ (lowerChars_map_toLower [] s.toList)

end Text

/-! ## Words -/

/-- The word in lower case. -/
def Word.lowered (w : Word) : Word := ⟨w.kind, w.text.toLower⟩

def Token.lowered (t : Token) : Token := ⟨t.word.lowered, t.tail⟩

namespace Scan

open Text

theorem isComment_toLower (c : Char) : isComment c.toLower = isComment c := eq_of_capitals (by decide) c

theorem isNameStart_toLower (c : Char) : isNameStart c.toLower = isNameStart c :=
  eq_of_capitals (by decide) c

theorem isNameRest_toLower (c : Char) : isNameRest c.toLower = isNameRest c :=
  eq_of_capitals (by decide) c

variable {p : Char → Bool}

theorem takeWhile_map_toLower (h : ∀ c, p c.toLower = p c) (cs : List Char) :
    (cs.map Char.toLower).takeWhile p = (cs.takeWhile p).map Char.toLower := by
  rw [List.takeWhile_map]
  exact congrArg _ (congrArg (List.takeWhile · cs) (funext h))

theorem dropWhile_map_toLower (h : ∀ c, p c.toLower = p c) (cs : List Char) :
    (cs.map Char.toLower).dropWhile p = (cs.dropWhile p).map Char.toLower := by
  rw [List.dropWhile_map]
  exact congrArg _ (congrArg (List.dropWhile · cs) (funext h))

/-- A mark stands in front of the text in lower case only if it does so in the text. -/
theorem head_of_map_toLower {d : Char} {cs ds : List Char} (h : cs.map Char.toLower = d :: ds)
    (hd : d.isAlpha = false) : ∃ es, cs = d :: es := by
  obtain ⟨c, es, rfl, hc, -⟩ := List.map_eq_cons_iff.mp h
  exact ⟨es, congrArg (· :: es) ((toLower_eq_iff hd).mp hc)⟩

theorem atMark_map_toLower (cs : List Char) : atMark (cs.map Char.toLower) = atMark cs := by
  fun_cases atMark cs with
  | case1 => rfl
  | case2 c cs hne =>
    have hmap : ∀ ds, c.toLower = '!' → cs.map Char.toLower = '=' :: ds → False := by
      intro ds hc hds
      obtain ⟨es, rfl⟩ := head_of_map_toLower hds (by decide)
      exact hne es ((toLower_eq_iff (by decide)).mp hc) rfl
    rw [List.map_cons, atMark]
    · simp (disch := decide) only [toLower_eq_iff]
    · exact hmap
  | case3 => rfl

theorem quoted_map_toLower {q : Char} (hq : isQuote q) (cs : List Char) :
    quoted q (cs.map Char.toLower) =
      (quoted q cs).map fun p => (p.1.map Char.toLower, p.2.map Char.toLower) := by
  have hletter := isAlpha_of_isQuote hq
  have hescape : ∀ {c : Char} {cs : List Char},
      (∀ d ds, c = '$' → cs = '\\' :: d :: ds → False) →
      ∀ d ds, c.toLower = '$' → cs.map Char.toLower = '\\' :: d :: ds → False := by
    intro c cs hne d ds hc hcs
    obtain ⟨es, rfl⟩ := head_of_map_toLower hcs (by decide)
    cases es with
    | nil => cases hcs
    | cons e es => exact hne e es ((toLower_eq_iff (by decide)).mp hc) rfl
  have hlast : ∀ {c : Char} {cs : List Char}, (c = '$' → cs = ['\\'] → False) →
      c.toLower = '$' → cs.map Char.toLower = ['\\'] → False := by
    intro c cs hne hc hcs
    obtain ⟨es, rfl⟩ := head_of_map_toLower hcs (by decide)
    cases es with
    | nil => exact hne ((toLower_eq_iff (by decide)).mp hc) rfl
    | cons e es => cases hcs
  fun_induction quoted q cs with
  | case1 => rfl
  | case2 c cs ih =>
    show quoted q ('$' :: '\\' :: c.toLower :: cs.map Char.toLower) = _
    rw [quoted, ih]
    cases quoted q cs <;> rfl
  | case3 => rfl
  | case4 cs hesc hend =>
    rw [List.map_cons, quoted, if_pos (toLower_of_isQuote hq)]
    · rfl
    · exact hescape hesc
    · exact hlast hend
  | case5 c cs hesc hend hc ih =>
    have hc' : ¬c.toLower = q := fun h => hc ((toLower_eq_iff hletter).mp h)
    rw [List.map_cons, quoted, if_neg hc', ih]
    · cases quoted q cs <;> rfl
    · exact hescape hesc
    · exact hlast hend

theorem special_map_toLower (cs : List Char) :
    special (cs.map Char.toLower) =
      ((special cs).1.map Char.toLower, (special cs).2.map Char.toLower) := by
  induction cs with
  | nil => rfl
  | cons c cs ih =>
    have hmark := atMark_map_toLower (c :: cs)
    rw [List.map_cons] at hmark ⊢
    rw [special, special, isBlank_toLower, hmark, ih]
    split <;> rfl

theorem marks_map_toLower (cs : List Char) :
    marks (cs.map Char.toLower) = ((marks cs).1, (marks cs).2.map Char.toLower) := by
  have hhead : ∀ {d : Char} {cs : List Char}, d.isAlpha = false → (∀ es, cs = d :: es → False) →
      ∀ ds, cs.map Char.toLower = d :: ds → False := by
    intro d cs hd hne ds h
    obtain ⟨es, he⟩ := head_of_map_toLower h hd
    exact hne es he
  fun_induction marks cs with
  | case6 cs hne ih =>
    rw [List.map_cons, show '='.toLower = '=' from rfl, marks, ih]
    exact hhead (by decide) hne
  | case10 cs hne hne' ih =>
    rw [List.map_cons, show '<'.toLower = '<' from rfl, marks, ih]
    · exact hhead (by decide) hne
    · exact hhead (by decide) hne'
  | case12 cs hne ih =>
    rw [List.map_cons, show '>'.toLower = '>' from rfl, marks, ih]
    exact hhead (by decide) hne
  | case13 c cs _ _ _ _ _ _ _ _ _ _ _ _ hb ih =>
    have hmark : atMark (c :: cs) = false := by simp_all [atMark]
    rw [← atMark_map_toLower, List.map_cons] at hmark
    rw [List.map_cons, marks_of_not_atMark hmark, isBlank_toLower, if_pos hb, ih]
  | case14 c cs _ _ _ _ _ _ _ _ _ _ _ _ hb =>
    have hmark : atMark (c :: cs) = false := by simp_all [atMark]
    rw [← atMark_map_toLower, List.map_cons] at hmark
    rw [List.map_cons, marks_of_not_atMark hmark, isBlank_toLower, if_neg hb]
  | _ => simp_all [marks]

theorem wordFrom_map_toLower (c : Char) (cs : List Char) :
    wordFrom c.toLower (cs.map Char.toLower) =
      (wordFrom c cs).map fun p => (p.1.lowered, p.2.map Char.toLower) := by
  unfold wordFrom
  rw [isQuote_toLower, isDigit_toLower, isNameStart_toLower, ← List.map_cons, atMark_map_toLower,
    special_map_toLower, takeWhile_map_toLower isAlphanum_toLower,
    dropWhile_map_toLower isAlphanum_toLower, takeWhile_map_toLower isNameRest_toLower,
    dropWhile_map_toLower isNameRest_toLower]
  by_cases hq : isQuote c = true
  · have hc := toLower_of_isQuote hq
    rw [if_pos hq, if_pos hq, hc, quoted_map_toLower hq]
    rcases quoted c cs with _ | ⟨body, rest⟩
    · rfl
    · simp only [Option.map_some, Except.map, Word.lowered, ← ofList_map_toLower, List.map_cons, hc]
  · rw [if_neg hq, if_neg hq]
    split_ifs <;> simp only [Except.map, Word.lowered, ← ofList_map_toLower, List.map_cons, List.map_nil]

theorem token?_map_toLower (cs : List Char) : token? (cs.map Char.toLower) =
    (token? cs).map (Option.map fun p => (p.1.lowered, p.2.map Char.toLower)) := by
  unfold token?
  rw [dropWhile_map_toLower isBlank_toLower]
  cases cs.dropWhile isBlank with
  | nil => rfl
  | cons c rest =>
    rw [List.map_cons]
    dsimp only
    rw [isComment_toLower, wordFrom_map_toLower]
    split
    · rfl
    · cases wordFrom c rest with
      | error f => rfl
      | ok p =>
        simp only [Except.map, marks_map_toLower]
        rfl

theorem tokens_eq (cs : List Char) : tokens cs = match token? cs with
    | .error f => .error f
    | .ok none => .ok []
    | .ok (some (t, rest)) => (tokens rest).map (t :: ·) := by
  conv_lhs => rw [tokens]
  split <;> simp_all

/-- The words of a text in lower case are its words in lower case. -/
theorem tokens_map_toLower (cs : List Char) :
    tokens (cs.map Char.toLower) = (tokens cs).map (List.map Token.lowered) := by
  fun_induction tokens cs with
  | case1 cs f h =>
    rw [tokens_eq, token?_map_toLower, h]
    rfl
  | case2 cs h =>
    rw [tokens_eq, token?_map_toLower, h]
    rfl
  | case3 cs t rest h ih =>
    rw [tokens_eq, token?_map_toLower, h]
    show Except.map _ (tokens (rest.map Char.toLower)) = _
    rw [ih]
    cases tokens rest <;> rfl

theorem statement_map_toLower (cs : List Char) :
    statement (cs.map Char.toLower) = (statement cs).map (List.map Token.lowered) := by
  unfold statement
  rw [dropWhile_map_toLower isBlank_toLower]
  split
  · next ds hds =>
    obtain ⟨es, he⟩ := head_of_map_toLower hds (by decide)
    rw [he] at hds
    cases hds
    rw [he, tokens_map_toLower]
    show _ = Except.map (List.map Token.lowered) (Except.map (command :: ·) (tokens es))
    cases tokens es with
    | error f => rfl
    | ok ts =>
      have hcommand : command.lowered = command := by
        rw [Token.lowered, Word.lowered, toLower_eq (t := "!") (by decide)]
        rfl
      show Except.ok (command :: ts.map Token.lowered) = .ok (command.lowered :: ts.map Token.lowered)
      rw [hcommand]
  · next hne =>
    split
    · next ds hds => exact absurd (congrArg (List.map Char.toLower) hds) (hne _)
    · exact tokens_map_toLower _

end Scan

/-! ## Statements -/

/-- The statement in lower case. -/
def Statement.lowered (s : Statement) : Statement where
  line := s.line
  indent := s.indent
  text := s.text.toLower
  tokens := s.tokens.map (List.map Token.lowered)

def Draft.lowered (d : Draft) : Draft := { d with text := d.text.toLower }

open Text

theorem toLower_of_isSpace {c : Char} (h : isSpace c) : c.toLower = c := by
  have hall := eq_of_capitals (p := fun c => if isSpace c then c else 'a') (by decide) c
  rwa [isSpace_toLower, if_pos h, if_pos h] at hall

theorem indentation_toLower (s : String) : indentation s.toLower = indentation s := by
  have hspace : ∀ c ∈ s.toList.takeWhile isSpace, c.toLower = c := fun c hc =>
    toLower_of_isSpace (List.all_eq_true.mp List.all_takeWhile c hc)
  have hspaces : (s.toList.takeWhile isSpace).map Char.toLower = s.toList.takeWhile isSpace :=
    (List.map_congr_left hspace).trans (List.map_id _)
  rw [indentation, indentation, toList_toLower, Scan.takeWhile_map_toLower isSpace_toLower, hspaces]

theorem unindented_toLower (s : String) : unindented s.toLower = (unindented s).toLower := by
  rw [unindented, unindented, toList_toLower, Scan.dropWhile_map_toLower isSpace_toLower,
    ofList_map_toLower]

theorem splitLines_map_toLower (cs : List Char) :
    splitLines (cs.map Char.toLower) = (splitLines cs).map (List.map Char.toLower) := by
  have hfeed' : ∀ {c : Char}, (c = '\n' → False) → c.toLower = '\n' → False :=
    fun hfeed hc => hfeed ((toLower_eq_iff (by decide)).mp hc)
  have hreturn' : ∀ {c : Char} {cs : List Char}, (∀ ds, c = '\r' → cs = '\n' :: ds → False) →
      ∀ ds, c.toLower = '\r' → cs.map Char.toLower = '\n' :: ds → False := by
    intro c cs hreturn ds hc hds
    obtain ⟨es, rfl⟩ := Scan.head_of_map_toLower hds (by decide)
    exact hreturn es ((toLower_eq_iff (by decide)).mp hc) rfl
  fun_induction splitLines cs with
  | case1 => rfl
  | case2 cs ih => exact congrArg ([] :: ·) ih
  | case3 cs ih => exact congrArg ([] :: ·) ih
  | case4 c cs hreturn hfeed hlines ih =>
    rw [List.map_cons, splitLines.eq_4 _ _ (hreturn' hreturn) (hfeed' hfeed), ih, hlines]
    rfl
  | case5 c cs hreturn hfeed l ls hlines ih =>
    rw [List.map_cons, splitLines.eq_4 _ _ (hreturn' hreturn) (hfeed' hfeed), ih, hlines]
    rfl

theorem lines_toLower (s : String) : lines s.toLower = (lines s).map String.toLower := by
  rw [lines, lines, toList_toLower, splitLines_map_toLower, List.map_map, List.map_map]
  exact congrArg (List.map · _) (funext ofList_map_toLower)

namespace Draft

theorem opensComment_map_toLower (cs : List Char) :
    opensComment (cs.map Char.toLower) = opensComment cs := by
  fun_cases opensComment cs with
  | case1 => rfl
  | case2 cs hne =>
    rw [opensComment]
    intro ds hds
    obtain ⟨es, rfl⟩ := Scan.head_of_map_toLower hds (by decide)
    obtain ⟨fs, rfl⟩ := Scan.head_of_map_toLower (List.cons.inj hds).2 (by decide)
    exact hne fs rfl

theorem closesComment_map_toLower (cs : List Char) :
    closesComment (cs.map Char.toLower) = closesComment cs := by
  induction cs with
  | nil => rfl
  | cons c cs ih =>
    by_cases hend : c = '*' ∧ ∃ ds, cs = '/' :: ds
    · obtain ⟨rfl, ds, rfl⟩ := hend
      rfl
    · rw [List.map_cons, closesComment_cons, closesComment_cons, ih]
      · exact fun ds hc hds => hend ⟨hc, ds, hds⟩
      · exact fun ds hc hds =>
          hend ⟨(toLower_eq_iff (by decide)).mp hc, Scan.head_of_map_toLower hds (by decide)⟩

theorem start_toLower (l : String) : start l.toLower = (start l).lowered := by
  rw [start, indentation_toLower, unindented_toLower, toList_toLower, opensComment_map_toLower]
  rfl

theorem isOpen_lowered (d : Draft) : d.lowered.isOpen = d.isOpen := by
  have hlast : (d.text.toList.map Char.toLower).getLast? = some '\\' ↔
      d.text.toList.getLast? = some '\\' := getLast?_map_toLower (by decide)
  unfold isOpen
  show (if d.comment then !closesComment d.text.toLower.toList
    else decide (d.text.toLower.toList.getLast? = some '\\')) = _
  rw [toList_toLower, closesComment_map_toLower]
  simp only [hlast]

theorem extend_toLower (d : Draft) (l : String) : d.lowered.extend l.toLower = (d.extend l).lowered := by
  unfold extend lowered
  dsimp only
  split
  · rw [toLower_append, toLower_append, toLower_eq (s := newline) (t := newline) (by decide)]
  · rw [toList_toLower, unindented_toLower, ← List.map_dropLast, ofList_map_toLower, ← toLower_append]

theorem finish_lowered (d : Draft) (n : Nat) : d.lowered.finish n = (d.finish n).lowered := by
  unfold finish lowered Statement.lowered
  dsimp only
  rw [toList_toLower, ← List.map_drop, Scan.statement_map_toLower]
  split <;> rfl

end Draft

theorem statementsFrom_toLower (n : Nat) (pending : Option Draft) (ls : List String) :
    statementsFrom n (pending.map Draft.lowered) (ls.map String.toLower) =
      (statementsFrom n pending ls).map Statement.lowered := by
  induction ls generalizing n pending with
  | nil => cases pending with
    | none => rfl
    | some d => exact congrArg ([·]) (d.finish_lowered n)
  | cons l ls ih =>
    have hnext : Draft.next (pending.map Draft.lowered) l.toLower = (Draft.next pending l).lowered := by
      cases pending with
      | none => exact Draft.start_toLower l
      | some d => exact d.extend_toLower l
    have hleft : (Draft.next pending l).lowered.left? =
        (Draft.next pending l).left?.map Draft.lowered := by
      rw [Draft.left?, Draft.left?, Draft.isOpen_lowered]
      split <;> rfl
    rw [List.map_cons, statementsFrom_cons, statementsFrom_cons, hnext, hleft, ih, Draft.isOpen_lowered,
      Draft.finish_lowered, List.map_append]
    split <;> rfl

/-- The statements of a source in lower case are its statements in lower case. -/
theorem statements_toLower (source : String) :
    statements source.toLower = (statements source).map Statement.lowered := by
  rw [statements, lines_toLower]
  exact statementsFrom_toLower 0 none (lines source)

/-! ## Sources that differ in the case of names -/

/-- The words are the same but for the case of letters, and the same altogether if they are no names. -/
structure Word.Alike (w w' : Word) : Prop where
  kind : w.kind = w'.kind
  lower : w.text.toLower = w'.text.toLower
  text : w.isName = false → w.text = w'.text

structure Token.Alike (t t' : Token) : Prop where
  word : t.word.Alike t'.word
  tail : t.tail = t'.tail

/-- The statements can be read both or neither of them, and have words of the same form. -/
structure Statement.Alike (s s' : Statement) : Prop where
  line : s.line = s'.line
  indent : s.indent = s'.indent
  text : s.text.toLower = s'.text.toLower
  tokens : (∃ f, s.tokens = .error f ∧ s'.tokens = .error f) ∨
    ∃ ts ts', s.tokens = .ok ts ∧ s'.tokens = .ok ts' ∧ List.Forall₂ Token.Alike ts ts'

/-- The words of a statement that are no names. -/
def Statement.literals (s : Statement) : List Word :=
  match s.tokens with
  | .error _ => []
  | .ok ts => (ts.map Token.word).filter (!·.isName)

/-- The sources differ in nothing but the case of letters, and the letters are those of names. -/
structure Recased (source source' : String) : Prop where
  letters : source.toLower = source'.toLower
  literals : (statements source).map Statement.literals = (statements source').map Statement.literals

theorem Word.Alike.name {w w' : Word} (h : w.Alike w') : w.name = w'.name := by
  rw [Word.name, Word.name, ← lower_toLower, h.lower, lower_toLower]

theorem Word.Alike.isName {w w' : Word} (h : w.Alike w') : w.isName = w'.isName := by
  rw [Word.isName, Word.isName, h.kind]

theorem Word.Alike.bare {w w' : Word} (h : w.Alike w') : w.bare.toLower = w'.bare.toLower := by
  rw [Word.bare, Word.bare, ← unquote_toLower, h.lower, unquote_toLower]

theorem tokens_alike {ts ts' : List Token} (h : ts.map Token.lowered = ts'.map Token.lowered)
    (hl : (ts.map Token.word).filter (!·.isName) = (ts'.map Token.word).filter (!·.isName)) :
    List.Forall₂ Token.Alike ts ts' := by
  induction ts generalizing ts' with
  | nil =>
    rw [List.map_nil, eq_comm, List.map_eq_nil_iff] at h
    rw [h]
    exact .nil
  | cons t ts ih =>
    cases ts' with
    | nil => cases h
    | cons t' ts' =>
      obtain ⟨ht, hts⟩ := List.cons.inj h
      have hkind : t.word.kind = t'.word.kind := congrArg (fun t => t.word.kind) ht
      have hlower : t.word.text.toLower = t'.word.text.toLower := congrArg (fun t => t.word.text) ht
      have htail : t.tail = t'.tail := congrArg (fun t => t.tail) ht
      have hname : t.word.isName = t'.word.isName := by rw [Word.isName, Word.isName, hkind]
      rw [List.map_cons, List.map_cons, List.filter_cons, List.filter_cons, ← hname] at hl
      cases hn : t.word.isName with
      | true =>
        rw [hn] at hl
        refine .cons ⟨⟨hkind, hlower, fun h => ?_⟩, htail⟩ (ih hts hl)
        cases hn.symm.trans h
      | false =>
        rw [hn] at hl
        obtain ⟨hword, hl⟩ := List.cons.inj hl
        exact .cons ⟨⟨hkind, hlower, fun _ => congrArg Word.text hword⟩, htail⟩ (ih hts hl)

theorem Statement.alike_of_lowered {s s' : Statement} (h : s.lowered = s'.lowered)
    (hl : s.literals = s'.literals) : s.Alike s' := by
  have htokens : s.tokens.map (List.map Token.lowered) = s'.tokens.map (List.map Token.lowered) :=
    congrArg Statement.tokens h
  have hline : s.lowered.line = s'.lowered.line := congrArg Statement.line h
  have hindent : s.lowered.indent = s'.lowered.indent := congrArg Statement.indent h
  refine ⟨hline, hindent, congrArg Statement.text h, ?_⟩
  unfold literals at hl
  cases hts : s.tokens with
  | error f =>
    cases hts' : s'.tokens with
    | error f' =>
      rw [hts, hts'] at htokens
      cases htokens
      exact .inl ⟨f, rfl, rfl⟩
    | ok ts' =>
      rw [hts, hts'] at htokens
      cases htokens
  | ok ts =>
    cases hts' : s'.tokens with
    | error f' =>
      rw [hts, hts'] at htokens
      cases htokens
    | ok ts' =>
      rw [hts, hts'] at htokens hl
      exact .inr ⟨ts, ts', rfl, rfl, tokens_alike (Except.ok.inj htokens) hl⟩

/-- Sources that differ in the case of names have statements of the same form. -/
theorem Recased.statements {source source' : String} (h : Recased source source') :
    List.Forall₂ Statement.Alike (statements source) (statements source') := by
  have hlowered : (InstallScript.statements source).map Statement.lowered =
      (InstallScript.statements source').map Statement.lowered := by
    rw [← statements_toLower, ← statements_toLower, h.letters]
  have hliterals := h.literals
  generalize InstallScript.statements source = ss at hlowered hliterals ⊢
  generalize InstallScript.statements source' = ss' at hlowered hliterals ⊢
  induction ss generalizing ss' with
  | nil =>
    rw [List.map_nil, eq_comm, List.map_eq_nil_iff] at hlowered
    rw [hlowered]
    exact .nil
  | cons s ss ih =>
    cases ss' with
    | nil => cases hlowered
    | cons s' ss' =>
      obtain ⟨hs, hss⟩ := List.cons.inj hlowered
      obtain ⟨hl, hls⟩ := List.cons.inj hliterals
      exact .cons (Statement.alike_of_lowered hs hl) (ih ss' hss hls)

end InstallScript
