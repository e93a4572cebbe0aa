import InstallScript.Proofs.Folding
import InstallScript.Proofs.Respacing

/-!
Text between quotes. `Quotable q` says which characters can stand between two quotes `q` and are read as
one word with them: escapes are complete, and no quote `q` stands outside of an escape. A concatenation
is written between double quotes whatever quotes its operands were written between, so it is one word
exactly if its text is one that can stand between double quotes (`folded_string_whole_iff`).
-/

namespace InstallScript

/-- Read from left to right, where `$\` hides the character behind it, the text is used up without an
escape left open and without a quote `q` outside of one. -/
inductive Quotable (q : Char) : List Char → Prop
  | nil : Quotable q []
  | escape {c : Char} {cs : List Char} : Quotable q cs → Quotable q ('$' :: '\\' :: c :: cs)
  | char {c : Char} {cs : List Char} :
      c ≠ q → (c = '$' → cs.head? ≠ some '\\') → Quotable q cs → Quotable q (c :: cs)

/-- An escape begins in the first text and ends in the second one. -/
def Seam (left right : List Char) : Prop := left.getLast? = some '$' ∧ right.head? = some '\\'

namespace Quotable

variable {q c : Char} {cs : List Char}

theorem escape_iff : Quotable q ('$' :: '\\' :: c :: cs) ↔ Quotable q cs := by
  refine ⟨fun h => ?_, .escape⟩
  cases h with
  | escape h => exact h
  | char _ hdollar _ => exact absurd rfl (hdollar rfl)

/-- A character that begins no escape stands for itself. -/
theorem char_iff (h : c = '$' → cs.head? ≠ some '\\') : Quotable q (c :: cs) ↔ c ≠ q ∧ Quotable q cs := by
  refine ⟨fun hi => ?_, fun hi => .char hi.1 h hi.2⟩
  cases hi with
  | escape _ => exact absurd rfl (h rfl)
  | char hc _ hcs => exact ⟨hc, hcs⟩

/-- Without escapes it is the quote alone that cannot stand there. -/
theorem iff_not_mem (h : '$' ∉ cs) : Quotable q cs ↔ q ∉ cs := by
  induction cs with
  | nil => exact iff_of_true .nil List.not_mem_nil
  | cons c cs ih =>
    rw [List.mem_cons, not_or] at h
    rw [char_iff fun hc => absurd hc.symm h.1, ih h.2, List.mem_cons, not_or, ne_comm]

/-- A text in which escapes are complete stands for itself wherever it is put, if no escape goes over
its end. The induction reads the first text in the quotes it can stand between. -/
theorem append_iff {q' : Char} {left right : List Char} (h : Quotable q' left) (hs : ¬Seam left right) :
    Quotable q (left ++ right) ↔ Quotable q left ∧ Quotable q right := by
  induction h with
  | nil => exact ⟨fun h => ⟨.nil, h⟩, fun h => h.2⟩
  | @escape c cs _ ih =>
    have hrest : ¬Seam cs right := by
      intro ⟨hlast, hhead⟩
      refine hs ⟨?_, hhead⟩
      rw [List.getLast?_cons, List.getLast?_cons, List.getLast?_cons, hlast]
      rfl
    rw [List.cons_append, List.cons_append, List.cons_append, escape_iff, escape_iff, ih hrest]
  | @char c cs _ hdollar _ ih =>
    have hrest : ¬Seam cs right := by
      intro ⟨hlast, hhead⟩
      refine hs ⟨?_, hhead⟩
      rw [List.getLast?_cons, hlast]
      rfl
    have hbehind : c = '$' → (cs ++ right).head? ≠ some '\\' := by
      rintro rfl hhead
      cases cs with
      | nil => exact hs ⟨rfl, hhead⟩
      | cons d ds => exact hdollar rfl hhead
    rw [List.cons_append, char_iff hbehind, char_iff hdollar, ih hrest, and_assoc]

/-- Names and numbers can stand between all quotes. -/
theorem of_isNameRest (hq : Text.isQuote q) (h : cs.all Scan.isNameRest) : Quotable q cs := by
  induction cs with
  | nil => exact .nil
  | cons c cs ih =>
    obtain ⟨hc, hcs⟩ := List.all_cons.symm.trans h |> Bool.and_eq_true_iff.mp
    refine .char ?_ ?_ (ih hcs)
    · rintro rfl
      simp only [Text.isQuote, Bool.or_eq_true, decide_eq_true_eq] at hq
      rcases hq with (rfl | rfl) | rfl <;> revert hc <;> decide
    · rintro rfl
      exact absurd hc (by decide)

end Quotable

/-- No escape goes over the places where the texts meet. -/
def Seamless (texts : List (List Char)) : Prop :=
  ∀ before after, texts = before ++ after → ¬Seam before.flatten after.flatten

/-- Texts that no escape joins can stand between quotes together exactly if each of them can. -/
theorem quotable_flatten_iff {q : Char} {texts : List (List Char)} (hs : Seamless texts)
    (h : ∀ t ∈ texts, ∃ q', Quotable q' t) : Quotable q texts.flatten ↔ ∀ t ∈ texts, Quotable q t := by
  induction texts with
  | nil => exact iff_of_true .nil fun t ht => absurd ht List.not_mem_nil
  | cons t texts ih =>
    obtain ⟨⟨q', ht⟩, htexts⟩ := List.forall_mem_cons.mp h
    have hmeet : ¬Seam t texts.flatten := by
      have h := hs [t] texts rfl
      rwa [List.flatten_singleton] at h
    have hrest : Seamless texts := by
      intro before after he ⟨hlast, hhead⟩
      refine hs (t :: before) after (congrArg (t :: ·) he) ⟨?_, hhead⟩
      rw [List.flatten_cons, List.getLast?_append, hlast]
      rfl
    rw [List.flatten_cons, ht.append_iff hmeet, ih hrest htexts, List.forall_mem_cons]

namespace Scan

open Text

/-- What is read up to a quote is a text that can stand between quotes, and the quote. -/
theorem quoted_eq_some_iff {q : Char} (hq : isQuote q) {cs body rest : List Char} :
    quoted q cs = some (body, rest) ↔
      ∃ inner, body = inner ++ [q] ∧ cs = inner ++ q :: rest ∧ Quotable q inner := by
  have hdollar : q ≠ '$' := by
    rintro rfl
    revert hq
    decide
  have hback : q ≠ '\\' := by
    rintro rfl
    revert hq
    decide
  constructor
  · intro h
    fun_induction quoted q cs generalizing body rest with
    | case1 => cases h
    | case2 c cs ih =>
      obtain ⟨⟨body, rest⟩, hp, h⟩ := Option.map_eq_some_iff.1 h
      cases h
      obtain ⟨inner, rfl, rfl, hi⟩ := ih hp
      exact ⟨'$' :: '\\' :: c :: inner, rfl, rfl, .escape hi⟩
    | case3 => cases h
    | case4 cs =>
      cases h
      exact ⟨[], rfl, rfl, .nil⟩
    | case5 c cs hesc hend hc ih =>
      obtain ⟨⟨body, rest⟩, hp, h⟩ := Option.map_eq_some_iff.1 h
      cases h
      obtain ⟨inner, rfl, rfl, hi⟩ := ih hp
      refine ⟨c :: inner, rfl, rfl, .char hc ?_ hi⟩
      rintro rfl hhead
      obtain ⟨ds, rfl⟩ := List.head?_eq_some_iff.mp hhead
      obtain ⟨d, ds', hds⟩ := List.exists_cons_of_ne_nil (l := ds ++ q :: rest) (by simp)
      refine hesc d ds' rfl ?_
      rw [List.cons_append, hds]
  · rintro ⟨inner, rfl, rfl, hi⟩
    induction hi with
    | nil =>
      rw [List.nil_append, quoted, if_pos rfl]
      · rfl
      · exact fun _ _ h _ => hdollar h
      · exact fun h _ => hdollar h
    | @escape c cs _ ih => simp [quoted, ih]
    | @char c cs hc hesc _ ih =>
      have hnext : ∀ ds, c = '$' → cs ++ q :: rest = '\\' :: ds → False := by
        intro ds hd he
        cases cs with
        | nil => exact hback (List.cons.inj he).1
        | cons d cs => exact hesc hd (congrArg some (List.cons.inj he).1)
      rw [List.cons_append, quoted, if_neg hc, ih]
      · rfl
      · exact fun d ds hd he => hnext (d :: ds) hd he
      · exact fun hd he => hnext [] hd he

/-- The first word of a text is found at its beginning. -/
theorem token?_of_tokens {cs : List Char} {t : Token} {ts : List Token}
    (h : tokens cs = .ok (t :: ts)) : ∃ rest, token? cs = .ok (some (t, rest)) := by
  rw [tokens] at h
  split at h
  · cases h
  · cases h
  · next u rest htoken =>
    cases hrest : tokens rest with
    | error f =>
      rw [hrest] at h
      cases h
    | ok us =>
      rw [hrest] at h
      cases h
      exact ⟨rest, htoken⟩

/-- A text between double quotes is one word exactly if it can stand there. -/
theorem statement_quote_iff (s : String) :
    statement (quote s).toList = .ok [⟨⟨.quoted, quote s⟩, {}⟩] ↔ Quotable '"' s.toList := by
  have hchars : (quote s).toList = '"' :: (s.toList ++ ['"']) := by simp [quote]
  have hstatement : statement (quote s).toList = tokens ('"' :: (s.toList ++ ['"'])) := by
    rw [hchars]
    rfl
  rw [hstatement]
  constructor
  · intro h
    obtain ⟨rest, htoken⟩ := token?_of_tokens h
    obtain ⟨c, ds, behind, hcs, -, -, hword, -, -⟩ := token?_eq_some htoken
    obtain ⟨rfl, rfl⟩ := List.cons.inj hcs
    cases hquoted : quoted '"' (s.toList ++ ['"']) with
    | none => simp [wordFrom, isQuote, hquoted] at hword
    | some p =>
      obtain ⟨inner, hinner, -, hi⟩ := (quoted_eq_some_iff rfl).mp hquoted
      have htext : String.ofList ('"' :: p.1) = quote s := by
        simp only [wordFrom, isQuote, hquoted] at hword
        exact congrArg (fun q => q.1.text) (Except.ok.inj hword)
      rw [← String.toList_inj, String.toList_ofList, hchars, hinner] at htext
      have he := List.append_inj_left' (List.cons.inj htext).2 rfl
      exact he ▸ hi
  · intro hi
    have hquoted : quoted '"' (s.toList ++ ['"']) = some (s.toList ++ ['"'], []) :=
      (quoted_eq_some_iff rfl).mpr ⟨s.toList, rfl, rfl, hi⟩
    have hword : wordFrom '"' (s.toList ++ ['"']) = .ok (⟨.quoted, quote s⟩, []) := by
      simp [wordFrom, isQuote, hquoted, ← String.toList_inj, hchars]
    refine tokens_of_token? ?_ tokens_nil
    change (wordFrom '"' (s.toList ++ ['"'])).map _ = _
    rw [hword]
    rfl

end Scan

/-! ## What an operand adds to a string -/

theorem Text.unquoteChars_quoted {q : Char} (hq : isQuote q) (cs : List Char) :
    unquoteChars (q :: (cs ++ [q])) = cs := by
  simp [unquoteChars, hq]

/-- Text between quotes can stand between the quotes it was written in. -/
theorem Word.quotable_bare_of_quoted {w : Word} (hs : w.isSpelled) (hk : w.kind = .quoted) :
    ∃ q, Quotable q w.bare.toList := by
  cases htext : w.text.toList with
  | nil => simp [isSpelled, hk, htext] at hs
  | cons q cs =>
    simp only [isSpelled, hk, htext, Bool.and_eq_true, decide_eq_true_eq] at hs
    obtain ⟨⟨hq, hquoted⟩, -⟩ := hs
    obtain ⟨inner, rfl, -, hi⟩ := (Scan.quoted_eq_some_iff hq).mp hquoted
    refine ⟨q, ?_⟩
    rw [bare, Text.unquote, htext, String.toList_ofList, Text.unquoteChars_quoted hq]
    exact hi

theorem Word.quotable_bare_of_integer {w : Word} (hs : w.isSpelled) (hk : w.kind = .integer) {q : Char}
    (hq : Text.isQuote q) : Quotable q w.bare.toList := by
  cases htext : w.text.toList with
  | nil => simp [isSpelled, hk, htext] at hs
  | cons c cs =>
    simp only [isSpelled, hk, htext, Bool.and_eq_true] at hs
    obtain ⟨hc, hcs⟩ := hs
    have hbare : w.bare.toList = c :: cs := by
      rw [bare, Text.unquote, htext, String.toList_ofList, Text.unquoteChars,
        Scan.isQuote_eq_false (by simp [hc])]
      rfl
    rw [hbare]
    refine .of_isNameRest hq (List.all_eq_true.mpr fun d hd => ?_)
    rcases List.mem_cons.mp hd with rfl | hd
    · simp [Scan.isNameRest, Char.isAlphanum, hc]
    · simp [Scan.isNameRest, List.all_eq_true.mp hcs d hd]

theorem Variable.quotable_value {v : Variable} (h : v.target.toList.all Scan.isNameRest) {q : Char}
    (hq : Text.isQuote q) : Quotable q v.value.toList := by
  have hchars : v.value.toList = '$' :: v.target.toList := by simp [value]
  rw [hchars]
  refine .char ?_ ?_ (.of_isNameRest hq h)
  · rintro rfl
    exact absurd hq (by decide)
  · intro _ hhead
    obtain ⟨cs, hcs⟩ := List.head?_eq_some_iff.mp hhead
    rw [hcs] at h
    exact absurd (Bool.and_eq_true_iff.mp (List.all_cons.symm.trans h)).1 (by decide)

/-- In every operand escapes are complete, and only a word in quotes can bring a quote along. -/
theorem Compiler.quotable_operand? {c : Compiler} {word : Word} {y : Operand}
    (h : c.operand? word = some y) (hs : word.isSpelled)
    (hv : ∀ v, y = .var v → v.target.toList.all Scan.isNameRest) :
    (∃ q, Quotable q y.bare.toList) ∧
      (Quotable '"' y.bare.toList ↔ (word.kind = .quoted → Quotable '"' word.bare.toList)) := by
  unfold operand? at h
  split at h
  · next hname =>
    obtain ⟨v, -, rfl⟩ := Option.map_eq_some_iff.mp h
    have hbare : (Operand.var v).bare = v.value := by
      simp [Operand.bare, Operand.pieces, Piece.write, String.join_cons]
    have hi : Quotable '"' (Operand.var v).bare.toList := by
      rw [hbare]
      exact v.quotable_value (hv v rfl) rfl
    have hk : word.kind = .name := of_decide_eq_true hname
    exact ⟨⟨_, hi⟩, iff_of_true hi fun hq => absurd (hk.symm.trans hq) (by decide)⟩
  · next hname =>
    cases h
    have hbare : (Operand.ofWord word).bare = word.bare := by
      simp [Operand.bare, Operand.ofWord, Operand.pieces, Piece.write, String.join_cons, Word.bare]
    rw [hbare]
    cases hk : word.kind with
    | name => exact absurd (decide_eq_true hk) hname
    | special => simp [Word.isSpelled, hk] at hs
    | quoted =>
      refine ⟨Word.quotable_bare_of_quoted hs hk, ?_⟩
      simp
    | integer =>
      have hi := Word.quotable_bare_of_integer hs hk (q := '"') rfl
      exact ⟨⟨_, hi⟩, iff_of_true hi fun _ => hi⟩

/-- The operands of a concatenation are free of double quotes exactly if its words in quotes are. -/
theorem Compiler.quotable_operands_iff {c : Compiler} {ts : List Token} {ops : List Operand}
    (h : ts.map (c.operand? ·.word) = ops.map some) (hs : ∀ u ∈ ts, u.word.isSpelled)
    (hv : ∀ v, .var v ∈ ops → v.target.toList.all Scan.isNameRest) :
    (∀ y ∈ ops, ∃ q, Quotable q y.bare.toList) ∧
      ((∀ y ∈ ops, Quotable '"' y.bare.toList) ↔
        ∀ u ∈ ts, u.word.kind = .quoted → Quotable '"' u.word.bare.toList) := by
  have hword : ∀ y ∈ ops, ∃ u ∈ ts, c.operand? u.word = some y := fun y hy =>
    List.mem_map.mp (h ▸ List.mem_map_of_mem hy)
  have hoperand : ∀ u ∈ ts, ∃ y ∈ ops, some y = c.operand? u.word := fun u hu =>
    List.mem_map.mp (h ▸ List.mem_map_of_mem (f := fun t : Token => c.operand? t.word) hu)
  have hone : ∀ y ∈ ops, ∀ u ∈ ts, c.operand? u.word = some y → _ := fun y hy u hu he =>
    c.quotable_operand? he (hs u hu) fun v hvar => hv v (hvar ▸ hy)
  refine ⟨fun y hy => ?_, fun hall u hu => ?_, fun hall y hy => ?_⟩
  · obtain ⟨u, hu, he⟩ := hword y hy
    exact (hone y hy u hu he).1
  · obtain ⟨y, hy, he⟩ := hoperand u hu
    exact (hone y hy u hu he.symm).2.mp (hall y hy)
  · obtain ⟨u, hu, he⟩ := hword y hy
    exact (hone y hy u hu he).2.mpr (hall u hu)

/-- A concatenation compiles to one text between double quotes. The text is scanned as one word exactly
if what the operands add up to can stand between double quotes. Unless an escape goes over the place
where two operands meet, that is so exactly if none of the strings, whatever quotes it has itself, has a
double quote outside of an escape. -/
theorem folded_string_whole_iff {w : Work} {n : Nat} {t : Token} {more rest : List Token}
    {ops : List Operand} (hdepth : w.compiler.depth < Compile.maxNesting) (hmore : more ≠ [])
    (hchain : isChain (t :: more))
    (hops : (t :: more).map (w.compiler.operand? ·.word) = ops.map some)
    (hcursor : w.cursor = ⟨t.tail, more ++ rest⟩) :
    let texts := ops.map (·.bare.toList)
    ∃ x, Compile.exec (Compile.expression (n + 1) t.word) w =
        (.ok x, { w with cursor := ⟨lastTail t.tail more, rest⟩ }) ∧
      x.write = Text.quote (String.ofList texts.flatten) ∧
      (Scan.statement x.write.toList = .ok [⟨⟨.quoted, x.write⟩, {}⟩] ↔ Quotable '"' texts.flatten) ∧
      (Seamless texts → (∀ u ∈ t :: more, u.word.isSpelled) →
        (∀ v, .var v ∈ ops → v.target.toList.all Scan.isNameRest) →
        (Scan.statement x.write.toList = .ok [⟨⟨.quoted, x.write⟩, {}⟩] ↔
          ∀ u ∈ t :: more, u.word.kind = .quoted → Quotable '"' u.word.bare.toList)) := by
  intro texts
  obtain ⟨y, ys, rfl, hy, htail⟩ := List.map_eq_cons_iff.mp hops.symm
  have hne : ys ≠ [] := by
    rintro rfl
    exact hmore (List.map_eq_nil_iff.mp htail.symm)
  have hbare : (ys.foldl Operand.join y).bare.toList = texts.flatten := by
    rw [Compile.bare_foldl_join, String.toList_join, List.flatMap_map, List.flatMap_def]
  have hwrite : (ys.foldl Operand.join y).write = Text.quote (String.ofList texts.flatten) := by
    rw [Compile.write_foldl_join y hne, ← hbare, String.ofList_toList]
  have hwhole := Scan.statement_quote_iff (String.ofList texts.flatten)
  rw [String.toList_ofList] at hwhole
  refine ⟨_, Compile.exec_expression_words hdepth hmore hchain hops hcursor, hwrite, ?_, ?_⟩
  · rw [hwrite]
    exact hwhole
  · intro hseam hspelled hvars
    obtain ⟨hcomplete, hquotes⟩ := w.compiler.quotable_operands_iff hops hspelled hvars
    rw [hwrite, hwhole, quotable_flatten_iff hseam (List.forall_mem_map.mpr hcomplete),
      List.forall_mem_map, hquotes]

/-- A string in apostrophes with double quotes in it, and a variable. -/
theorem folded_string_whole_iff_of_apostrophes :
    let first : Token := ⟨⟨.quoted, "'say \"hi\" '"⟩, { joins := true }⟩
    let more : List Token := [⟨⟨.name, "x"⟩, {}⟩]
    let ops : List Operand := [.literal "'say \"hi\" '", .var ⟨"x", .global, none⟩]
    let w : Work := { compiler := capturing, cursor := ⟨first.tail, more⟩ }
    let texts := ops.map (·.bare.toList)
    (w.compiler.depth < Compile.maxNesting ∧ more ≠ [] ∧ isChain (first :: more) ∧
      (first :: more).map (w.compiler.operand? ·.word) = ops.map some ∧
      (∀ u ∈ first :: more, u.word.isSpelled) ∧ Seamless texts) ∧
    ∃ x, Compile.exec (Compile.value first.word) w = (.ok x, { w with cursor := ⟨{}, []⟩ }) ∧
      x.write = "\"say \"hi\" $x\"" ∧
      Scan.statement x.write.toList ≠ .ok [⟨⟨.quoted, x.write⟩, {}⟩] := by
  intro first more ops w texts
  have h : w.compiler.depth < Compile.maxNesting ∧ more ≠ [] ∧ isChain (first :: more) ∧
      (first :: more).map (w.compiler.operand? ·.word) = ops.map some ∧
      ∀ u ∈ first :: more, u.word.isSpelled := by decide +kernel
  obtain ⟨hdepth, hmore, hchain, hops, hspelled⟩ := h
  have hseam : Seamless texts := by
    rintro before after he ⟨-, hhead⟩
    have hback : '\\' ∈ texts.flatten := by
      rw [he, List.flatten_append]
      exact List.mem_append_right _ (List.mem_of_head? hhead)
    exact absurd hback (by decide +kernel)
  refine ⟨⟨hdepth, hmore, hchain, hops, hspelled, hseam⟩, ?_⟩
  obtain ⟨x, hx, hwrite, -, hwhole⟩ := folded_string_whole_iff (n := Compile.maxNesting) hdepth hmore
    hchain hops (rfl : w.cursor = ⟨first.tail, more ++ []⟩)
  refine ⟨x, hx, hwrite.trans (by decide +kernel), fun hone => ?_⟩
  have hvars : ∀ v, .var v ∈ ops → v.target.toList.all Scan.isNameRest := by
    intro v hv
    simp only [ops, List.mem_cons, List.not_mem_nil, Operand.var.injEq, reduceCtorEq, or_false,
      false_or] at hv
    subst hv
    decide
  have hquotable := (hwhole hseam hspelled hvars).mp hone first List.mem_cons_self rfl
  exact absurd ((Quotable.iff_not_mem (by decide +kernel)).mp hquotable) (by decide +kernel)

/-- The string that is written ends where the quotes of its operand begin. -/
theorem folded_string_is_three_words :
    let run := ((Compiler.start true).steps (program ["y = 'say \"hi\"' & \"!\""])).1
    run.map (·.result.toOption) = [some (.text "Var /GLOBAL y\r\nStrCpy $y \"say \"hi\"!\"")] ∧
      (Scan.statement "\"say \"hi\"!\"".toList).toOption.map (·.map (·.word.text)) =
        some ["\"say \"", "hi", "\"!\""] := by
  decide +kernel

end InstallScript
