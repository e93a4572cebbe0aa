import InstallScript.Proofs.SourceLines
import InstallScript.Proofs.Trees

/-!
Trees as text. Scanning the text of a tree gives its words with their marks, `Expr.tokens`, and a line
that assigns a tree is one statement.
-/

namespace InstallScript

/-- The text of the word is one that is scanned as this word. -/
def Word.isSpelled (w : Word) : Bool :=
  match w.kind, w.text.toList with
  | .name, c :: cs => Scan.isNameStart c && cs.all Scan.isNameRest
  | .integer, c :: cs => c.isDigit && cs.all Char.isAlphanum
  | .quoted, c :: cs => Text.isQuote c && Scan.quoted c cs = some (cs, []) && !cs.contains '\n'
  | _, _ => false

mutual

/-- The characters of an item. -/
def Item.chars : Item → List Char
  | .word w => w.text.toList
  | .call f args => f.text.toList ++ '(' :: (args.chars ++ [')'])

def Args.chars : Args → List Char
  | .none => []
  | .cons e more => e.chars ++ ((if more.isNone then [] else [',', ' ']) ++ more.chars)

def Expr.chars : Expr → List Char
  | .single i => i.chars
  | .join i e => i.chars ++ ' ' :: '&' :: ' ' :: e.chars

end

mutual

/-- All words are spelled as they are scanned, and only names are called. -/
def Item.isSpelled : Item → Bool
  | .word w => w.isSpelled
  | .call f args => f.isName && f.isSpelled && args.isSpelled

def Args.isSpelled : Args → Bool
  | .none => true
  | .cons e more => e.isSpelled && more.isSpelled

def Expr.isSpelled : Expr → Bool
  | .single i => i.isSpelled
  | .join i e => i.isSpelled && e.isSpelled

end

namespace Scan

/-- A word that is spelled can begin with the character. -/
def isWordStart (c : Char) : Bool := Text.isQuote c || c.isDigit || isNameStart c

/-- No name or number goes on with the characters. -/
def Ends (cs : List Char) : Prop := ∀ c ∈ cs.head?, isNameRest c = false

/-- A word begins with no mark, no white space and no comment. -/
theorem not_mem_of_isWordStart {c : Char} (h : isWordStart c) :
    c ∉ ['&', '(', ')', ',', '=', '!', '<', '>', ' ', '\t', '\n', '\x0c', '\r', ';', '#'] := by
  intro hc
  have hno : ['&', '(', ')', ',', '=', '!', '<', '>', ' ', '\t', '\n', '\x0c', '\r', ';', '#'].all
      fun d => !isWordStart d := by decide
  have := List.all_eq_true.mp hno c hc
  rw [h] at this
  cases this

theorem isBlank_of_isWordStart {c : Char} (h : isWordStart c) : Text.isBlank c = false := by
  have hne := not_mem_of_isWordStart h
  simp only [List.mem_cons, List.not_mem_nil, or_false, not_or] at hne
  simp [Text.isBlank, hne]

theorem marks_of_isWordStart {c : Char} (h : isWordStart c) (cs : List Char) :
    marks (c :: cs) = ([], c :: cs) := by
  have hne := not_mem_of_isWordStart h
  simp only [List.mem_cons, List.not_mem_nil, or_false, not_or] at hne
  rw [marks] <;> simp_all [Text.isBlank]

/-- What follows the closing quote is not looked at. -/
theorem quoted_append_rest {q : Char} (hq : Text.isQuote q) {cs body rest : List Char}
    (h : quoted q cs = some (body, rest)) (more : List Char) :
    quoted q (cs ++ more) = some (body, rest ++ more) := by
  have hne : q ≠ '$' := by
    rintro rfl
    revert hq
    decide
  fun_induction quoted q cs generalizing body rest with
  | case1 => cases h
  | case2 c cs ih =>
    obtain ⟨p, hp, h⟩ := Option.map_eq_some_iff.1 h
    cases h
    simp [quoted, ih hp]
  | case3 => cases h
  | case4 =>
    cases h
    rw [List.cons_append, quoted, if_pos rfl] <;> simp_all
  | case5 c cs hesc hend hc ih =>
    obtain ⟨p, hp, h⟩ := Option.map_eq_some_iff.1 h
    cases h
    have hback : ∀ ds, c = '$' → cs ++ more = '\\' :: ds → False := by
      intro ds hdollar hds
      rcases cs with _ | ⟨d, _ | ⟨d', cs⟩⟩
      · cases hp
      · exact hend hdollar (by rw [(List.cons.inj hds).1])
      · exact hesc d' cs hdollar (by rw [(List.cons.inj hds).1])
    rw [List.cons_append, quoted, if_neg hc, ih hp]
    · rfl
    · exact fun d ds hdollar hds => hback _ hdollar hds
    · exact fun hdollar hds => hback _ hdollar hds

theorem takeWhile_of_ends {p : Char → Bool} (hp : ∀ c, p c → isNameRest c) {cs rest : List Char}
    (hcs : cs.all p) (hr : Ends rest) :
    (cs ++ rest).takeWhile p = cs ∧ (cs ++ rest).dropWhile p = rest := by
  have hrest : rest.takeWhile p = [] ∧ rest.dropWhile p = rest := by
    cases rest with
    | nil => exact ⟨rfl, rfl⟩
    | cons c rest =>
      have hc : ¬p c = true := fun h => Bool.false_ne_true ((hr c rfl).symm.trans (hp c h))
      simp [hc]
  have hall := List.all_eq_true.mp hcs
  rw [List.takeWhile_append_of_pos hall, List.dropWhile_append_of_pos hall, hrest.1, hrest.2]
  exact ⟨List.append_nil _, rfl⟩

theorem toNat_of_isNameStart {c : Char} (h : isNameStart c) : 65 ≤ c.toNat ∧ c.toNat ≤ 122 := by
  rcases Bool.or_eq_true_iff.mp h with ha | hu
  · rcases Bool.or_eq_true_iff.mp ha with hc | hc
    · obtain ⟨h₁, h₂⟩ : c.val ≥ 'A'.val ∧ c.val ≤ 'Z'.val := of_decide_eq_true hc
      exact ⟨h₁, Nat.le_trans h₂ (by decide)⟩
    · obtain ⟨h₁, h₂⟩ := Bool.and_eq_true_iff.mp hc
      exact ⟨Nat.le_trans (by decide) (of_decide_eq_true h₁), of_decide_eq_true h₂⟩
  · rw [of_decide_eq_true hu]
    decide

theorem isDigit_eq_false {c : Char} (h : isNameStart c) : c.isDigit = false := by
  obtain ⟨hl, -⟩ := toNat_of_isNameStart h
  cases hc : c.isDigit with
  | false => rfl
  | true =>
    simp only [Char.isDigit, Bool.and_eq_true, decide_eq_true_eq] at hc
    have hu : c.toNat ≤ 57 := hc.2
    omega

theorem isSpace_eq_false {c : Char} (h : isNameStart c) : Text.isSpace c = false := by
  obtain ⟨hl, hu⟩ := toNat_of_isNameStart h
  simp only [Text.isSpace, Bool.or_eq_false_iff, Bool.and_eq_false_imp, decide_eq_false_iff_not,
    decide_eq_true_eq]
  omega

theorem isQuote_eq_false {c : Char} (h : c.isDigit || isNameStart c) : Text.isQuote c = false := by
  cases hq : Text.isQuote c with
  | false => rfl
  | true =>
    simp only [Text.isQuote, Bool.or_eq_true, decide_eq_true_eq] at hq
    rcases hq with (rfl | rfl) | rfl <;> revert h <;> decide

/-- A word is scanned up to its end. -/
theorem wordFrom_of_isSpelled {w : Word} (h : w.isSpelled) {rest : List Char} (hr : Ends rest) :
    ∃ c cs, w.text.toList = c :: cs ∧ isWordStart c ∧ wordFrom c (cs ++ rest) = .ok (w, rest) := by
  obtain ⟨kind, text⟩ := w
  have htext : ∀ {cs}, text.toList = cs → String.ofList cs = text := by
    rintro _ rfl
    exact String.ofList_toList
  unfold Word.isSpelled at h
  split at h
  · next c cs hk ht =>
    obtain ⟨hc, hcs⟩ := Bool.and_eq_true_iff.mp h
    obtain ⟨htake, hdrop⟩ := takeWhile_of_ends (fun _ => id) hcs hr
    refine ⟨c, cs, ht, by simp [isWordStart, hc], ?_⟩
    simp only at hk
    simp [wordFrom, isQuote_eq_false (c := c) (by simp [hc]), isDigit_eq_false hc, hc, htake, hdrop,
      htext ht, hk]
  · next c cs hk ht =>
    obtain ⟨hc, hcs⟩ := Bool.and_eq_true_iff.mp h
    obtain ⟨htake, hdrop⟩ := takeWhile_of_ends (fun c hc => by simp [isNameRest, hc]) hcs hr
    refine ⟨c, cs, ht, by simp [isWordStart, hc], ?_⟩
    simp only at hk
    simp [wordFrom, isQuote_eq_false (c := c) (by simp [hc]), hc, htake, hdrop, htext ht, hk]
  · next c cs hk ht =>
    simp only [Bool.and_eq_true, decide_eq_true_eq] at h
    obtain ⟨⟨hc, hq⟩, -⟩ := h
    refine ⟨c, cs, ht, by simp [isWordStart, hc], ?_⟩
    simp only at hk
    simp [wordFrom, hc, quoted_append_rest hc hq, htext ht, hk]
  · cases h

theorem token?_of_isSpelled {w : Word} (h : w.isSpelled) {rest : List Char} (hr : Ends rest) :
    token? (w.text.toList ++ rest) =
      .ok (some (⟨w, Tail.ofMarks (marks rest).1⟩, (marks rest).2)) := by
  obtain ⟨c, cs, ht, hc, hw⟩ := wordFrom_of_isSpelled h hr
  have hne := not_mem_of_isWordStart hc
  simp only [List.mem_cons, List.not_mem_nil, or_false, not_or] at hne
  have hcomment : isComment c = false := by simp [isComment, hne]
  simp [ht, token?, isBlank_of_isWordStart hc, hcomment, hw, Except.map]

theorem tokens_of_token? {cs rest : List Char} {t : Token} {ts : List Token}
    (h : token? cs = .ok (some (t, rest))) (hts : tokens rest = .ok ts) : tokens cs = .ok (t :: ts) := by
  rw [tokens]
  split <;> simp_all [Except.map]

end Scan

/-! ## Marks in order -/

namespace Tail

theorem foldl_add_closing (t : Tail) (ms : List Mark) :
    ms.foldl add t.closing = (ms.foldl add t).closing := by
  induction ms generalizing t with
  | nil => rfl
  | cons m ms ih =>
    rw [List.foldl_cons, List.foldl_cons, ← ih]
    cases m <;> rfl

theorem ofMarks_closing (ms : List Mark) : ofMarks (.closing :: ms) = (ofMarks ms).closing :=
  foldl_add_closing {} ms

theorem foldl_add_opens (t : Tail) (ms : List Mark) :
    ms.foldl add { t with opens := true } = { ms.foldl add t with opens := true } := by
  induction ms generalizing t with
  | nil => rfl
  | cons m ms ih =>
    rw [List.foldl_cons, List.foldl_cons, ← ih]
    cases m <;> rfl

/-- The marks of a call without arguments. -/
theorem ofMarks_opening_closing (ms : List Mark) :
    ofMarks (.opening :: .closing :: ms) = .calling .none (ofMarks ms) := by
  show ms.foldl add { closing {} with opens := true } = _
  rw [foldl_add_opens, foldl_add_closing]
  rfl

end Tail

/-! ## Scanning trees -/

section

open Scan

/-- A word ends where the characters begin, and they are scanned to the marks `after` behind it and the
words `more`. -/
def Follows (rest : List Char) (after : Tail) (more : List Token) : Prop :=
  Ends rest ∧ Tail.ofMarks (marks rest).1 = after ∧ Scan.tokens (marks rest).2 = .ok more

variable {rest : List Char} {after : Tail} {more : List Token}

theorem follows_nil : Follows [] {} [] := by
  refine ⟨by simp [Ends], rfl, ?_⟩
  rw [Scan.tokens]
  rfl

theorem Follows.closing (h : Follows rest after more) : Follows (')' :: rest) after.closing more := by
  refine ⟨by simp [Ends, isNameRest], ?_, ?_⟩
  · rw [marks, Tail.ofMarks_closing, h.2.1]
  · rw [marks]
    exact h.2.2

theorem Follows.calling_none (h : Follows rest after more) :
    Follows ('(' :: ')' :: rest) (.calling .none after) more := by
  refine ⟨by simp [Ends, isNameRest], ?_, ?_⟩
  · rw [marks, marks, Tail.ofMarks_opening_closing, h.2.1]
  · rw [marks, marks]
    exact h.2.2

theorem tokens_word {w : Word} (h : w.isSpelled) (hr : Follows rest after more) :
    Scan.tokens (w.text.toList ++ rest) = .ok (⟨w, after⟩ :: more) := by
  have ht := token?_of_isSpelled h hr.1
  rw [hr.2.1] at ht
  exact tokens_of_token? ht hr.2.2

theorem Word.isWordStart {w : Word} (h : w.isSpelled) :
    ∃ c cs, w.text.toList = c :: cs ∧ Scan.isWordStart c := by
  obtain ⟨c, cs, ht, hc, -⟩ := wordFrom_of_isSpelled h follows_nil.1
  exact ⟨c, cs, ht, hc⟩

theorem Item.isWordStart (i : Item) (h : i.isSpelled) :
    ∃ c cs, i.chars = c :: cs ∧ Scan.isWordStart c := by
  cases i with
  | word w =>
    rw [Item.isSpelled] at h
    rw [Item.chars]
    exact Word.isWordStart h
  | call f args =>
    rw [Item.isSpelled, Bool.and_eq_true, Bool.and_eq_true] at h
    obtain ⟨c, cs, ht, hc⟩ := Word.isWordStart h.1.2
    rw [Item.chars, ht]
    exact ⟨c, _, rfl, hc⟩

theorem Expr.marks_chars (e : Expr) (h : e.isSpelled) (rest : List Char) :
    marks (e.chars ++ rest) = ([], e.chars ++ rest) := by
  cases e with
  | single i =>
    rw [Expr.isSpelled] at h
    obtain ⟨c, cs, ht, hc⟩ := i.isWordStart h
    rw [Expr.chars, ht]
    exact marks_of_isWordStart hc _
  | join i e =>
    rw [Expr.isSpelled, Bool.and_eq_true] at h
    obtain ⟨c, cs, ht, hc⟩ := i.isWordStart h.1
    rw [Expr.chars, ht]
    exact marks_of_isWordStart hc _

/-- Behind a mark and perhaps a space comes an expression. -/
theorem Expr.follows_chars {e : Expr} (h : e.isSpelled) {rest : List Char} {ts : List Token}
    (ht : Scan.tokens (e.chars ++ rest) = .ok ts) :
    Follows (' ' :: '&' :: ' ' :: (e.chars ++ rest)) .joining ts ∧
      Follows (',' :: ' ' :: (e.chars ++ rest)) .separating ts ∧
      Follows ('(' :: (e.chars ++ rest)) { opens := true } ts := by
  have hm := e.marks_chars h rest
  refine ⟨⟨?_, ?_, ?_⟩, ⟨?_, ?_, ?_⟩, ⟨?_, ?_, ?_⟩⟩ <;>
    simp [Ends, isNameRest, marks, Text.isBlank, hm, ht] <;> rfl

mutual

/-- The text of an item is scanned to its words, with the marks that follow behind the last. -/
theorem Item.tokens_chars : ∀ (i : Item) {rest : List Char} {after : Tail} {more : List Token},
    i.isSpelled → Follows rest after more →
    Scan.tokens (i.chars ++ rest) = .ok (i.tokens after ++ more)
  | .word w, rest, after, more, h, hr => by
    rw [Item.isSpelled] at h
    rw [Item.chars, Item.tokens]
    exact tokens_word h hr
  | .call f .none, rest, after, more, h, hr => by
    rw [Item.isSpelled, Bool.and_eq_true, Bool.and_eq_true] at h
    rw [Item.chars, Item.tokens, Args.chars, Args.tokens, List.append_assoc]
    exact tokens_word h.1.2 hr.calling_none
  | .call f (.cons e args), rest, after, more, h, hr => by
    rw [Item.isSpelled, Bool.and_eq_true, Bool.and_eq_true] at h
    have he : e.isSpelled := (Bool.and_eq_true_iff.mp (by rw [← Args.isSpelled]; exact h.2)).1
    have ht := (Args.cons e args).tokens_chars h.2 rfl hr.closing
    rw [Args.chars, List.append_assoc, List.append_assoc] at ht
    rw [Item.chars, Item.tokens, Args.chars]
    simp only [List.append_assoc, List.cons_append, List.nil_append]
    exact tokens_word h.1.2 (Expr.follows_chars he ht).2.2

theorem Args.tokens_chars : ∀ (args : Args) {rest : List Char} {after : Tail} {more : List Token},
    args.isSpelled → args.isNone = false → Follows rest after more →
    Scan.tokens (args.chars ++ rest) = .ok (args.tokens after ++ more)
  | .none, _, _, _, _, h, _ => by cases h
  | .cons e .none, rest, after, more, h, _, hr => by
    rw [Args.isSpelled, Bool.and_eq_true] at h
    rw [Args.chars, Args.tokens, Args.chars, Args.tokens]
    simp only [Args.isNone, if_true, List.append_nil]
    exact e.tokens_chars h.1 hr
  | .cons e (.cons e' args), rest, after, more, h, _, hr => by
    rw [Args.isSpelled, Bool.and_eq_true] at h
    have he : e'.isSpelled := (Bool.and_eq_true_iff.mp (by rw [← Args.isSpelled]; exact h.2)).1
    have ht := (Args.cons e' args).tokens_chars h.2 rfl hr
    rw [Args.chars, List.append_assoc, List.append_assoc] at ht
    rw [Args.chars, Args.tokens, Args.chars]
    simp only [show (Args.cons e' args).isNone = false from rfl, Bool.false_eq_true, if_false,
      List.append_assoc, List.cons_append, List.nil_append]
    exact e.tokens_chars h.1 (Expr.follows_chars he ht).2.1

theorem Expr.tokens_chars : ∀ (e : Expr) {rest : List Char} {after : Tail} {more : List Token},
    e.isSpelled → Follows rest after more →
    Scan.tokens (e.chars ++ rest) = .ok (e.tokens after ++ more)
  | .single i, rest, after, more, h, hr => by
    rw [Expr.isSpelled] at h
    rw [Expr.chars, Expr.tokens]
    exact i.tokens_chars h hr
  | .join i e, rest, after, more, h, hr => by
    rw [Expr.isSpelled, Bool.and_eq_true] at h
    rw [Expr.chars, Expr.tokens, List.append_assoc, List.append_assoc]
    exact i.tokens_chars h.1 (Expr.follows_chars h.2 (e.tokens_chars h.2 hr)).1

end

/-! ## Lines -/

theorem getLast?_quoted {q : Char} {cs body rest : List Char} (h : quoted q cs = some (body, rest)) :
    body.getLast? = some q := by
  fun_induction quoted q cs generalizing body rest with
  | case1 => cases h
  | case2 c cs ih =>
    obtain ⟨p, hp, h⟩ := Option.map_eq_some_iff.1 h
    cases h
    simp [List.getLast?_cons, ih hp]
  | case3 => cases h
  | case4 => cases h; rfl
  | case5 c cs _ _ _ ih =>
    obtain ⟨p, hp, h⟩ := Option.map_eq_some_iff.1 h
    cases h
    simp [List.getLast?_cons, ih hp]

/-- A word stays on its line, and does not join the next one to it. -/
theorem Word.chars_of_isSpelled {w : Word} (h : w.isSpelled) :
    '\n' ∉ w.text.toList ∧ ∃ c, w.text.toList.getLast? = some c ∧ c ≠ '\\' := by
  have hrest : ∀ {p : Char → Bool} {c : Char} {cs : List Char}, p '\n' = false → p '\\' = false → p c →
      cs.all p → '\n' ∉ c :: cs ∧ ∃ d, (c :: cs).getLast? = some d ∧ d ≠ '\\' := by
    intro p c cs hn hb hc hcs
    have hall : ∀ d ∈ c :: cs, p d = true := List.forall_mem_cons.mpr ⟨hc, List.all_eq_true.mp hcs⟩
    refine ⟨fun hm => Bool.false_ne_true (hn.symm.trans (hall _ hm)), _, List.getLast?_cons, ?_⟩
    intro hl
    have hm := List.mem_of_getLast? (List.getLast?_cons.trans (congrArg some hl))
    exact Bool.false_ne_true (hb.symm.trans (hall _ hm))
  unfold Word.isSpelled at h
  split at h
  · next c cs _ ht =>
    obtain ⟨hc, hcs⟩ := Bool.and_eq_true_iff.mp h
    rw [ht]
    refine hrest (p := isNameRest) (by decide) (by decide) ?_ hcs
    rcases Bool.or_eq_true_iff.mp hc with hc | hc <;> simp [isNameRest, Char.isAlphanum, hc]
  · next c cs _ ht =>
    obtain ⟨hc, hcs⟩ := Bool.and_eq_true_iff.mp h
    rw [ht]
    exact hrest (p := Char.isAlphanum) (by decide) (by decide) (by simp [Char.isAlphanum, hc]) hcs
  · next c cs _ ht =>
    simp only [Bool.and_eq_true, decide_eq_true_eq] at h
    obtain ⟨⟨hc, hq⟩, hn⟩ := h
    rw [ht]
    have hne : c ≠ '\n' ∧ c ≠ '\\' := by
      constructor <;> rintro rfl <;> revert hc <;> decide
    refine ⟨?_, ?_⟩
    · rw [List.mem_cons, not_or]
      exact ⟨hne.1.symm, by simpa using hn⟩
    · rw [List.getLast?_cons, getLast?_quoted hq]
      exact ⟨c, rfl, hne.2⟩
  · cases h

mutual

theorem Item.newline_not_mem : ∀ i : Item, i.isSpelled → '\n' ∉ i.chars
  | .word w, h => by
    rw [Item.isSpelled] at h
    rw [Item.chars]
    exact (Word.chars_of_isSpelled h).1
  | .call f args, h => by
    rw [Item.isSpelled, Bool.and_eq_true, Bool.and_eq_true] at h
    rw [Item.chars]
    simp [(Word.chars_of_isSpelled h.1.2).1, args.newline_not_mem h.2]

theorem Args.newline_not_mem : ∀ args : Args, args.isSpelled → '\n' ∉ args.chars
  | .none, _ => by simp [Args.chars]
  | .cons e more, h => by
    rw [Args.isSpelled, Bool.and_eq_true] at h
    rw [Args.chars]
    split <;> simp [e.newline_not_mem h.1, more.newline_not_mem h.2]

theorem Expr.newline_not_mem : ∀ e : Expr, e.isSpelled → '\n' ∉ e.chars
  | .single i, h => by
    rw [Expr.isSpelled] at h
    rw [Expr.chars]
    exact i.newline_not_mem h
  | .join i e, h => by
    rw [Expr.isSpelled, Bool.and_eq_true] at h
    rw [Expr.chars]
    simp [i.newline_not_mem h.1, e.newline_not_mem h.2]

end

theorem Item.getLast?_chars (i : Item) (h : i.isSpelled) :
    ∃ c, i.chars.getLast? = some c ∧ c ≠ '\\' := by
  cases i with
  | word w =>
    rw [Item.isSpelled] at h
    rw [Item.chars]
    exact (Word.chars_of_isSpelled h).2
  | call f args =>
    refine ⟨')', ?_, by decide⟩
    simp [Item.chars, List.getLast?_append, List.getLast?_cons]

theorem Expr.getLast?_chars : ∀ e : Expr, e.isSpelled → ∃ c, e.chars.getLast? = some c ∧ c ≠ '\\'
  | .single i, h => by
    rw [Expr.isSpelled] at h
    rw [Expr.chars]
    exact i.getLast?_chars h
  | .join i e, h => by
    rw [Expr.isSpelled, Bool.and_eq_true] at h
    obtain ⟨c, hl, hne⟩ := e.getLast?_chars h.2
    refine ⟨c, ?_, hne⟩
    simp [Expr.chars, List.getLast?_append, List.getLast?_cons, hl]

/-- The statement that assigns an expression. -/
def Expr.assignmentTo (e : Expr) (x : Word) : String :=
  String.ofList (x.text.toList ++ ' ' :: '=' :: ' ' :: e.chars)

theorem Expr.follows_assign {e : Expr} (h : e.isSpelled) :
    Follows (' ' :: '=' :: ' ' :: e.chars) { assigns := true } (e.tokens {}) := by
  have hm := e.marks_chars h []
  have ht := e.tokens_chars h follows_nil
  rw [List.append_nil] at hm
  rw [List.append_nil, List.append_nil] at ht
  refine ⟨by simp [Ends, isNameRest], ?_, ?_⟩ <;> simp [marks, Text.isBlank, hm, ht]
  rfl

theorem statement_assignmentTo {x : Word} {e : Expr} (hs : x.isSpelled) (he : e.isSpelled) :
    Scan.statement (e.assignmentTo x).toList = .ok (⟨x, { assigns := true }⟩ :: e.tokens {}) := by
  obtain ⟨c, cs, ht, hc⟩ := Word.isWordStart hs
  have htokens := tokens_word hs (Expr.follows_assign he)
  have hne := not_mem_of_isWordStart hc
  simp only [List.mem_cons, List.not_mem_nil, or_false, not_or] at hne
  rw [ht] at htokens
  unfold Scan.statement
  rw [Expr.assignmentTo, String.toList_ofList, ht, List.cons_append,
    List.dropWhile_cons_of_neg (by simp [isBlank_of_isWordStart hc])]
  split
  · next h => exact absurd (List.cons.inj h).1 hne.2.2.2.2.2.1
  · exact htokens

theorem Word.isNameStart {x : Word} (hx : x.isName) (hs : x.isSpelled) :
    ∃ c cs, x.text.toList = c :: cs ∧ Scan.isNameStart c := by
  unfold Word.isSpelled at hs
  rw [of_decide_eq_true hx] at hs
  split at hs
  · next c cs _ ht => exact ⟨c, cs, ht, (Bool.and_eq_true_iff.mp hs).1⟩
  · next h _ => cases h
  · next h _ => cases h
  · cases hs

/-- An assignment is one statement, which is its line. -/
theorem statements_assignmentTo {x : Word} {e : Expr} (hx : x.isName) (hs : x.isSpelled)
    (he : e.isSpelled) : statements (e.assignmentTo x) =
      [⟨1, "", e.assignmentTo x, .ok (⟨x, { assigns := true }⟩ :: e.tokens {})⟩] := by
  obtain ⟨c, cs, ht, hc⟩ := Word.isNameStart hx hs
  obtain ⟨d, hlast, hne⟩ := e.getLast?_chars he
  have hchars : (e.assignmentTo x).toList = c :: (cs ++ ' ' :: '=' :: ' ' :: e.chars) := by
    rw [Expr.assignmentTo, String.toList_ofList, ht, List.cons_append]
  have hspace := isSpace_eq_false hc
  have hlines : Text.lines (e.assignmentTo x) = [e.assignmentTo x] := by
    rw [Text.lines, Text.splitLines_of_not_mem, List.map_singleton, String.ofList_toList]
    · rw [Expr.assignmentTo, String.toList_ofList]
      simp [(Word.chars_of_isSpelled hs).1, e.newline_not_mem he]
    · rw [hchars]
      exact List.cons_ne_nil _ _
  have hstart : Draft.start (e.assignmentTo x) = ⟨"", false, e.assignmentTo x⟩ := by
    have hcomment : Draft.opensComment (c :: (cs ++ ' ' :: '=' :: ' ' :: e.chars)) = false := by
      unfold Draft.opensComment
      split
      · next h =>
        rw [(List.cons.inj h).1] at hc
        exact absurd hc (by decide)
      · rfl
    rw [Draft.start, Text.indentation, Text.unindented, hchars,
      List.takeWhile_cons_of_neg (by simp [hspace]), List.dropWhile_cons_of_neg (by simp [hspace]),
      String.toList_ofList, hcomment]
  have hopen : Draft.isOpen ⟨"", false, e.assignmentTo x⟩ = false := by
    have hend : (e.assignmentTo x).toList.getLast? = some d := by
      simp [Expr.assignmentTo, List.getLast?_append, List.getLast?_cons, hlast]
    simp [Draft.isOpen, hend, hne]
  have hfinish : Draft.finish ⟨"", false, e.assignmentTo x⟩ 1 =
      ⟨1, "", e.assignmentTo x, .ok (⟨x, { assigns := true }⟩ :: e.tokens {})⟩ := by
    simp only [Draft.finish, Bool.false_eq_true, if_false, String.length_empty, List.drop_zero,
      statement_assignmentTo hs he]
  rw [statements, hlines, statementsFrom]
  simp only [hstart, hopen, Bool.false_eq_true, if_false, statementsFrom, Nat.zero_add, hfinish,
    Option.map_none, Option.toList_none]

end

end InstallScript
