import Mathlib.Data.List.DropRight
import Mathlib.Data.List.Induction
import InstallScript.Source

/-!
Nothing of a statement is lost when it is cut into words. `Gap` says how white space and marks are
read, each mark as long as it can be, without the scanner; `Tail.Records` says what a tail keeps of
the marks that were read. A statement is its words with the gaps behind them, up to a comment
(`spellsStatement_of_statement`).
-/

namespace InstallScript

/-- How a mark is written. -/
def Mark.text : Mark → String
  | join => "&"
  | opening => "("
  | closing => ")"
  | comma => ","
  | assign => "="
  | relation r => r.text

def Mark.relation? : Mark → Option Relation
  | relation r => some r
  | _ => none

/-- The tail has a flag for each kind of mark that occurs, the number of closing parentheses, and the
last relation. -/
structure Tail.Records (t : Tail) (ms : List Mark) : Prop where
  joins : t.joins ↔ .join ∈ ms
  opens : t.opens ↔ .opening ∈ ms
  closes : t.closes = ms.count .closing
  separates : t.separates ↔ .comma ∈ ms
  assigns : t.assigns ↔ .assign ∈ ms
  relation : t.relation = (ms.filterMap Mark.relation?).getLast?
  command : t.command = false

theorem Tail.records_ofMarks (ms : List Mark) : (Tail.ofMarks ms).Records ms := by
  induction ms using List.reverseRecOn with
  | nil => constructor <;> simp [Tail.ofMarks]
  | append_singleton ms m ih =>
    have hadd : Tail.ofMarks (ms ++ [m]) = (Tail.ofMarks ms).add m := List.foldl_append
    rw [hadd]
    obtain ⟨hj, ho, hc, hs, ha, hr, hx⟩ := ih
    cases m <;> constructor <;> simp [Tail.add, Mark.relation?, List.count_append, hj, ho, hc, hs, ha, hr, hx]

namespace Scan

open Text

/-! ## Gaps -/

/-- White space and marks, and the marks as they are read from left to right: of the marks that stand
at a place the longest one is taken. -/
inductive Gap : List Char → List Mark → Prop
  | nil : Gap [] []
  | blank {c : Char} {cs : List Char} {ms : List Mark} : isBlank c → Gap cs ms → Gap (c :: cs) ms
  | mark {m : Mark} {cs : List Char} {ms : List Mark} :
      (∀ m' : Mark, m'.text.toList <+: m.text.toList ++ cs → m'.text.length ≤ m.text.length) →
      Gap cs ms → Gap (m.text.toList ++ cs) (m :: ms)

/-- All marks there are. -/
def allMarks : List Mark :=
  [.join, .opening, .closing, .comma, .assign, .relation .eq, .relation .ne, .relation .lt,
    .relation .le, .relation .differ, .relation .gt, .relation .ge]

/-- The marks of two characters. -/
def doubles : List (List Char) := [['=', '='], ['!', '='], ['<', '='], ['<', '>'], ['>', '=']]

theorem mem_allMarks (m : Mark) : m ∈ allMarks := by
  cases m with
  | relation r => cases r <;> decide
  | _ => decide

theorem text_inj {m m' : Mark} (h : m.text.toList = m'.text.toList) : m = m' := by
  have hall : ∀ m ∈ allMarks, ∀ m' ∈ allMarks, m.text.toList = m'.text.toList → m = m' := by decide
  exact hall m (mem_allMarks m) m' (mem_allMarks m') h

/-- A mark has one character, or two that make a mark together. -/
theorem text_cases (m : Mark) : m.text.length = 1 ∨ m.text.length = 2 ∧ m.text.toList ∈ doubles := by
  have hall : ∀ m ∈ allMarks, m.text.length = 1 ∨ m.text.length = 2 ∧ m.text.toList ∈ doubles := by
    decide
  exact hall m (mem_allMarks m)

theorem head_text (m : Mark) : ∃ c cs, m.text.toList = c :: cs ∧ isBlank c = false := by
  cases m with
  | relation r => cases r <;> exact ⟨_, _, rfl, rfl⟩
  | _ => exact ⟨_, _, rfl, rfl⟩

theorem Gap.of_cons {c : Char} {cs : List Char} {ms : List Mark} (h : Gap (c :: cs) ms) :
    isBlank c ∧ Gap cs ms ∨ ∃ (m : Mark) (rest : List Char) (ms' : List Mark), isBlank c = false ∧
      c :: cs = m.text.toList ++ rest ∧ ms = m :: ms' ∧
      (∀ m' : Mark, m'.text.toList <+: c :: cs → m'.text.length ≤ m.text.length) ∧ Gap rest ms' := by
  generalize hcs : c :: cs = all at h ⊢
  cases h with
  | nil => cases hcs
  | blank hb h =>
    cases hcs
    exact .inl ⟨hb, h⟩
  | @mark m rest ms hm h =>
    obtain ⟨d, ds, hd, hb⟩ := head_text m
    rw [hd] at hcs
    cases hcs
    exact .inr ⟨m, rest, ms, hb, rfl, rfl, hm, h⟩

/-- A gap can be read in one way only. -/
theorem Gap.unique {cs : List Char} {ms ms' : List Mark} (h : Gap cs ms) (h' : Gap cs ms') :
    ms' = ms := by
  induction h generalizing ms' with
  | nil =>
    generalize hcs : [] = cs at h'
    cases h' with
    | nil => rfl
    | blank => cases hcs
    | @mark m =>
      obtain ⟨c, cs, hm, -⟩ := head_text m
      rw [hm] at hcs
      cases hcs
  | blank hc _ ih =>
    rcases h'.of_cons with ⟨-, h'⟩ | ⟨m, rest, ms, hb, -⟩
    · exact ih h'
    · rw [hc] at hb
      cases hb
  | @mark m cs ms hm _ ih =>
    obtain ⟨c, ds, hd, hb⟩ := head_text m
    have hcons : m.text.toList ++ cs = c :: (ds ++ cs) := by rw [hd]; rfl
    rw [hcons] at h'
    rcases h'.of_cons with ⟨hb', -⟩ | ⟨m', rest, ms₁, -, hall, rfl, hm', h'⟩
    · rw [hb] at hb'
      cases hb'
    · rw [← hcons] at hall hm'
      have hle := hm m' (hall ▸ List.prefix_append _ _)
      have hge := hm' m (List.prefix_append _ _)
      rw [← String.length_toList, ← String.length_toList] at hle hge
      obtain ⟨htext, rfl⟩ := List.append_inj hall (Nat.le_antisymm hge hle)
      rw [text_inj htext, ih h']

/-- A mark of one character is the longest unless the next character goes with it. -/
theorem Gap.single {m : Mark} {c : Char} {cs : List Char} {ms : List Mark} (hm : m.text.toList = [c])
    (hd : ∀ d ds, cs = d :: ds → [c, d] ∉ doubles) (h : Gap cs ms) : Gap (c :: cs) (m :: ms) := by
  have hlongest : ∀ m' : Mark, m'.text.toList <+: m.text.toList ++ cs →
      m'.text.length ≤ m.text.length := by
    intro m' hp
    have hlen : m.text.length = 1 := by rw [← String.length_toList, hm]; rfl
    rcases text_cases m' with h1 | ⟨h2, hmem⟩
    · omega
    · match hab : m'.text.toList with
      | [a, b] =>
        rw [hm, hab] at hp
        obtain ⟨rfl, rest, hrest⟩ := List.cons_prefix_cons.mp hp
        exact absurd (hab ▸ hmem) (hd b rest hrest.symm)
      | [] | [_] | _ :: _ :: _ :: _ => simp [← String.length_toList, hab] at h2
  have hgap := Gap.mark hlongest h
  rw [hm] at hgap
  exact hgap

/-- No mark is longer than two characters. -/
theorem Gap.double {m : Mark} {c d : Char} {cs : List Char} {ms : List Mark}
    (hm : m.text.toList = [c, d]) (h : Gap cs ms) : Gap (c :: d :: cs) (m :: ms) := by
  have hlen : m.text.length = 2 := by rw [← String.length_toList, hm]; rfl
  have hgap := Gap.mark (m := m) (fun m' _ => by have := text_cases m'; omega) h
  rw [hm] at hgap
  exact hgap

theorem gap_marks (cs : List Char) : ∃ gap, cs = gap ++ (marks cs).2 ∧ Gap gap (marks cs).1 := by
  have hsingle : ∀ {m : Mark} {c : Char} {cs rest : List Char} {ms : List Mark},
      m.text.toList = [c] → (∀ d ds, cs = d :: ds → [c, d] ∉ doubles) →
      (∃ gap, cs = gap ++ rest ∧ Gap gap ms) → ∃ gap, c :: cs = gap ++ rest ∧ Gap gap (m :: ms) := by
    rintro m c _ rest ms hm hd ⟨gap, rfl, hgap⟩
    refine ⟨c :: gap, rfl, hgap.single hm fun d ds h => hd d (ds ++ rest) ?_⟩
    rw [h, List.cons_append]
  have hdouble : ∀ {m : Mark} {c d : Char} {cs rest : List Char} {ms : List Mark},
      m.text.toList = [c, d] → (∃ gap, cs = gap ++ rest ∧ Gap gap ms) →
      ∃ gap, c :: d :: cs = gap ++ rest ∧ Gap gap (m :: ms) := by
    rintro m c d _ rest ms hm ⟨gap, rfl, hgap⟩
    exact ⟨c :: d :: gap, rfl, hgap.double hm⟩
  fun_induction marks cs with
  | case1 _ ih | case2 _ ih | case3 _ ih | case4 _ ih => exact hsingle rfl (by simp [doubles]) ih
  | case5 _ ih | case7 _ ih | case8 _ ih | case9 _ ih | case11 _ ih => exact hdouble rfl ih
  | case6 cs hne ih => exact hsingle rfl (by rintro d ds rfl; simpa [doubles] using hne ds) ih
  | case10 cs hne hne' ih =>
    exact hsingle rfl (by rintro d ds rfl hmem; simp_all [doubles]) ih
  | case12 cs hne ih => exact hsingle rfl (by rintro d ds rfl; simpa [doubles] using hne ds) ih
  | case13 c cs _ _ _ _ _ _ _ _ _ _ _ _ hc ih =>
    obtain ⟨gap, hcs, hgap⟩ := ih
    exact ⟨c :: gap, congrArg _ hcs, .blank hc hgap⟩
  | case14 c cs => exact ⟨[], rfl, .nil⟩
  | case15 => exact ⟨[], rfl, .nil⟩

/-- The white space in front of the next word belongs to the gap. -/
theorem dropWhile_marks (cs : List Char) : (marks cs).2.dropWhile isBlank = (marks cs).2 := by
  fun_induction marks cs <;> simp_all

/-! ## Words -/

theorem wordFrom_append {c : Char} {cs rest : List Char} {w : Word}
    (h : wordFrom c cs = .ok (w, rest)) : ∃ body, w.text.toList = c :: body ∧ body ++ rest = cs := by
  unfold wordFrom at h
  split at h
  · split at h
    · cases h
    · next body _ hq =>
      cases h
      exact ⟨body, String.toList_ofList, quoted_append hq⟩
  split at h
  · cases h
    exact ⟨_, String.toList_ofList, List.takeWhile_append_dropWhile⟩
  split at h
  · cases h
    exact ⟨_, String.toList_ofList, List.takeWhile_append_dropWhile⟩
  split at h
  · cases h
    exact ⟨[], String.toList_ofList, rfl⟩
  · cases h
    exact ⟨_, String.toList_ofList, special_append cs⟩

/-- The characters are the words one after the other, each with a gap behind it. The gap is read in
one way only, and the tail of the word records the marks of it. -/
inductive Spells : List Token → List Char → Prop
  | nil : Spells [] []
  | word {t : Token} {gap : List Char} {ms : List Mark} {ts : List Token} {cs : List Char} :
      t.word.text ≠ "" → Gap gap ms → (∀ ms', Gap gap ms' → ms' = ms) → t.tail.Records ms →
      Spells ts cs → Spells (t :: ts) (t.word.text.toList ++ gap ++ cs)

/-- The same of a whole statement, where a leading exclamation mark is a word of its own, with nothing
but white space in its gap. -/
inductive SpellsStatement : List Token → List Char → Prop
  | words {ts : List Token} {cs : List Char} :
      cs.head? ≠ some '!' → Spells ts cs → SpellsStatement ts cs
  | command {gap : List Char} {ts : List Token} {cs : List Char} :
      (∀ c ∈ gap, isBlank c) → Spells ts cs → SpellsStatement (command :: ts) ('!' :: gap ++ cs)

/-- A comment, or nothing. -/
def IsComment (cs : List Char) : Prop := ∀ c ∈ cs.head?, isComment c

/-- A word with its gap, up to where the next word can begin. -/
theorem token?_append {cs rest : List Char} {t : Token} (h : token? cs = .ok (some (t, rest))) :
    t.word.text ≠ "" ∧ rest.dropWhile isBlank = rest ∧ ∃ gap ms, Gap gap ms ∧ t.tail.Records ms ∧
      cs.dropWhile isBlank = t.word.text.toList ++ gap ++ rest := by
  unfold token? at h
  split at h
  · cases h
  · next c r hc =>
    split at h
    · cases h
    · cases hw : wordFrom c r with
      | error f =>
        rw [hw] at h
        cases h
      | ok p =>
        rw [hw] at h
        cases h
        obtain ⟨w, behind⟩ := p
        obtain ⟨body, htext, hbody⟩ := wordFrom_append hw
        obtain ⟨gap, hgap, hmarks⟩ := gap_marks behind
        refine ⟨?_, ?_, gap, _, hmarks, Tail.records_ofMarks _, ?_⟩
        · intro hempty
          rw [show w.text = "" from hempty] at htext
          cases htext
        · exact dropWhile_marks behind
        · rw [hc, ← hbody, htext, List.append_assoc, ← hgap]
          rfl

theorem isComment_of_token? {cs : List Char} (h : token? cs = .ok none) :
    IsComment (cs.dropWhile isBlank) := by
  unfold token? at h
  split at h
  · next hc =>
    rw [hc]
    exact fun c hc => nomatch hc
  · next c r hc =>
    split at h
    · next hcomment =>
      rw [hc]
      rintro _ ⟨⟩
      exact hcomment
    · cases hw : wordFrom c r with
      | error f =>
        rw [hw] at h
        cases h
      | ok p =>
        rw [hw] at h
        cases h

theorem tokens_append {cs : List Char} {ts : List Token} (h : tokens cs = .ok ts) :
    ∃ body rest, cs.dropWhile isBlank = body ++ rest ∧ Spells ts body ∧ IsComment rest := by
  fun_induction tokens cs generalizing ts with
  | case1 => cases h
  | case2 cs hend =>
    cases h
    exact ⟨[], _, rfl, .nil, isComment_of_token? hend⟩
  | case3 cs t behind htoken ih =>
    cases hts : tokens behind with
    | error f =>
      rw [hts] at h
      cases h
    | ok us =>
      rw [hts] at h
      cases h
      obtain ⟨hne, hblank, gap, ms, hgap, hrecords, hcs⟩ := token?_append htoken
      obtain ⟨body, rest, hbehind, hbody, hrest⟩ := ih hts
      refine ⟨t.word.text.toList ++ gap ++ body, rest, ?_, ?_, hrest⟩
      · rw [hcs, ← hblank, hbehind, List.append_assoc _ body]
      · exact .word hne hgap (fun _ => hgap.unique) hrecords hbody

/-- A statement is white space, then its words with a gap behind each, then a comment or nothing. -/
theorem spellsStatement_of_statement {text : String} {ts : List Token}
    (h : statement text.toList = .ok ts) : ∃ lead body rest, text.toList = lead ++ body ++ rest ∧
      (∀ c ∈ lead, isBlank c) ∧ SpellsStatement ts body ∧ IsComment rest := by
  have hblank : ∀ (cs : List Char), ∀ c ∈ cs.takeWhile isBlank, isBlank c :=
    fun cs => List.all_eq_true.mp List.all_takeWhile
  rw [← List.takeWhile_append_dropWhile (p := isBlank) (l := text.toList)]
  unfold statement at h
  split at h
  · next cs hcs =>
    cases hts : tokens cs with
    | error f =>
      rw [hts] at h
      cases h
    | ok us =>
      rw [hts] at h
      cases h
      obtain ⟨body, rest, hbody, hspells, hrest⟩ := tokens_append hts
      refine ⟨text.toList.takeWhile isBlank, '!' :: cs.takeWhile isBlank ++ body, rest, ?_, hblank _, ?_,
        hrest⟩
      · have hgap := List.takeWhile_append_dropWhile (p := isBlank) (l := cs)
        rw [hbody, ← List.append_assoc] at hgap
        rw [hcs, List.append_assoc, List.cons_append, List.cons_append, hgap]
      · exact .command (hblank _) hspells
  · next hne =>
    obtain ⟨body, rest, hbody, hspells, hrest⟩ := tokens_append h
    rw [List.dropWhile_idempotent] at hbody
    refine ⟨text.toList.takeWhile isBlank, body, rest, ?_, hblank _, .words ?_ hspells, hrest⟩
    · rw [List.append_assoc, ← hbody]
    · intro hhead
      obtain ⟨cs, rfl⟩ := List.head?_eq_some_iff.mp hhead
      exact hne _ hbody

end Scan

end InstallScript
