import Mathlib.Data.List.Infix
import Mathlib.Logic.Function.Iterate
import InstallScript.Proofs.SourceLines

/-!
The lines of a source, statement by statement. `LineGroup` says which lines make one statement and what
its text is: a block comment goes on to the line that closes it and keeps its lines apart, and any
other text takes in a further line as long as a backslash is its last character. Reading a source
statement by statement, also past statements whose words cannot be read, goes through its lines group
by group and then stays at the end (`statements_group_lines`).
-/

namespace InstallScript

open Text

/-! ## Groups of lines -/

/-- The lines of one statement: the first one, and those joined to it. -/
structure LineGroup where
  first : String
  more : List String

namespace LineGroup

def lines (g : LineGroup) : List String := g.first :: g.more

/-- The first line begins a block comment behind its indent. -/
def IsComment (g : LineGroup) : Prop := "/*".toList <+: (unindented g.first).toList

theorem opensComment_iff (cs : List Char) : Draft.opensComment cs = true ↔ "/*".toList <+: cs := by
  unfold Draft.opensComment
  split
  · exact iff_of_true rfl ⟨_, rfl⟩
  · next hne =>
    refine iff_of_false Bool.noConfusion ?_
    rintro ⟨rest, rfl⟩
    exact hne rest rfl

instance (g : LineGroup) : Decidable g.IsComment :=
  decidable_of_iff (Draft.opensComment (unindented g.first).toList = true) (opensComment_iff _)

/-- A line takes the place of the last character of a text, without its own indent. -/
def splice (text line : String) : String := String.ofList text.toList.dropLast ++ unindented line

/-- The text that the lines make together. -/
def text (g : LineGroup) : String :=
  if g.IsComment then joinLines g.lines else g.more.foldl splice g.first

/-- The text is not finished: a comment without its end, or a backslash as the last character. -/
def GoesOn (g : LineGroup) : Prop :=
  if g.IsComment then ¬"*/".toList <:+: g.text.toList else g.text.toList.getLast? = some '\\'

/-- Before each further line the text was not finished. -/
def Joined (g : LineGroup) : Prop :=
  ∀ taken rest, g.more = taken ++ rest → rest ≠ [] → GoesOn ⟨g.first, taken⟩

/-- The group with one more line. -/
def push (g : LineGroup) (line : String) : LineGroup := ⟨g.first, g.more ++ [line]⟩

/-- The statement while its lines are put together. -/
def draft (g : LineGroup) : Draft :=
  ⟨indentation g.first, Draft.opensComment (unindented g.first).toList, g.text⟩

variable {g : LineGroup} {line : String}

theorem first_push : (g.push line).first = g.first := rfl

theorem lines_push : (g.push line).lines = g.lines ++ [line] := rfl

theorem Joined.single (first : String) : Joined ⟨first, []⟩ := fun _ _ h hne =>
  absurd (List.append_eq_nil_iff.mp h.symm).2 hne

theorem Joined.push (h : g.Joined) (ho : g.GoesOn) : (g.push line).Joined := by
  intro taken rest hmore hne
  obtain ⟨rest, last, rfl⟩ := List.eq_nil_or_concat' rest |>.resolve_left hne
  rw [← List.append_assoc] at hmore
  have hinit := (List.append_inj_left' hmore rfl : g.more = taken ++ rest)
  by_cases hrest : rest = []
  · rw [hrest, List.append_nil] at hinit
    rw [← hinit]
    exact ho
  · rw [first_push]
    exact h taken rest hinit hrest

/-! ### Groups and drafts -/

theorem closesComment_iff (cs : List Char) : Draft.closesComment cs = true ↔ "*/".toList <:+: cs := by
  induction cs with
  | nil => exact iff_of_false Bool.false_ne_true (by simp)
  | cons c cs ih =>
    by_cases hends : ∃ ds, c = '*' ∧ cs = '/' :: ds
    · obtain ⟨ds, rfl, rfl⟩ := hends
      exact iff_of_true rfl ⟨[], ds, rfl⟩
    · rw [Draft.closesComment_cons fun ds hc hcs => hends ⟨ds, hc, hcs⟩, ih, List.infix_cons_iff,
        or_iff_right]
      rintro ⟨rest, hrest⟩
      cases hrest
      exact hends ⟨rest, rfl, rfl⟩

theorem text_single (first : String) : text ⟨first, []⟩ = first := by
  unfold text
  split
  · exact String.intercalate_singleton
  · rfl

theorem text_push_of_isComment (hc : g.IsComment) :
    (g.push line).text = g.text ++ newline ++ line := by
  have hjoin : joinLines (g.lines ++ [line]) = joinLines g.lines ++ newline ++ line := by
    have happend := String.intercalate_append_of_ne_nil (l := g.lines) (m := [line]) (s := newline)
      (List.cons_ne_nil _ _) (List.cons_ne_nil _ _)
    rwa [String.intercalate_singleton] at happend
  have hc' : (g.push line).IsComment := hc
  rw [text, if_pos hc', text, if_pos hc, lines_push, hjoin]

theorem text_push (hc : ¬g.IsComment) : (g.push line).text = splice g.text line := by
  have hc' : ¬(g.push line).IsComment := hc
  rw [text, if_neg hc', text, if_neg hc]
  exact List.foldl_append

theorem indent_draft : g.draft.indent = indentation g.first := rfl

theorem text_draft : g.draft.text = g.text := rfl

theorem comment_draft : g.draft.comment = true ↔ g.IsComment := opensComment_iff _

theorem draft_single (first : String) : draft ⟨first, []⟩ = Draft.start first := by
  rw [draft, text_single, Draft.start]

theorem draft_push (g : LineGroup) (line : String) : (g.push line).draft = g.draft.extend line := by
  by_cases hc : g.IsComment
  · have hcomment : g.draft.comment = true := comment_draft.mpr hc
    rw [Draft.extend, if_pos hcomment]
    unfold draft
    rw [first_push, text_push_of_isComment hc]
  · have hcomment : ¬g.draft.comment = true := mt comment_draft.mp hc
    rw [Draft.extend, if_neg hcomment]
    unfold draft
    rw [first_push, text_push hc, splice]

theorem isOpen_draft (g : LineGroup) : g.draft.isOpen = true ↔ g.GoesOn := by
  rw [Draft.isOpen, GoesOn, text_draft]
  by_cases hc : g.IsComment
  · have hcomment : g.draft.comment = true := comment_draft.mpr hc
    rw [if_pos hcomment, if_pos hc, Bool.not_eq_true', ← Bool.not_eq_true, closesComment_iff]
  · have hcomment : ¬g.draft.comment = true := mt comment_draft.mp hc
    rw [if_neg hcomment, if_neg hc]
    exact decide_eq_true_iff

/-! ### The indent of a group -/

/-- No character of an indent is a backslash, so the one that a line replaces stands behind it. -/
theorem indentation_prefix_splice {first text : String}
    (h : (indentation first).toList <+: text.toList) (hlast : text.toList.getLast? = some '\\')
    (line : String) : (indentation first).toList <+: (splice text line).toList := by
  rw [splice, String.toList_append, String.toList_ofList]
  refine List.IsPrefix.trans ?_ (List.prefix_append _ _)
  obtain ⟨rest, hrest⟩ := h
  rw [← hrest] at hlast ⊢
  by_cases hne : rest = []
  · rw [hne, List.append_nil, indentation, String.toList_ofList] at hlast
    have hspace : isSpace '\\' = true :=
      List.all_eq_true.mp List.all_takeWhile _ (List.mem_of_getLast? hlast)
    exact absurd hspace (by decide)
  · rw [List.dropLast_append_of_ne_nil hne]
    exact List.prefix_append _ _

theorem indentation_prefix_text (h : g.Joined) : (indentation g.first).toList <+: g.text.toList := by
  obtain ⟨first, more⟩ := g
  dsimp only
  induction more using List.reverseRecOn with
  | nil =>
    rw [text_single, indentation, String.toList_ofList]
    exact List.takeWhile_prefix _
  | append_singleton more line ih =>
    have hopen : GoesOn ⟨first, more⟩ := h more [line] rfl (List.cons_ne_nil _ _)
    have hjoined : Joined ⟨first, more⟩ := by
      intro taken rest hmore hne
      refine h taken (rest ++ [line]) ?_ (by simp)
      rw [← List.append_assoc]
      exact congrArg (· ++ [line]) hmore
    have hpush : (⟨first, more ++ [line]⟩ : LineGroup) = push ⟨first, more⟩ line := rfl
    rw [hpush]
    by_cases hc : IsComment ⟨first, more⟩
    · rw [text_push_of_isComment hc, String.toList_append, String.toList_append, List.append_assoc]
      exact (ih hjoined).trans (List.prefix_append _ _)
    · rw [GoesOn, if_neg hc] at hopen
      rw [text_push hc]
      exact indentation_prefix_splice (ih hjoined) hopen line

/-- The words of a group are those behind its indent. -/
theorem tokens_finish (h : g.Joined) (n : Nat) : ∃ rest, g.text = indentation g.first ++ rest ∧
    (g.draft.finish n).tokens = if g.IsComment then .ok [] else Scan.statement rest.toList := by
  obtain ⟨rest, hrest⟩ := indentation_prefix_text h
  refine ⟨String.ofList rest, ?_, ?_⟩
  · rw [← String.toList_inj, String.toList_append, String.toList_ofList, hrest]
  · have hdrop : g.text.toList.drop (indentation g.first).length = rest := by
      rw [← hrest, ← String.length_toList, List.drop_left]
    rw [Draft.finish, text_draft, indent_draft, hdrop, String.toList_ofList]
    exact if_congr comment_draft rfl rfl

end LineGroup

/-! ## Groups and statements -/

/-- The statements of groups of lines that follow line `n`. -/
def groupStatements (n : Nat) : List LineGroup → List Statement
  | [] => []
  | g :: gs =>
    g.draft.finish (n + g.lines.length) :: groupStatements (n + g.lines.length) gs

theorem length_groupStatements (n : Nat) (gs : List LineGroup) :
    (groupStatements n gs).length = gs.length := by
  induction gs generalizing n with
  | nil => rfl
  | cons g gs ih => exact congrArg (· + 1) (ih _)

/-- No group is without lines. -/
theorem length_le_length_lines (gs : List LineGroup) :
    gs.length ≤ (gs.flatMap (·.lines)).length := by
  induction gs with
  | nil => exact Nat.le_refl _
  | cons g gs ih =>
    rw [List.flatMap_cons, List.length_append, List.length_cons, Nat.add_comm]
    exact Nat.add_le_add (Nat.le_add_left 1 _) ih

theorem drop_groupStatements (n : Nat) (gs gs' : List LineGroup) :
    (groupStatements n (gs ++ gs')).drop gs.length =
      groupStatements (n + (gs.flatMap (·.lines)).length) gs' := by
  induction gs generalizing n with
  | nil => rfl
  | cons g gs ih =>
    rw [List.flatMap_cons, List.length_append, ← Nat.add_assoc]
    exact ih _

/-- The lines that have been seen of a group. -/
def seenLines (pending : Option LineGroup) : List String := pending.elim [] LineGroup.lines

/-- In such a list every group has the lines it asks for and no others; only the last one can ask for
more than there are. -/
def Grouped (gs : List LineGroup) : Prop :=
  ∀ before g after, gs = before ++ g :: after → g.Joined ∧ (g.GoesOn → after = [])

theorem Grouped.nil : Grouped [] := by
  intro before g after h
  simp at h

theorem Grouped.single {g : LineGroup} (hg : g.Joined) : Grouped [g] := by
  intro before g' after h
  obtain ⟨rfl, rfl, rfl⟩ : before = [] ∧ g' = g ∧ after = [] := by
    cases before with
    | nil =>
      cases h
      exact ⟨rfl, rfl, rfl⟩
    | cons => simp at h
  exact ⟨hg, fun _ => rfl⟩

theorem Grouped.cons {g : LineGroup} {gs : List LineGroup} (hg : g.Joined) (hclosed : ¬g.GoesOn)
    (h : Grouped gs) : Grouped (g :: gs) := by
  intro before g' after he
  cases before with
  | nil =>
    cases he
    exact ⟨hg, fun ho => absurd ho hclosed⟩
  | cons b before =>
    obtain ⟨-, htail⟩ := List.cons.inj he
    exact h before g' after htail

/-- The lines behind an open group, and the statements they make with it. The induction is on the
lines; what has been seen of a group waits in `pending`. -/
theorem exists_groups (n : Nat) (pending : Option LineGroup)
    (hp : ∀ g ∈ pending, g.Joined ∧ g.GoesOn) (ls : List String) :
    ∃ gs, statementsFrom (n + (seenLines pending).length) (pending.map LineGroup.draft) ls =
        groupStatements n gs ∧
      gs.flatMap (·.lines) = seenLines pending ++ ls ∧ Grouped gs := by
  induction ls generalizing n pending with
  | nil =>
    cases pending with
    | none => exact ⟨[], rfl, rfl, .nil⟩
    | some g => exact ⟨[g], rfl, by simp [seenLines], .single (hp g rfl).1⟩
  | cons l ls ih =>
    let g : LineGroup := pending.elim ⟨l, []⟩ (·.push l)
    have hdraft : Draft.next (pending.map LineGroup.draft) l = g.draft := by
      cases pending with
      | none => exact (LineGroup.draft_single l).symm
      | some g' => exact (LineGroup.draft_push g' l).symm
    have hlines : g.lines = seenLines pending ++ [l] := by cases pending <;> rfl
    have hjoined : g.Joined := by
      cases pending with
      | none => exact .single l
      | some g' => exact (hp g' rfl).1.push (hp g' rfl).2
    have hlength : n + (seenLines pending).length + 1 = n + g.lines.length := by
      rw [hlines, List.length_append]
      rfl
    rw [statementsFrom_cons, hdraft, Draft.left?, hlength]
    by_cases ho : g.draft.isOpen = true
    · obtain ⟨gs, hstatements, hflat, hgrouped⟩ := ih n (some g) (by
        rintro _ ⟨⟩
        exact ⟨hjoined, (LineGroup.isOpen_draft g).mp ho⟩)
      refine ⟨gs, ?_, ?_, hgrouped⟩
      · rw [if_pos ho, if_pos ho]
        exact hstatements
      · rw [hflat, show seenLines (some g) = g.lines from rfl, hlines, List.append_assoc]
        rfl
    · obtain ⟨gs, hstatements, hflat, hgrouped⟩ := ih (n + g.lines.length) none (by simp)
      refine ⟨g :: gs, ?_, ?_, hgrouped.cons hjoined (mt (LineGroup.isOpen_draft g).mpr ho)⟩
      · rw [if_neg ho, if_neg ho]
        exact congrArg (g.draft.finish _ :: ·) hstatements
      · rw [List.flatMap_cons, hflat, hlines, List.append_assoc]
        rfl

/-! ## Reading on -/

/-- The reader after a number of calls for the next statement, whatever came of them. -/
def Reader.advanced (r : Reader) (n : Nat) : Reader := (·.nextStatement.2)^[n] r

namespace Reader

variable {r : Reader} {s : Statement} {rest : List Statement}

theorem nextStatement_of_nil (h : r.upcoming = []) : r.nextStatement = (.ok false, r) := by
  rw [nextStatement, h]

theorem nextStatement_of_cons (h : r.upcoming = s :: rest) :
    r.nextStatement.1 = s.tokens.map (fun _ => true) ∧ r.nextStatement.2.upcoming = rest ∧
      r.nextStatement.2.line = s.line ∧ r.nextStatement.2.indent = s.indent ∧
      r.nextStatement.2.text = if s.tokens.isOk then s.text else r.text := by
  obtain ⟨line, indent, text, tokens⟩ := s
  rw [nextStatement, h]
  cases tokens with
  | error f => exact ⟨rfl, rfl, rfl, rfl, rfl⟩
  | ok ts => exact ⟨rfl, rfl, rfl, rfl, rfl⟩

theorem upcoming_advanced (r : Reader) (n : Nat) :
    (r.advanced n).upcoming = r.upcoming.drop n := by
  induction n with
  | zero => rfl
  | succ n ih =>
    have hstep : r.advanced (n + 1) = (r.advanced n).nextStatement.2 :=
      Function.iterate_succ_apply' _ n r
    rw [hstep, ← List.drop_drop, ← ih]
    cases h : (r.advanced n).upcoming with
    | nil => rw [nextStatement_of_nil h, h, List.drop_nil]
    | cons s rest => exact (nextStatement_of_cons h).2.1

end Reader

/-- A source is read group by group. The lines of a source fall into groups, each of which has the
lines it asks for and no others. The calls for the next statement go through them in order: a call has
an answer for its group, a fault where the words of the group cannot be read, and leaves the number of
the group's last line and the indent of its first one, which the text of the group begins with, so that
the words are those of the rest. After as many calls as there are groups, at most as many as there are
lines, every further call only says that the source has ended. -/
theorem statements_group_lines (source name : String) :
    ∃ groups : List LineGroup, groups.flatMap (·.lines) = Text.lines source ∧
      groups.length ≤ (Text.lines source).length ∧
      (∀ before g after, groups = before ++ g :: after →
        g.Joined ∧ (g.GoesOn → after = []) ∧
        let r := (Reader.ofSource source name).advanced before.length
        let r' := (Reader.ofSource source name).advanced (before.length + 1)
        r'.line = ((before ++ [g]).flatMap (·.lines)).length ∧
        r'.indent = indentation g.first ∧
        ∃ rest, g.text = r'.indent ++ rest ∧
          r.nextStatement.1 =
            (if g.IsComment then .ok true else (Scan.statement rest.toList).map fun _ => true) ∧
          r'.text = if r.nextStatement.1.isOk then g.text else r.text) ∧
      ∀ n, groups.length ≤ n → let r := (Reader.ofSource source name).advanced n
        r.nextStatement = (.ok false, r) := by
  obtain ⟨groups, hstatements, hflat, hgrouped⟩ :=
    exists_groups 0 none (by simp) (Text.lines source)
  have hflat : groups.flatMap (·.lines) = Text.lines source := hflat
  have hupcoming : ∀ n, ((Reader.ofSource source name).advanced n).upcoming =
      (groupStatements 0 groups).drop n := by
    intro n
    rw [Reader.upcoming_advanced, ← hstatements]
    rfl
  refine ⟨groups, hflat, ?_, fun before g after hsplit => ?_, fun n hn => ?_⟩
  · rw [← hflat]
    exact length_le_length_lines groups
  · obtain ⟨hjoined, hlast⟩ := hgrouped before g after hsplit
    have hnext := hupcoming before.length
    rw [hsplit, drop_groupStatements] at hnext
    obtain ⟨hanswer, -, hline, hindent, htext⟩ := Reader.nextStatement_of_cons hnext
    have hstep : (Reader.ofSource source name).advanced (before.length + 1) =
        ((Reader.ofSource source name).advanced before.length).nextStatement.2 :=
      Function.iterate_succ_apply' _ _ _
    obtain ⟨rest, hrest, htokens⟩ := LineGroup.tokens_finish hjoined
      (0 + (before.flatMap (·.lines)).length + g.lines.length)
    refine ⟨hjoined, hlast, ?_⟩
    dsimp only
    rw [hstep, hline, hindent, htext, hanswer, htokens]
    refine ⟨?_, rfl, rest, hrest, ?_, ?_⟩
    · rw [List.flatMap_append, List.length_append, List.flatMap_singleton]
      exact congrArg (· + g.lines.length) (Nat.zero_add _)
    · split <;> rfl
    · split
      · rfl
      · cases Scan.statement rest.toList <;> rfl
  · refine Reader.nextStatement_of_nil ?_
    rw [hupcoming, List.drop_eq_nil_iff, length_groupStatements]
    exact hn

end InstallScript
