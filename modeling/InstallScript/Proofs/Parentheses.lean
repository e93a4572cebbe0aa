import Mathlib.Data.List.Induction
import InstallScript.Proofs.Lossless
import InstallScript.Proofs.Unread

/-!
Parentheses in the text of a statement. At the end of a statement nobody looks at the closing ones that
are left over, and of several that are opened behind one word only one counts, so parentheses need not
match. In a call, an assignment or the header of a function they match exactly if as many are opened as
closed and none that follows a closing one in the same gap comes too late (`matched_iff_count`). No call is
accepted with too few closing ones.
-/

namespace InstallScript

def Mark.isParenthesis : Mark → Bool
  | opening | closing => true
  | _ => false

/-- An opening parenthesis stands before all others behind the word. Of such marks the record says all
that counts. -/
def Mark.Orderly (ms : List Mark) : Prop := .opening ∉ (ms.filter isParenthesis).tail

instance : DecidablePred Mark.Orderly := fun ms =>
  inferInstanceAs (Decidable (.opening ∉ (ms.filter Mark.isParenthesis).tail))

/-! ## Gaps -/

namespace Mark

variable {n : Nat} {ms : List Mark} {mss : List (List Mark)}

/-- Parentheses that go wrong nowhere in front of an opening one, and are not too many closing ones, do not
go wrong at all. -/
theorem isSome_depth?_of_count (h : ∀ front back, ms = front ++ .opening :: back → (depth? n front).isSome)
    (hcount : ms.count .closing ≤ n + ms.count .opening) : (depth? n ms).isSome := by
  induction ms using List.reverseRecOn with
  | nil => rfl
  | append_singleton ms m ih =>
    have hfront : ∀ front back, ms = front ++ .opening :: back → (depth? n front).isSome :=
      fun front back he => h front (back ++ [m]) (by rw [he]; simp)
    rw [depth?_append]
    cases m with
    | opening =>
      obtain ⟨i, hi⟩ := Option.isSome_iff_exists.mp (h ms [] rfl)
      rw [hi]
      rfl
    | closing =>
      simp only [List.count_append, List.count_singleton_self, List.count_singleton, beq_iff_eq,
        reduceCtorEq, if_false] at hcount
      obtain ⟨i, hi⟩ := Option.isSome_iff_exists.mp (ih hfront (by omega))
      have hi' := count_of_depth? hi
      obtain ⟨j, rfl⟩ := Nat.exists_eq_add_one.mpr (show 0 < i by omega)
      rw [hi]
      rfl
    | join | comma | assign | relation =>
      simp only [List.count_append, List.count_singleton, beq_iff_eq, reduceCtorEq, if_false,
        Nat.add_zero] at hcount
      obtain ⟨i, hi⟩ := Option.isSome_iff_exists.mp (ih hfront hcount)
      rw [hi]
      rfl

/-- Where an opening parenthesis stands behind a closing one in the same gap, none has been closed before
that was not open. -/
def Timely (mss : List (List Mark)) : Prop :=
  ∀ before front back behind, mss = before ++ (front ++ .opening :: back) :: behind → .closing ∈ front →
    (depth? 0 (before.flatten ++ front)).isSome

/-- In front of a gap with an opening parenthesis no more are closed than opened. -/
def Covered (mss : List (List Mark)) : Prop :=
  ∀ before gap behind, mss = before ++ gap :: behind → .opening ∈ gap →
    before.flatten.count .closing ≤ before.flatten.count .opening

theorem Covered.cons {gap : List Mark} (h : Covered mss) (hgap : gap.count .closing ≤ gap.count .opening) :
    Covered (gap :: mss) := by
  intro before gap' behind hsplit hopening
  cases before with
  | nil => exact Nat.le_refl _
  | cons _ before =>
    obtain ⟨rfl, hmore⟩ := List.cons.inj hsplit
    have hle := h before gap' behind hmore hopening
    rw [List.flatten_cons, List.count_append, List.count_append]
    exact Nat.add_le_add hgap hle

theorem covered_of_dropLast (h : ∀ ms ∈ mss.dropLast, .closing ∉ ms) : Covered mss := by
  rintro before gap behind rfl -
  have hzero : before.flatten.count .closing = 0 := by
    refine List.count_eq_zero.mpr fun hmem => ?_
    obtain ⟨ms, hms, hclosing⟩ := List.mem_flatten.mp hmem
    refine h ms ?_ hclosing
    rw [List.dropLast_append_cons]
    exact List.mem_append_left _ hms
  rw [hzero]
  exact Nat.zero_le _

theorem countP_opening_le (mss : List (List Mark)) :
    mss.countP (.opening ∈ ·) ≤ mss.flatten.count .opening := by
  induction mss with
  | nil => exact Nat.le_refl 0
  | cons ms mss ih =>
    rw [List.countP_cons, List.flatten_cons, List.count_append, Nat.add_comm]
    refine Nat.add_le_add ?_ ih
    split
    · next h => exact List.count_pos_iff.mpr (of_decide_eq_true h)
    · exact Nat.zero_le _

theorem timely_of_forall
    (h : ∀ ms ∈ mss, ∀ front back, ms = front ++ .opening :: back → .closing ∉ front) : Timely mss := by
  rintro before front back behind rfl hclosing
  exact absurd hclosing (h _ (List.mem_append_right _ List.mem_cons_self) front back rfl)

namespace Orderly

theorem not_mem {front back : List Mark} (h : Orderly (front ++ .opening :: back)) :
    .closing ∉ front ∧ .opening ∉ front ∧ .opening ∉ back := by
  have hfilter : (front ++ .opening :: back).filter isParenthesis =
      front.filter isParenthesis ++ .opening :: back.filter isParenthesis := by
    rw [List.filter_append, List.filter_cons_of_pos rfl]
  rw [Orderly, hfilter] at h
  cases hfront : front.filter isParenthesis with
  | nil =>
    rw [hfront] at h
    have hnone := List.filter_eq_nil_iff.mp hfront
    exact ⟨fun hm => hnone _ hm rfl, fun hm => hnone _ hm rfl, fun hm => h (List.mem_filter.mpr ⟨hm, rfl⟩)⟩
  | cons p ps =>
    rw [hfront] at h
    exact absurd (List.mem_append_right ps List.mem_cons_self) h

theorem count_opening (h : Orderly ms) : ms.count .opening = if .opening ∈ ms then 1 else 0 := by
  split
  · next hmem =>
    obtain ⟨front, back, rfl⟩ := List.append_of_mem hmem
    obtain ⟨-, hfront, hback⟩ := h.not_mem
    rw [List.count_append, List.count_cons_self, List.count_eq_zero.mpr hfront, List.count_eq_zero.mpr hback]
  · next hmem => exact List.count_eq_zero.mpr hmem

theorem countP_opening (h : ∀ ms ∈ mss, Orderly ms) :
    mss.countP (.opening ∈ ·) = mss.flatten.count .opening := by
  induction mss with
  | nil => rfl
  | cons ms mss ih =>
    obtain ⟨hms, hmss⟩ := List.forall_mem_cons.mp h
    rw [List.countP_cons, List.flatten_cons, List.count_append, ih hmss, hms.count_opening, Nat.add_comm]
    simp only [decide_eq_true_eq]

theorem timely (h : ∀ ms ∈ mss, Orderly ms) : Timely mss := by
  refine timely_of_forall fun ms hms front back he => ?_
  have horderly := h ms hms
  rw [he] at horderly
  exact horderly.not_mem.1

end Orderly

theorem isSome_depth?_flatten (ht : Timely mss) (hc : Covered mss) {before behind : List (List Mark)}
    (hsplit : mss = before ++ behind)
    (hcount : before.flatten.count .closing ≤ before.flatten.count .opening) :
    (depth? 0 before.flatten).isSome := by
  induction before using List.reverseRecOn generalizing behind with
  | nil => rfl
  | append_singleton before gap ih =>
    rw [List.append_assoc, List.singleton_append] at hsplit
    rw [List.flatten_append, List.flatten_singleton, List.count_append, List.count_append] at hcount
    have hbefore : before.flatten.count .closing ≤ before.flatten.count .opening := by
      by_cases hgap : .opening ∈ gap
      · exact hc _ _ _ hsplit hgap
      · rw [List.count_eq_zero.mpr hgap] at hcount
        omega
    obtain ⟨i, hi⟩ := Option.isSome_iff_exists.mp (ih hsplit hbefore)
    have hi' := count_of_depth? hi
    rw [List.flatten_append, List.flatten_singleton, depth?_append, hi]
    refine isSome_depth?_of_count (fun front back hgap => ?_) (by omega)
    by_cases hclosing : .closing ∈ front
    · have hfront := ht before front back behind (by rw [← hgap]; exact hsplit) hclosing
      rwa [depth?_append, hi] at hfront
    · rw [depth?_of_not_mem hclosing]
      rfl

/-- Then as many closing as opening parentheses match. -/
theorem matched_of_timely (hc : Covered mss) (ht : Timely mss)
    (hcount : mss.flatten.count .opening = mss.flatten.count .closing) : Matched mss.flatten := by
  obtain ⟨i, hi⟩ := Option.isSome_iff_exists.mp
    (isSome_depth?_flatten ht hc (List.append_nil mss).symm (Nat.le_of_eq hcount.symm))
  have hi' := count_of_depth? hi
  obtain rfl : i = 0 := by omega
  exact hi

/-- Parentheses that match go wrong nowhere. -/
theorem Matched.isSome_depth? {back : List Mark} (h : Matched (ms ++ back)) : (Mark.depth? 0 ms).isSome := by
  rw [Matched, depth?_append] at h
  obtain ⟨i, hi, -⟩ := Option.bind_eq_some_iff.mp h
  exact Option.isSome_of_eq_some hi

theorem Matched.timely (h : Matched mss.flatten) : Timely mss := by
  rintro before front back behind rfl -
  rw [List.flatten_append, List.flatten_cons, List.append_assoc, ← List.append_assoc] at h
  exact h.isSome_depth?

theorem count_closing_le (h : (depth? 0 ms).isSome) : ms.count .closing ≤ ms.count .opening := by
  obtain ⟨i, hi⟩ := Option.isSome_iff_exists.mp h
  have hcount := count_of_depth? hi
  omega

end Mark

/-! ## The marks of a text -/

namespace Scan

/-- The words one after the other with a gap behind each, and the marks in the gaps. -/
inductive Punctuated : List Token → List Char → List (List Mark) → Prop
  | nil : Punctuated [] [] []
  | word {t : Token} {gap : List Char} {ms : List Mark} {ts : List Token} {cs : List Char}
      {mss : List (List Mark)} :
      Gap gap ms → t.tail.Records ms → Punctuated ts cs mss →
      Punctuated (t :: ts) (t.word.text.toList ++ gap ++ cs) (ms :: mss)

theorem Gap.of_marks {cs : List Char} {ms : List Mark} (h : marks cs = (ms, [])) : Gap cs ms := by
  obtain ⟨gap, hcs, hgap⟩ := gap_marks cs
  rw [h, List.append_nil] at hcs
  rw [h, ← hcs] at hgap
  exact hgap

theorem Punctuated.records {t : Token} {ts : List Token} {cs : List Char} {ms : List Mark}
    {mss : List (List Mark)} (h : Punctuated (t :: ts) cs (ms :: mss)) : t.tail.Records ms := by
  cases h with
  | word _ hrecords _ => exact hrecords

theorem Spells.punctuated {ts : List Token} {cs : List Char} (h : Spells ts cs) :
    ∃ mss, Punctuated ts cs mss := by
  induction h with
  | nil => exact ⟨[], .nil⟩
  | word _ hgap _ hrecords _ ih =>
    obtain ⟨mss, hmss⟩ := ih
    exact ⟨_, .word hgap hrecords hmss⟩

/-- The record counts all closing parentheses, and the gaps with an opening one. -/
theorem Punctuated.counts {ts : List Token} {cs : List Char} {mss : List (List Mark)}
    (h : Punctuated ts cs mss) :
    (ts.flatMap (·.tail.parentheses)).count .closing = mss.flatten.count .closing ∧
      (ts.flatMap (·.tail.parentheses)).count .opening = mss.countP (.opening ∈ ·) := by
  induction h with
  | nil => exact ⟨rfl, rfl⟩
  | @word t gap ms ts cs mss _ hrecords _ ih =>
    rw [List.flatMap_cons, List.count_append, List.count_append, t.tail.count_opening_parentheses,
      t.tail.count_closing_parentheses, ih.1, ih.2, hrecords.closes, List.flatten_cons, List.count_append,
      List.countP_cons]
    refine ⟨rfl, ?_⟩
    simp only [hrecords.opens, decide_eq_true_eq]
    exact Nat.add_comm _ _

/-- The words in front of a gap, and those behind. -/
theorem Punctuated.split {ts : List Token} {cs : List Char} {before behind : List (List Mark)}
    (h : Punctuated ts cs (before ++ behind)) : ∃ ts₁ ts₂ cs₁ cs₂, ts = ts₁ ++ ts₂ ∧
      Punctuated ts₁ cs₁ before ∧ Punctuated ts₂ cs₂ behind := by
  induction before generalizing ts cs with
  | nil => exact ⟨[], ts, [], cs, rfl, .nil, h⟩
  | cons ms before ih =>
    cases h with
    | word hgap hrecords hmore =>
      obtain ⟨ts₁, ts₂, cs₁, cs₂, rfl, h₁, h₂⟩ := ih hmore
      exact ⟨_, ts₂, _, cs₂, rfl, .word hgap hrecords h₁, h₂⟩

/-- Where the record ends in closing parentheses and is matched up to them, no gap is opened too late. -/
theorem Punctuated.covered {ts : List Token} {cs : List Char} {mss : List (List Mark)}
    (h : Punctuated ts cs mss) {ms : List Mark} {k : Nat} (hms : Mark.Matched ms)
    (hts : ts.flatMap (·.tail.parentheses) = ms ++ List.replicate k .closing) : Mark.Covered mss := by
  rintro before gap behind rfl hopening
  obtain ⟨ts₁, ts₂, cs₁, cs₂, rfl, h₁, h₂⟩ := h.split
  have hprefix : ts₁.flatMap (·.tail.parentheses) <+: ms := by
    cases h₂ with
    | @word t _ _ ts₂ _ _ _ hrecords _ =>
      rw [List.flatMap_append, List.flatMap_cons, Tail.parentheses, if_pos (hrecords.opens.mpr hopening),
        List.singleton_append, List.cons_append] at hts
      rcases List.append_eq_append_iff.mp hts with ⟨as, rfl, -⟩ | ⟨as, -, hclosings⟩
      · exact List.prefix_append _ as
      · have hmem : Mark.opening ∈ List.replicate k Mark.closing := by
          rw [hclosings]
          exact List.mem_append_right _ List.mem_cons_self
        cases List.eq_of_mem_replicate hmem
  obtain ⟨as, rfl⟩ := hprefix
  have hcount := Mark.count_closing_le hms.isSome_depth?
  rw [h₁.counts.1, h₁.counts.2] at hcount
  exact Nat.le_trans hcount (Mark.countP_opening_le before)

/-- The text of a statement that is no command is white space, words with gaps, and a comment. -/
theorem exists_punctuated {text : String} {t : Token} {rest : List Token}
    (h : statement text.toList = .ok (t :: rest)) (ht : t ≠ command) :
    ∃ lead body comment mss, text.toList = lead ++ body ++ comment ∧ (∀ c ∈ lead, Text.isBlank c) ∧
      IsComment comment ∧ Punctuated (t :: rest) body mss := by
  unfold statement at h
  split at h
  · next cs _ =>
    cases hts : tokens cs with
    | error f =>
      rw [hts] at h
      cases h
    | ok us =>
      rw [hts] at h
      cases h
      exact absurd rfl ht
  · obtain ⟨body, comment, hbody, hspells, hcomment⟩ := tokens_append h
    obtain ⟨mss, hmss⟩ := hspells.punctuated
    refine ⟨text.toList.takeWhile Text.isBlank, body, comment, mss, ?_, ?_, hcomment, hmss⟩
    · rw [List.append_assoc, ← hbody, List.dropWhile_idempotent, List.takeWhile_append_dropWhile]
    · exact List.all_eq_true.mp List.all_takeWhile

theorem Punctuated.getLast? {ts : List Token} {cs : List Char} {mss : List (List Mark)}
    (h : Punctuated ts cs mss) {t : Token} (ht : ts.getLast? = some t) :
    ∃ ms, mss.getLast? = some ms ∧ t.tail.Records ms := by
  induction h with
  | nil => cases ht
  | @word u gap ms ts cs mss _ hrecords hmore ih =>
    cases hmore with
    | nil =>
      cases ht
      exact ⟨ms, rfl, hrecords⟩
    | word hgap hrecords hmore =>
      rw [List.getLast?_cons_cons] at ht ⊢
      exact ih ht

end Scan

/-- Only a word with no marks behind it has a record with nothing in it. -/
theorem Tail.Records.eq_nil {ms : List Mark} (h : ({} : Tail).Records ms) : ms = [] := by
  refine List.eq_nil_iff_forall_not_mem.mpr fun m hm => ?_
  cases m with
  | join => exact absurd (h.joins.mpr hm) (by decide)
  | opening => exact absurd (h.opens.mpr hm) (by decide)
  | closing => exact absurd (List.count_pos_iff.mpr hm) (by rw [← h.closes]; decide)
  | comma => exact absurd (h.separates.mpr hm) (by decide)
  | assign => exact absurd (h.assigns.mpr hm) (by decide)
  | relation r =>
    have hmem : r ∈ ms.filterMap Mark.relation? := List.mem_filterMap.mpr ⟨_, hm, rfl⟩
    rw [List.getLast?_eq_none_iff.mp h.relation.symm] at hmem
    cases hmem

/-- What stands behind the last word of a header. -/
theorem Scan.Punctuated.headerEnds {t : Token} {rest : List Token} {cs : List Char}
    {first : List Mark} {more : List (List Mark)} (h : Punctuated (t :: rest) cs (first :: more))
    (he : Compile.HeaderEnds rest) :
    more = [[]] ∨ ∃ ms, more.getLast? = some ms ∧ .closing ∈ ms := by
  cases h with
  | word _ _ hmore =>
    obtain ⟨u, hu, hclosing | ⟨rfl, hempty⟩⟩ := he
    · obtain ⟨ms, hms, hrecords⟩ := hmore.getLast? hu
      refine .inr ⟨ms, hms, List.count_pos_iff.mp ?_⟩
      rw [← hrecords.closes]
      exact of_decide_eq_true hclosing
    · cases hmore with
      | word _ hrecords hnil =>
        cases hnil
        rw [hempty] at hrecords
        rw [hrecords.eq_nil]
        exact .inl rfl

/-! ## Statements -/

/-- The word begins a call that is a statement. -/
def Token.isCall (t : Token) : Bool := !t.tail.assigns && t.tail.opens

/-- The word begins the header of a function. -/
def Token.isHeader (t : Token) : Bool := t.isPlain && t.word.name = "function"

namespace Compiler

variable {c : Compiler} {t : Token} {rest : List Token} {ls : List Line}

/-- The parentheses of a call match up to those that are closed at the end. -/
theorem parentheses_of_isCall (h : (c.compile (t :: rest)).result = .ok (.lines ls)) (ht : t.isCall) :
    ∃ ms k, Mark.Matched ms ∧
      (t :: rest).flatMap (·.tail.parentheses) = ms ++ List.replicate k .closing := by
  obtain ⟨hassigns, hopens⟩ := Bool.and_eq_true_iff.mp ht
  obtain ⟨w', he, -⟩ := Compile.exec_dispatch_of_compile h
  rw [Compile.dispatch, if_neg (by simpa using hassigns), if_pos hopens] at he
  obtain ⟨-, hreads, hends⟩ := Compile.gives_written (Compile.reads_call t.word _ hopens) _ _ he
  obtain ⟨ms, hms, htakes⟩ := hreads.takes
  refine ⟨ms, w'.cursor.tail.closes, hms, ?_⟩
  rw [← Compile.unread_of_ends hends, ← htakes, List.flatMap_cons, Tail.parentheses, List.append_assoc]
  rfl

/-- The same of the value of an assignment. -/
theorem parentheses_of_assigns (h : (c.compile (t :: rest)).result = .ok (.lines ls))
    (ht : t.tail.assigns) : ∃ ms k, Mark.Matched ms ∧
      rest.flatMap (·.tail.parentheses) = ms ++ List.replicate k .closing := by
  obtain ⟨w', he, -⟩ := Compile.exec_dispatch_of_compile h
  rw [Compile.dispatch, if_pos ht] at he
  obtain ⟨-, word, first, hn, hreads, hends⟩ :=
    Compile.gives_written (Compile.reads_assignment t.word _) _ _ he
  obtain ⟨ms, hms, htakes⟩ := hreads.takes
  refine ⟨ms, w'.cursor.tail.closes, hms, ?_⟩
  have hrest : rest = ⟨word, first.tail⟩ :: first.ahead := Compile.ahead_of_next? hn
  rw [← Compile.unread_of_ends hends, ← htakes, hrest, List.flatMap_cons, Tail.parentheses,
    List.append_assoc]
  rfl

theorem headerEnds_of_isHeader (h : (c.compile (t :: rest)).result = .ok (.lines ls))
    (ht : t.isHeader) : Compile.HeaderEnds rest := by
  obtain ⟨hplain, hname⟩ := Bool.and_eq_true_iff.mp ht
  simp only [Token.isPlain, Bool.and_eq_true, Bool.not_eq_true'] at hplain
  obtain ⟨w', he, -⟩ := Compile.exec_dispatch_of_compile h
  rw [Compile.dispatch, hplain.1.1, hplain.1.2, hplain.2, of_decide_eq_true hname] at he
  exact (Compile.gives_written (Compile.gives_functionBegin_headerEnds _) _ _ he).2

/-- The value of an assignment has no closing parenthesis missing. -/
theorem count_opening_le_of_assigns (h : (c.compile (t :: rest)).result = .ok (.lines ls))
    (ht : t.tail.assigns) : (rest.flatMap (·.tail.parentheses)).count .opening ≤
      (rest.flatMap (·.tail.parentheses)).count .closing := by
  obtain ⟨ms, k, hms, hrest⟩ := parentheses_of_assigns h ht
  have hcount := Mark.count_of_depth? hms
  simp only [hrest, List.count_append, List.count_replicate, reduceCtorEq, beq_iff_eq, if_false]
  omega

/-- No closing parenthesis is missing, unless for one behind the variable of an assignment. -/
theorem count_opening_le (h : (c.compile (t :: rest)).result = .ok (.lines ls))
    (ht : t.isCall ∨ t.tail.assigns ∧ t.tail.opens = false) :
    ((t :: rest).flatMap (·.tail.parentheses)).count .opening ≤
      ((t :: rest).flatMap (·.tail.parentheses)).count .closing := by
  rcases ht with ht | ⟨ht, hopens⟩
  · obtain ⟨ms, k, hms, hall⟩ := parentheses_of_isCall h ht
    have hcount := Mark.count_of_depth? hms
    simp only [hall, List.count_append, List.count_replicate, reduceCtorEq, beq_iff_eq, if_false]
    omega
  · have hle := count_opening_le_of_assigns h ht
    rw [List.flatMap_cons, List.count_append, List.count_append, t.tail.count_opening_parentheses, hopens]
    exact Nat.add_le_add (Nat.zero_le _) hle

end Compiler

/-- In a call every gap with an opening parenthesis comes in time, as does every header without closing ones
but at its end, and an assignment that closes no more than it opens behind the variable. -/
theorem Scan.Punctuated.covered_of_compile {c : Compiler} {t : Token} {rest : List Token} {ls : List Line}
    (h : (c.compile (t :: rest)).result = .ok (.lines ls)) (hkind : t.isCall ∨ t.tail.assigns ∨ t.isHeader)
    {body : List Char} {first : List Mark} {more : List (List Mark)}
    (hmarks : Punctuated (t :: rest) body (first :: more))
    (hheader : t.isHeader → ∀ ms ∈ (first :: more).dropLast, .closing ∉ ms)
    (hassigns : t.tail.assigns → first.count .closing ≤ first.count .opening) :
    Mark.Covered (first :: more) := by
  rcases hkind with ht | ht | ht
  · obtain ⟨ms, k, hms, hall⟩ := c.parentheses_of_isCall h ht
    exact hmarks.covered hms hall
  · obtain ⟨ms, k, hms, hrest⟩ := c.parentheses_of_assigns h ht
    cases hmarks with
    | word _ _ hmore => exact (hmore.covered hms hrest).cons (hassigns ht)
  · exact Mark.covered_of_dropLast (hheader ht)

/-- What an orderly assignment closes too early behind the variable is closed too often. -/
theorem Scan.Punctuated.count_first {c : Compiler} {t : Token} {rest : List Token} {ls : List Line}
    (h : (c.compile (t :: rest)).result = .ok (.lines ls)) (ht : t.tail.assigns) {body : List Char}
    {first : List Mark} {more : List (List Mark)} (hmarks : Punctuated (t :: rest) body (first :: more))
    (horderly : ∀ ms ∈ more, Mark.Orderly ms)
    (hcount : (first :: more).flatten.count .opening = (first :: more).flatten.count .closing) :
    first.count .closing ≤ first.count .opening := by
  cases hmarks with
  | word _ _ hmore =>
    have hle := c.count_opening_le_of_assigns h ht
    rw [hmore.counts.1, hmore.counts.2, Mark.Orderly.countP_opening horderly] at hle
    rw [List.flatten_cons, List.count_append, List.count_append] at hcount
    omega

/-- The text of a statement that is accepted as a call, an assignment or the header of a function has
matching parentheses exactly if as many are opened as closed, those that stand behind a closing one in the
same gap are opened in time, and an assignment closes no more than it opens behind the variable; a header
has no closing ones but at its end. The count alone decides where no opening parenthesis stands behind
another one. A call has no fewer closing parentheses than gaps with opening ones, nor has an assignment with
none behind the variable, and a header ends with a closing one or with the name. -/
theorem matched_iff_count (c : Compiler) {text : String} {t : Token} {rest : List Token} {ls : List Line}
    (hscan : Scan.statement text.toList = .ok (t :: rest))
    (hlines : (c.compile (t :: rest)).result = .ok (.lines ls))
    (hkind : t.isCall ∨ t.tail.assigns ∨ t.isHeader) :
    (∃ lead body comment mss, text.toList = lead ++ body ++ comment ∧ (∀ c ∈ lead, Text.isBlank c) ∧
      Scan.IsComment comment ∧ Scan.Punctuated (t :: rest) body mss) ∧
    ∀ body first more, Scan.Punctuated (t :: rest) body (first :: more) →
      let marks := (first :: more).flatten
      (t.isHeader → more = [[]] ∨ ∃ ms, more.getLast? = some ms ∧ .closing ∈ ms) ∧
      (t.isCall ∨ t.tail.assigns ∧ .opening ∉ first →
        (first :: more).countP (.opening ∈ ·) ≤ marks.count .closing) ∧
      ((t.isHeader → ∀ ms ∈ (first :: more).dropLast, .closing ∉ ms) →
        (Mark.Matched marks ↔ marks.count .opening = marks.count .closing ∧ Mark.Timely (first :: more) ∧
          (t.tail.assigns → first.count .closing ≤ first.count .opening))) ∧
      ((∀ ms ∈ first :: more, Mark.Orderly ms) →
        (t.isCall ∨ t.tail.assigns ∧ .opening ∉ first →
          marks.count .opening ≤ marks.count .closing) ∧
        ((t.isHeader → ∀ ms ∈ (first :: more).dropLast, .closing ∉ ms) →
          (Mark.Matched marks ↔ marks.count .opening = marks.count .closing))) := by
  have hcommand : t ≠ Scan.command := by
    rintro rfl
    exact absurd hkind (by decide)
  refine ⟨Scan.exists_punctuated hscan hcommand, fun body first more hmarks => ?_⟩
  intro marks
  have henough : t.isCall ∨ t.tail.assigns ∧ .opening ∉ first →
      (first :: more).countP (.opening ∈ ·) ≤ marks.count .closing := by
    intro ht
    have hopens : .opening ∉ first → t.tail.opens = false := fun ho =>
      Bool.eq_false_iff.mpr (mt hmarks.records.opens.mp ho)
    have hle := c.count_opening_le hlines (ht.imp_right fun h => ⟨h.1, hopens h.2⟩)
    rwa [hmarks.counts.1, hmarks.counts.2] at hle
  have hmatched : (t.isHeader → ∀ ms ∈ (first :: more).dropLast, .closing ∉ ms) →
      (Mark.Matched marks ↔ marks.count .opening = marks.count .closing ∧ Mark.Timely (first :: more) ∧
        (t.tail.assigns → first.count .closing ≤ first.count .opening)) := by
    intro hheader
    constructor
    · intro h
      have hcount := Mark.count_of_depth? h
      exact ⟨by omega, h.timely, fun _ => Mark.count_closing_le (Mark.Matched.isSome_depth? h)⟩
    · rintro ⟨hcount, htimely, hassigns⟩
      exact Mark.matched_of_timely (hmarks.covered_of_compile hlines hkind hheader hassigns) htimely hcount
  refine ⟨fun ht => hmarks.headerEnds (c.headerEnds_of_isHeader hlines ht), henough, hmatched,
    fun horderly => ⟨fun ht => ?_, fun hheader => (hmatched hheader).trans ?_⟩⟩
  · exact Mark.Orderly.countP_opening horderly ▸ henough ht
  · refine ⟨And.left, fun hcount => ⟨hcount, Mark.Orderly.timely horderly, fun ht => ?_⟩⟩
    exact hmarks.count_first hlines ht (List.forall_mem_cons.mp horderly).2 hcount

/-- A call within a call with a parenthesis too many at the end, and a call with two parentheses opened in the
same gap, of which the record keeps one. -/
theorem matched_iff_count_of_surplus :
    let surplus := "DetailPrint(GetParameters() & \"!\"))"
    let doubled := "DetailPrint((\"!\"))"
    let t : Token := ⟨⟨.name, "DetailPrint"⟩, { opens := true }⟩
    let inner : Token := ⟨⟨.name, "GetParameters"⟩, { opens := true, closes := 1, joins := true }⟩
    let last : Token := ⟨⟨.quoted, "\"!\""⟩, { closes := 2 }⟩
    let mss : List (List Mark) := [[.opening], [.opening, .closing, .join], [.closing, .closing]]
    let nss : List (List Mark) := [[.opening, .opening], [.closing, .closing]]
    let v : Variable := ⟨"bridle_1", .global, none⟩
    let ls : List Line := [⟨0, .declare v⟩, ⟨0, .perform (.header "GetParameters") [.var v]⟩,
      ⟨0, .perform (.instruction "DetailPrint") [.joined [.value v, .text "!"]]⟩]
    let ms : List Line := [⟨0, .perform (.instruction "DetailPrint") [.literal "\"!\""]⟩]
    ((Scan.statement surplus.toList = .ok [t, inner, last] ∧
        ((Compiler.start true).compile [t, inner, last]).result = .ok (.lines ls) ∧ t.isCall ∧
        Scan.Punctuated [t, inner, last] surplus.toList mss ∧ ∀ ms ∈ mss, Mark.Orderly ms) ∧
      ¬Mark.Matched mss.flatten) ∧
    (Scan.statement doubled.toList = .ok [t, last] ∧
        ((Compiler.start true).compile [t, last]).result = .ok (.lines ms) ∧
        Scan.Punctuated [t, last] doubled.toList nss ∧ ¬∀ ms ∈ nss, Mark.Orderly ms) ∧
      Mark.Matched nss.flatten := by
  intro surplus doubled t inner last mss nss v ls ms
  have hscan : Scan.statement surplus.toList = .ok [t, inner, last] := by decide +kernel
  have hlines : ((Compiler.start true).compile [t, inner, last]).result = .ok (.lines ls) := by
    decide +kernel
  have hscan' : Scan.statement doubled.toList = .ok [t, last] := by decide +kernel
  have hlines' : ((Compiler.start true).compile [t, last]).result = .ok (.lines ms) := by decide +kernel
  have hend : Scan.Punctuated [last] (last.word.text.toList ++ [')', ')'] ++ []) [[.closing, .closing]] := by
    have hgap : Scan.Gap [')', ')'] [.closing, .closing] := .of_marks rfl
    exact .word hgap (Tail.records_ofMarks [.closing, .closing]) .nil
  have hmarks : Scan.Punctuated [t, inner, last] surplus.toList mss := by
    have houter : Scan.Gap ['('] [.opening] := .of_marks rfl
    have hinner : Scan.Gap ['(', ')', ' ', '&', ' '] [.opening, .closing, .join] := .of_marks rfl
    have htext : surplus.toList = t.word.text.toList ++ ['('] ++ (inner.word.text.toList ++
        ['(', ')', ' ', '&', ' '] ++ (last.word.text.toList ++ [')', ')'] ++ [])) := by decide
    rw [htext]
    exact .word houter (Tail.records_ofMarks [.opening])
      (.word hinner (Tail.records_ofMarks [.opening, .closing, .join]) hend)
  have hmarks' : Scan.Punctuated [t, last] doubled.toList nss := by
    have hgap : Scan.Gap ['(', '('] [.opening, .opening] := .of_marks rfl
    have htext : doubled.toList = t.word.text.toList ++ ['(', '('] ++
        (last.word.text.toList ++ [')', ')'] ++ []) := by decide
    rw [htext]
    exact .word hgap (Tail.records_ofMarks [.opening, .opening]) hend
  have horderly : ∀ ms ∈ mss, Mark.Orderly ms := by decide
  refine ⟨⟨⟨hscan, hlines, rfl, hmarks, horderly⟩, fun hmatched => ?_⟩,
    ⟨hscan', hlines', hmarks', by decide⟩, ?_⟩
  · obtain ⟨-, hall⟩ := matched_iff_count (Compiler.start true) hscan hlines (.inl rfl)
    obtain ⟨-, -, -, horder⟩ := hall _ _ _ hmarks
    obtain ⟨-, hiff⟩ := horder horderly
    exact absurd ((hiff fun h => absurd h (by decide)).mp hmatched) (by decide)
  · obtain ⟨-, hall⟩ := matched_iff_count (Compiler.start true) hscan' hlines' (.inl rfl)
    obtain ⟨-, -, hiff, -⟩ := hall _ _ _ hmarks'
    refine (hiff fun h => absurd h (by decide)).mpr ⟨rfl, Mark.timely_of_forall ?_, by decide⟩
    have hnone : ∀ gap ∈ nss, .opening ∈ gap → .closing ∉ gap := by decide
    rintro gap hgap front back rfl hclosing
    exact hnone _ hgap (List.mem_append_right _ List.mem_cons_self) (List.mem_append_left _ hclosing)

/-- A parenthesis too many behind a call and one that is never closed in an assignment are both
accepted. -/
theorem unmatched_parentheses_accepted :
    let c := Compiler.start true
    let texts := ["DetailPrint(\"a\"))", "x = (1"]
    (c.steps (program texts)).1.map (·.result.toOption) =
        [some (.text "DetailPrint \"a\""), some (.text "Var /GLOBAL x\r\nStrCpy $x 1")] ∧
      texts.map (fun text => (Scan.statement text.toList).toOption.map (·.map (·.tail.parentheses))) =
        [some [[.opening], [.closing, .closing]], some [[.opening], []]] ∧
      ¬Mark.Matched [.opening, .closing, .closing] ∧ ¬Mark.Matched [.opening] := by
  decide +kernel

end InstallScript
