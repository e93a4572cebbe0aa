import InstallScript.Proofs.Leftover

/-!
Parentheses that are left to read. The marks behind a word are kept as a record, in which an opening
parenthesis is a flag and closing ones are a number, and calls take them off one by one.
`Cursor.unread` is what is left of the parentheses of a statement at any time. A value takes off a part
in which every parenthesis has its counterpart (`Cursor.Reads.takes`); a statement ends with closing ones
left over, or none.
-/

namespace InstallScript

/-! ## Depth -/

namespace Mark

/-- How many parentheses are open behind the mark, with `n` open before. None can be closed that is not
open. -/
def after? (n : Nat) : Mark → Option Nat
  | opening => some (n + 1)
  | closing => if n = 0 then none else some (n - 1)
  | _ => some n

/-- How many parentheses are open behind the marks. -/
def depth? (n : Nat) : List Mark → Option Nat
  | [] => some n
  | m :: ms => (m.after? n).bind (depth? · ms)

/-- Every parenthesis closes an earlier one, and every one is closed. -/
def Matched (ms : List Mark) : Prop := depth? 0 ms = some 0

instance : DecidablePred Matched := fun ms => inferInstanceAs (Decidable (depth? 0 ms = some 0))

variable {m n k : Nat} {ms ns : List Mark}

theorem depth?_append (n : Nat) (ms ns : List Mark) :
    depth? n (ms ++ ns) = (depth? n ms).bind (depth? · ns) := by
  induction ms generalizing n with
  | nil => rfl
  | cons m ms ih =>
    rw [List.cons_append, depth?, depth?, Option.bind_assoc]
    exact congrArg _ (funext ih)

/-- With more parentheses open before, more are open behind. -/
theorem depth?_add (h : depth? n ms = some m) (k : Nat) : depth? (n + k) ms = some (m + k) := by
  induction ms generalizing n with
  | nil =>
    cases h
    rfl
  | cons a ms ih =>
    obtain ⟨i, hi, hms⟩ := Option.bind_eq_some_iff.mp h
    have hafter : a.after? (n + k) = some (i + k) := by
      cases a <;> grind [after?]
    rw [depth?, hafter]
    exact ih hms

theorem Matched.depth? (h : Matched ms) (n : Nat) : Mark.depth? n ms = some n := by
  have h := depth?_add h n
  rwa [Nat.zero_add] at h

/-- The marks between matched ones can be looked at alone. -/
theorem Matched.append (h : Matched ms) (h' : Matched ns) : Matched (ms ++ ns) := by
  rw [Matched, depth?_append, h, Option.bind_some, h']

theorem Matched.enclose (h : Matched ms) : Matched (.opening :: (ms ++ [.closing])) := by
  change Mark.depth? 1 (ms ++ [.closing]) = some 0
  rw [depth?_append, h.depth?]
  rfl

theorem matched_nil : Matched [] := rfl

/-- What is open is what has been opened and not been closed. -/
theorem count_of_depth? (h : depth? n ms = some m) :
    n + ms.count .opening = m + ms.count .closing := by
  induction ms generalizing n with
  | nil =>
    cases h
    rfl
  | cons a ms ih =>
    obtain ⟨i, hi, hms⟩ := Option.bind_eq_some_iff.mp h
    have hcount := ih hms
    cases a <;> grind [after?]

theorem depth?_of_not_mem (h : .closing ∉ ms) (n : Nat) : depth? n ms = some (n + ms.count .opening) := by
  induction ms generalizing n with
  | nil => rfl
  | cons a ms ih =>
    rw [List.mem_cons, not_or] at h
    cases a with
    | closing => exact absurd rfl h.1
    | _ => grind [depth?, after?]

end Mark

/-! ## What is left to read -/

/-- The parentheses behind a word as the compiler takes them, the opening one first. -/
def Tail.parentheses (t : Tail) : List Mark :=
  (if t.opens then [.opening] else []) ++ List.replicate t.closes .closing

theorem Tail.count_opening_parentheses (t : Tail) :
    t.parentheses.count .opening = if t.opens then 1 else 0 := by
  cases h : t.opens <;> simp [parentheses, h, List.count_replicate]

theorem Tail.count_closing_parentheses (t : Tail) : t.parentheses.count .closing = t.closes := by
  cases h : t.opens <;> simp [parentheses, h]

/-- The parentheses that are left: closing ones behind the word just read, and those behind the words to
come. -/
def Cursor.unread (c : Cursor) : List Mark :=
  List.replicate c.tail.closes .closing ++ c.ahead.flatMap (·.tail.parentheses)

namespace Cursor

/-- A part of what is left has been taken off in which parentheses match, where the opening one of the word
just read belongs to it if `opened`. -/
def Takes (opened : Bool) (c c' : Cursor) : Prop :=
  ∃ ms, Mark.Matched ms ∧ (if opened then [.opening] else []) ++ c.unread = ms ++ c'.unread

namespace Takes

variable {c c' c'' : Cursor} {opened : Bool}

protected theorem refl (c : Cursor) : Takes false c c := ⟨[], Mark.matched_nil, rfl⟩

theorem trans (h : Takes opened c c') (h' : Takes false c' c'') : Takes opened c c'' := by
  obtain ⟨ms, hms, hc⟩ := h
  obtain ⟨ns, hns, hc'⟩ := h'
  refine ⟨ms ++ ns, hms.append hns, ?_⟩
  rw [hc, List.append_assoc, ← hc']
  rfl

/-- A word is read on only where no closing parenthesis is left over. -/
theorem word {word : Word} (hn : c.next? = some (word, c')) (hc : c.tail.isClosing = false)
    (h : Takes c'.tail.opens c' c'') : Takes false c c'' := by
  obtain ⟨ms, hms, hw⟩ := h
  refine ⟨ms, hms, ?_⟩
  have hzero : c.tail.closes = 0 := by simpa [Tail.isClosing] using hc
  rw [← hw, unread, Compile.ahead_of_next? hn, hzero, List.flatMap_cons, Tail.parentheses,
    List.append_assoc]
  rfl

/-- A closing parenthesis is taken off for the one that is open. -/
theorem close (h : Takes false c c') (hc : c'.tail.isClosing = true) : Takes true c c'.closeOne := by
  obtain ⟨ms, hms, hw⟩ := h
  refine ⟨.opening :: (ms ++ [.closing]), hms.enclose, ?_⟩
  have hpos : 0 < c'.tail.closes := of_decide_eq_true hc
  have hunread : c'.unread = .closing :: c'.closeOne.unread := by
    obtain ⟨n, hn⟩ := Nat.exists_eq_add_one.mpr hpos
    simp only [unread, closeOne, Tail.closeOne, hn, List.replicate_succ, Nat.add_sub_cancel,
      List.cons_append]
  have hw : c.unread = ms ++ c'.unread := hw
  rw [hw, hunread]
  simp

end Takes

/-- The opening parenthesis behind the word just read belongs to the part. -/
def Part.opened : Part → Cursor → Bool
  | .item, c | .value, c => c.tail.opens
  | .chain, _ | .arguments, _ => false

theorem isClosing_of_continues {t : Tail} (h : Compile.continues t = true) : t.isClosing = false := by
  simp only [Compile.continues, Bool.and_eq_true] at h
  simpa using h.1.2

/-- What is read takes off matching parentheses. -/
theorem Reads.takes {p : Part} {c c' : Cursor} (h : c.Reads p c') : Takes (p.opened c) c c' := by
  induction h with
  | word ho =>
    rw [Part.opened, ho]
    exact .refl _
  | bare ho hc =>
    rw [Part.opened, ho]
    exact (Takes.refl _).close hc
  | call ho _ hc ih =>
    rw [Part.opened, ho]
    exact ih.close hc
  | stop _ => exact .refl _
  | join hc hn _ _ ihItem ihMore => exact (Takes.word hn (isClosing_of_continues hc) ihItem).trans ihMore
  | value _ _ ihItem ihMore => exact ihItem.trans ihMore
  | last hc hn _ _ ih => exact .word hn hc ih
  | next hc hn _ _ _ ihValue ihMore => exact (Takes.word hn hc ihValue).trans ihMore

end Cursor

namespace Compile

variable {w : Work} {c : Cursor}

/-! ### Statements -/

theorem unread_of_ends (h : Ends w) : w.cursor.unread = List.replicate w.cursor.tail.closes .closing := by
  rw [Cursor.unread, h]
  exact List.append_nil _

/-- A call that is a statement of its own. -/
theorem reads_call (word : Word) (w : Work) (ho : w.cursor.tail.opens = true) :
    Gives (callInto word none >>= fun _ => expectEnd) w fun _ w' =>
      w.cursor.Reads .item w'.cursor ∧ Ends w' := by
  refine .bind (reads_callInto word none w ho) fun _ w₁ h₁ => gives_expectEnd.mono ?_
  rintro _ _ ⟨rfl, he⟩
  exact ⟨h₁, he⟩

theorem reads_expectEnd_emit {p : Cursor.Part} (ls : List Line) (h : c.Reads p w.cursor) :
    Gives (expectEnd >>= fun _ => emit ls) w fun _ w' => c.Reads p w'.cursor ∧ Ends w' := by
  refine .bind gives_expectEnd ?_
  rintro _ _ ⟨rfl, he⟩
  exact .of_exec (a := ()) rfl ⟨h, he⟩

theorem waits_assigned (name : String) : Waits (assigned name) := by
  refine .bind waits_declarations fun d => .bind (.of_exec exec_current fun _ => rfl) fun f => ?_
  split
  · exact .pure _
  · exact waits_declare name

/-- What is assigned is a value, to the last word. -/
theorem reads_assignment (target : Word) (w : Work) : Gives (assignment target) w fun _ w' =>
    ∃ word c, w.cursor.next? = some (word, c) ∧ c.Reads .value w'.cursor ∧ Ends w' := by
  unfold assignment
  dsimp only
  split
  · exact .fail_bind
  refine .bind (Waits.ofExcept _ w) fun _ w₁ h₁ => .bind (waits_assigned _ w₁) fun v w₂ h₂ => ?_
  refine .bind gives_nextWord ?_
  rintro word _ ⟨c, hn, rfl⟩
  suffices h : Gives _ _ fun _ w' => c.Reads .value w'.cursor ∧ Ends w' from
    h.mono fun _ w' h => ⟨word, c, by rw [← h₁, ← h₂, hn], h⟩
  refine .read (a := c.tail) rfl ?_
  split
  · next hcall =>
    have ho : c.tail.opens = true := (Bool.and_eq_true_iff.mp hcall).2
    refine .bind (reads_callInto word _ _ ho) fun _ w₃ h₃ => .read (a := w₃.cursor.tail) rfl ?_
    split
    · next hj =>
      refine gives_expectEnd.mono ?_
      rintro _ _ ⟨rfl, he⟩
      exact ⟨.value h₃ (.stop (by simp_all [continues])), he⟩
    · exact .bind (reads_valueFrom _ _) fun x w₄ h₄ => reads_expectEnd_emit _ (.value h₃ h₄)
  · next hcall =>
    split
    · exact .bind (reads_value word _) fun x w₃ h₃ => reads_expectEnd_emit _ h₃
    · next hj =>
      have ho : c.tail.opens = false := by
        cases ho : c.tail.opens <;> simp_all
      refine .bind (waits_resolve word _) fun x w₃ h₃ => reads_expectEnd_emit _ ?_
      rw [h₃]
      exact .value (.word ho) (.stop (by simp [continues, hj]))

end Compile

/-- The marks behind the last word. -/
def Cursor.last (c : Cursor) : Tail := c.ahead.getLast?.elim c.tail (·.tail)

namespace Compile

variable {w : Work}

theorem last_of_next? {c c' : Cursor} {word : Word} (h : c.next? = some (word, c')) :
    c'.last = c.last := by
  rw [Cursor.last, Cursor.last, ahead_of_next? h, List.getLast?_cons]
  cases c'.ahead.getLast? <;> rfl

theorem last_of_ends (h : Ends w) : w.cursor.last = w.cursor.tail := by
  rw [Cursor.last, h]
  rfl

/-- The list of parameters ends with a closing parenthesis. -/
theorem gives_parameters_isClosing (n : Nat) (f : Function) (w : Work) :
    Gives (parameters n f) w fun _ w' =>
      w'.cursor.last = w.cursor.last ∧ w'.cursor.tail.isClosing = true := by
  induction n generalizing w f with
  | zero => exact .fail
  | succ n ih =>
    unfold parameters
    refine .bind gives_nextWord ?_
    rintro word _ ⟨cursor, hn, rfl⟩
    dsimp only
    split
    · exact .fail_bind
    refine .bind (Waits.ofExcept _ _) fun _ w₁ h₁ => .bind (waits_declare _ w₁) fun v w₂ h₂ => ?_
    refine .bind (waits_declarations w₂) fun d w₃ h₃ => ?_
    refine .bind (waits_setDeclarations _ w₃) fun _ w₄ h₄ => ?_
    have hcursor : w₄.cursor = cursor := h₄.trans (h₃.trans (h₂.trans h₁))
    have hlast : w₄.cursor.last = w.cursor.last := hcursor ▸ last_of_next? hn
    refine .read (a := w₄.cursor.tail) rfl ?_
    split
    · exact (ih _ w₄).mono fun _ _ h => ⟨h.1.trans hlast, h.2⟩
    · refine .read (a := w₄.cursor.tail) rfl ?_
      split
      · next hc => exact .pure ⟨hlast, hc⟩
      · exact .fail

/-- A header ends with a closing parenthesis, or it is a name with nothing behind it. -/
def HeaderEnds (ts : List Token) : Prop :=
  ∃ t, ts.getLast? = some t ∧ (t.tail.isClosing = true ∨ ts = [t] ∧ t.tail = {})

theorem gives_functionBegin_headerEnds (w : Work) :
    Gives functionBegin w fun _ _ => HeaderEnds w.cursor.ahead := by
  unfold functionBegin
  refine .read (a := w.compiler.current) rfl ?_
  dsimp only
  split
  · exact .fail_bind
  refine .bind gives_nextWord ?_
  rintro word _ ⟨cursor, hn, rfl⟩
  refine .bind (waits_declarations _) fun d w₁ h₁ => .bind (Waits.ofExcept _ w₁) fun fd w₂ h₂ => ?_
  refine .bind (waits_setDeclarations _ w₂) fun _ w₃ h₃ => ?_
  refine .bind (waits_modifyCompiler _ w₃) fun _ w₄ h₄ => .bind (waits_note _ w₄) fun _ w₅ h₅ => ?_
  have hcursor : w₅.cursor = cursor := h₅.trans (h₄.trans (h₃.trans (h₂.trans h₁)))
  have hahead := ahead_of_next? hn
  obtain ⟨t, ht⟩ : ∃ t, w.cursor.ahead.getLast? = some t :=
    ⟨_, List.getLast?_eq_some_getLast (by rw [hahead]; exact List.cons_ne_nil _ _)⟩
  have hlast : w₅.cursor.last = t.tail := by
    rw [hcursor, last_of_next? hn, Cursor.last, ht]
    rfl
  have hend : ∀ (f : Function) w₆, (Ends w₆ → HeaderEnds w.cursor.ahead) → Gives (do
      let more ← hasNext
      if more = true then fail .wordAfterHeader
      ofExcept f.checkEarlier
      emit (⟨0, .functionBegin f.label⟩ :: f.params.reverse.map fun v => ⟨1, .pop v⟩)) w₆
        fun _ _ => HeaderEnds w.cursor.ahead := by
    intro f w₆ h₆
    refine .read (a := w₆.cursor.hasNext) rfl ?_
    dsimp only
    split
    · exact .fail_bind
    · next hnext => exact .whatever fun _ _ => .of_exec (a := ()) rfl (h₆ (ends_of_hasNext hnext))
  refine .read (a := w₅.cursor.tail) rfl ?_
  split
  · refine .read (a := w₅.cursor.ahead.length) rfl ?_
    refine .bind (gives_parameters_isClosing _ _ w₅) fun f w₆ h₆ => hend f w₆ fun he => ?_
    refine ⟨t, ht, .inl ?_⟩
    rw [← hlast, ← h₆.1, last_of_ends he]
    exact h₆.2
  · next hparams =>
    refine .read (a := fd.1) rfl (hend fd.1 w₅ fun he => ⟨t, ht, ?_⟩)
    rw [last_of_ends he] at hlast
    by_cases hc : t.tail.isClosing = true
    · exact .inl hc
    · rw [hlast] at hparams
      refine .inr ⟨?_, by simpa [hc, Tail.isEmpty] using hparams⟩
      have hone : w.cursor.ahead = [⟨word, cursor.tail⟩] := by rw [hahead, ← hcursor, he]
      rw [hone] at ht
      exact hone.trans (congrArg (fun u => [u]) (Option.some.inj ht))

end Compile

end InstallScript
