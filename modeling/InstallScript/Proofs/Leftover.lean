import InstallScript.Proofs.TestedWords
import InstallScript.Proofs.Runs

/-!
Words that a statement leaves unread. A construct that takes words reads them to the end or fails. The
constructs that consist of a keyword alone do not look behind it, so whatever stands there is lost
without a fault: `words_left_iff` says that these are all, and that every word behind the keyword is
left. Statements that pass unchanged lose nothing, since they are not put together from their words.
-/

namespace InstallScript

/-- The word is a construct by itself, and no mark makes it anything else. -/
def Token.standsAlone (t : Token) : Bool :=
  t.isPlain && t.word.name ∈ ["functionend", "else", "endif", "continue", "break"]

namespace Compile

variable {w w' : Work}

theorem Calls.ends {called : Prop} (h : Calls called w w') (he : Ends w) : Ends w' := by
  obtain ⟨ts, _, hts, _⟩ := h
  exact (List.append_eq_nil_iff.mp (hts.symm.trans he)).2

/-- What comes after the last word of a construct only writes. -/
theorem gives_expectEnd_emit (ls : List Line) :
    Gives (expectEnd >>= fun _ => emit ls) w fun _ w' => Ends w' := by
  refine .bind gives_expectEnd ?_
  rintro _ _ ⟨rfl, h⟩
  exact .of_exec (a := ()) rfl h

/-! ## Constructs with words of their own -/

theorem gives_assignment (target : Word) : Gives (assignment target) w fun _ w' => Ends w' := by
  unfold assignment
  dsimp only
  split
  · exact .fail_bind
  refine .whatever fun _ _ => .whatever fun v _ => .whatever fun word w₁ => ?_
  refine .read (a := w₁.cursor.tail) rfl ?_
  split
  · refine .whatever fun _ w₂ => .read (a := w₂.cursor.tail) rfl ?_
    split
    · exact gives_expectEnd.mono fun _ _ h => h.1 ▸ h.2
    · exact .whatever fun x _ => gives_expectEnd_emit _
  · split <;> exact .whatever fun x _ => gives_expectEnd_emit _

theorem gives_declareName (word : Word) :
    Gives (declareName word) w fun _ w' => w'.cursor = w.cursor := by
  have hdeclare : ∀ w', w'.cursor = w.cursor → Gives (declare word.name >>= fun _ => pure ()) w'
      fun _ w' => w'.cursor = w.cursor := fun w' h =>
    .bind (gives_declare _) fun _ _ h' => .pure (h'.1.trans h)
  unfold declareName
  dsimp only
  split
  · exact .fail_bind
  refine .bind (.ofExcept (Q := fun _ w' => w' = w) fun _ _ => rfl) ?_
  rintro _ w rfl
  refine .read (a := w.compiler.current) rfl ?_
  split
  · refine .read (a := w.declarations) rfl ?_
    split
    · refine .bind (.of_exec (a := ()) rfl (Q := fun _ w' => w'.cursor = w.cursor) rfl) ?_
      exact fun _ w' h => hdeclare w' h
    · exact hdeclare w rfl
  · exact hdeclare w rfl

theorem gives_declareNames (n : Nat) (word : Word) (hn : w.cursor.ahead.length ≤ n) :
    Gives (declareNames n word) w fun _ w' => Ends w' := by
  induction n generalizing w word with
  | zero =>
    refine (gives_declareName word).mono fun _ w' h => ?_
    unfold Ends
    rw [h]
    exact List.eq_nil_of_length_eq_zero (Nat.le_zero.mp hn)
  | succ n ih =>
    unfold declareNames
    refine .bind (gives_declareName word) fun _ w₁ h₁ => ?_
    refine .read (a := w₁.cursor.hasNext) rfl ?_
    split
    · refine .bind gives_nextWord ?_
      rintro next _ ⟨cursor, hc, rfl⟩
      refine ih next ?_
      rw [← h₁, ahead_of_next? hc] at hn
      exact Nat.le_of_succ_le_succ hn
    · next h => exact .pure (ends_of_hasNext h)

theorem gives_declaration : Gives declaration w fun _ w' => Ends w' := by
  unfold declaration
  dsimp only
  refine .whatever fun first w₁ => ?_
  split <;> refine .whatever fun word w₂ => ?_ <;>
    exact .read (a := w₂.cursor.ahead.length) rfl (gives_declareNames _ word Nat.le.refl)

theorem gives_functionBegin : Gives functionBegin w fun _ w' => Ends w' := by
  unfold functionBegin
  refine .read (a := w.compiler.current) rfl ?_
  dsimp only
  split
  · exact .fail_bind
  have hend : ∀ (f : Function) w₁, Gives (do
      let more ← hasNext
      if more = true then fail .wordAfterHeader
      ofExcept f.checkEarlier
      emit (⟨0, .functionBegin f.label⟩ :: f.params.reverse.map fun v => ⟨1, .pop v⟩)) w₁
        fun _ w' => Ends w' := by
    intro f w₁
    refine .read (a := w₁.cursor.hasNext) rfl ?_
    dsimp only
    split
    · exact .fail_bind
    next h =>
    refine .bind (.ofExcept (Q := fun _ w' => w' = w₁) fun _ _ => rfl) ?_
    rintro _ _ rfl
    exact .of_exec (a := ()) rfl (ends_of_hasNext h)
  refine .whatever fun word _ => .whatever fun _ _ => .whatever fun declared _ => ?_
  refine .whatever fun _ _ => .whatever fun _ _ => .whatever fun _ w₁ => ?_
  refine .read (a := w₁.cursor.tail) rfl ?_
  split
  · exact .read (a := w₁.cursor.ahead.length) rfl (.whatever hend)
  · exact .whatever hend

theorem gives_functionReturn : Gives functionReturn w fun _ w' => Ends w' := by
  unfold functionReturn
  refine .read (a := w.compiler.current) rfl ?_
  split
  · exact .fail
  refine .read (a := w.cursor.hasNext) rfl ?_
  split
  · refine .whatever fun _ _ => .whatever fun _ _ => .whatever fun word _ => .whatever fun x w₁ => ?_
    refine .bind gives_expectEnd ?_
    rintro _ _ ⟨rfl, he⟩
    exact .bind gives_ensureRegister fun _ w₂ h => .of_exec (a := ()) rfl (h.ends he)
  · next h => exact .of_exec (a := ()) rfl (ends_of_hasNext h)

theorem Tests.ends {loop : String} {o : Opener} {vs : List Token} (h : Tests loop o vs w w') :
    Ends w' := by
  obtain ⟨w₁, _, _, _, _, he, _, rfl⟩ := h
  exact he

theorem gives_loop_ends (name : String) : Gives (loop name) w fun _ w' => Ends w' := by
  refine (gives_loop name).mono ?_
  rintro _ _ (⟨he, rfl⟩ | ⟨_, _, _, _, _, _, h⟩)
  · exact he
  · exact h.ends

/-! ## All statements -/

theorem gives_functionEnd : Gives functionEnd w fun _ w' => w'.cursor = w.cursor := by
  unfold functionEnd
  refine .read (a := w.compiler.current) rfl ?_
  dsimp only
  split
  · exact .fail_bind
  · exact .of_exec (a := ()) rfl rfl

/-- A command writes no lines of its own. -/
theorem gives_command : Gives command w fun r _ => ∀ ls, r ≠ .lines ls := by
  unfold command
  refine .read (a := w.cursor.hasNext) rfl ?_
  split
  · exact .pure (by simp)
  refine .whatever fun word _ => ?_
  split
  · exact .pure (by simp)
  refine .whatever fun path w₁ => .read (a := w₁.cursor.hasNext) rfl ?_
  split <;> exact .pure (by simp)

/-- The words that are left behind the first one of a statement. -/
theorem gives_dispatch (word : Word) : Gives (dispatch word w.cursor.tail) w fun r w' =>
    ∀ ls, r = .lines ls → w'.cursor.ahead =
      if (Token.mk word w.cursor.tail).standsAlone then w.cursor.ahead else [] := by
  generalize ht : Token.mk word w.cursor.tail = t
  have hends : ∀ {act}, Gives act w (fun _ w' => Ends w') → t.standsAlone = false →
      Gives (written act) w fun r w' => ∀ ls, r = .lines ls → w'.cursor.ahead =
        if t.standsAlone then w.cursor.ahead else [] := by
    intro act h hs
    refine (gives_written h).mono fun _ _ h _ _ => ?_
    rw [hs]
    exact h.2
  have hkeeps : ∀ {act}, Gives act w (fun _ w' => w'.cursor = w.cursor) → t.standsAlone = true →
      Gives (written act) w fun r w' => ∀ ls, r = .lines ls → w'.cursor.ahead =
        if t.standsAlone then w.cursor.ahead else [] := by
    intro act h hs
    refine (gives_written h).mono fun _ _ h _ _ => ?_
    rw [hs, h.2]
    rfl
  have hplain : ∀ {name}, Gives (emit [⟨0, .keyword name⟩]) w fun _ w' => w'.cursor = w.cursor :=
    .of_exec (a := ()) rfl rfl
  have hbranch : Gives (branch word) w fun _ w' => Ends w' :=
    (gives_branch word).mono fun _ _ ⟨_, _, h⟩ => h.ends
  unfold dispatch
  split
  · next h => exact hends (gives_assignment word) (by simp [← ht, Token.standsAlone, Token.isPlain, h])
  split
  · next h =>
    refine hends (.whatever fun _ _ => ?_) (by simp [← ht, Token.standsAlone, Token.isPlain, h])
    exact gives_expectEnd.mono fun _ _ h => h.1 ▸ h.2
  split
  · exact gives_command.mono fun r _ h ls hr => absurd hr (h ls)
  next ha ho hc =>
  have hs : t.standsAlone =
      decide (word.name ∈ ["functionend", "else", "endif", "continue", "break"]) := by
    simp [← ht, Token.standsAlone, Token.isPlain, ha, ho, hc]
  split
  · next h => exact hends gives_declaration (by simp [hs, h])
  · next h => exact hends gives_functionBegin (by simp [hs, h])
  · next h => exact hends gives_functionReturn (by simp [hs, h])
  · next h => exact hkeeps gives_functionEnd (by simp [hs, h])
  · next h => exact hends hbranch (by simp [hs, h])
  · next h => exact hends hbranch (by simp [hs, h])
  · next h => exact hkeeps hplain (by simp [hs, h])
  · next h => exact hkeeps hplain (by simp [hs, h])
  · next h => exact hends (gives_loop_ends _) (by simp [hs, h])
  · next h => exact hends (gives_loop_ends _) (by simp [hs, h])
  · next h => exact hkeeps hplain (by simp [hs, h])
  · next h => exact hkeeps hplain (by simp [hs, h])
  · refine .pure fun ls h => ?_
    cases h

end Compile

/-- A statement that compiles to lines leaves words unread exactly if it is a keyword that stands alone
with words behind it, and then it leaves all of these. -/
theorem words_left_iff (c : Compiler) {ts : List Token} {ls : List Line}
    (h : (c.compile ts).result = .ok (.lines ls)) :
    ((c.compile ts).cursor.hasNext = true ↔ ∃ t rest, ts = t :: rest ∧ t.standsAlone ∧ rest ≠ []) ∧
      ∀ t rest, ts = t :: rest → t.standsAlone → (c.compile ts).cursor.ahead = rest := by
  cases ts with
  | nil => cases h
  | cons t rest =>
    obtain ⟨w', he, hcursor⟩ := Compile.exec_dispatch_of_compile h
    have hleft : (c.compile (t :: rest)).cursor.ahead = if t.standsAlone then rest else [] := by
      rw [hcursor]
      exact Compile.gives_dispatch (w := { compiler := c, cursor := ⟨t.tail, rest⟩ }) t.word _ _ he ls rfl
    refine ⟨?_, ?_⟩
    · rw [Cursor.hasNext, hleft]
      constructor
      · intro hn
        by_cases ht : t.standsAlone = true
        · exact ⟨t, rest, rfl, ht, by simpa [ht] using hn⟩
        · simp [ht] at hn
      · rintro ⟨_, _, ⟨⟩, ht, hrest⟩
        simpa [ht] using hrest
    · rintro _ _ ⟨⟩ ht
      rw [hleft, if_pos ht]

/-- The words `else x == 1`. -/
def elseWords : List Token :=
  [⟨⟨.name, "Else"⟩, {}⟩, ⟨⟨.name, "x"⟩, { relation := some .eq }⟩, ⟨⟨.integer, "1"⟩, {}⟩]

theorem words_left_iff_of_else :
    let o := (Compiler.start true).compile elseWords
    o.result = .ok (.lines [⟨0, .keyword "Else"⟩]) ∧
      (o.cursor.hasNext = true ↔ ∃ t rest, elseWords = t :: rest ∧ t.standsAlone ∧ rest ≠ []) ∧
      o.cursor.ahead = elseWords.tail := by
  intro o
  have h : o.result = .ok (.lines [⟨0, .keyword "Else"⟩]) := by rfl
  obtain ⟨hiff, hall⟩ := words_left_iff (Compiler.start true) h
  exact ⟨h, hiff, hall _ _ rfl (by decide)⟩

/-- A script with a condition where none belongs. -/
def elseWithCondition : List String := ["If 1 == 1\nElse x == 1\nEndIf"]

/-- The branch compiles as if nothing stood behind the keyword, and the words there are left. -/
theorem condition_after_else_is_lost :
    let c := Compiler.start true
    (c.steps (program elseWithCondition)).1.map (·.result.toOption) =
        ["$\x7bIf\x7d 1 == 1", "$\x7bElse\x7d", "$\x7bEndIf\x7d"].map (some <| .text ·) ∧
      (∃ s ∈ program elseWithCondition, s.tokens.toOption = some elseWords) ∧
      (c.compile elseWords).result.toOption = some (.lines [⟨0, .keyword "Else"⟩]) ∧
      (c.compile elseWords).cursor.hasNext = true := by
  decide +kernel

end InstallScript
