import InstallScript.Proofs.DeclaredFirst

/-!
What an action that gives a result has read and written. Words are only taken off those ahead and
lines are only added, and the two go together: a value adds lines that do more than declare variables
exactly if a word of it is called (`Calls`).
-/

namespace InstallScript

/-- The lines do more than declare variables. -/
def Acts (ls : List Line) : Prop := ∃ l ∈ ls, l.instr.declared? = none

theorem acts_append {ls ms : List Line} : Acts (ls ++ ms) ↔ Acts ls ∨ Acts ms := by
  simp only [Acts, List.mem_append, or_and_right, exists_or]

theorem not_acts_nil : ¬Acts [] := fun ⟨_, hl, _⟩ => absurd hl List.not_mem_nil

/-- The word has an opening parenthesis behind it. -/
def Token.opens (t : Token) : Bool := t.tail.opens

/-- No mark behind the word makes a statement that begins with it an assignment, a call or a
command. -/
def Token.isPlain (t : Token) : Bool := !t.tail.assigns && !t.tail.opens && !t.tail.command

namespace Compile

/-- If the action gives a result, it satisfies `Q` in the state that is left. -/
def Gives (act : Compile α) (w : Work) (Q : α → Work → Prop) : Prop :=
  ∀ a w', exec act w = (.ok a, w') → Q a w'

namespace Gives

variable {act : Compile α} {k : α → Compile β} {w w' : Work} {a : α}

theorem of_exec {Q : α → Work → Prop} (h : exec act w = (.ok a, w')) (hq : Q a w') :
    Gives act w Q := by
  intro b v hb
  cases h.symm.trans hb
  exact hq

theorem of_fault {f : Fault} {Q : α → Work → Prop} (h : exec act w = (.error f, w')) :
    Gives act w Q := by
  intro b v hb
  cases h.symm.trans hb

protected theorem pure {Q : α → Work → Prop} (hq : Q a w) : Gives (pure a) w Q :=
  of_exec (exec_pure a w) hq

protected theorem fail {f : Fault} {Q : α → Work → Prop} : Gives (fail f) w Q :=
  of_fault (exec_fail f w)

protected theorem bind {P : α → Work → Prop} {Q : β → Work → Prop} (h : Gives act w P)
    (hk : ∀ a w', P a w' → Gives (k a) w' Q) : Gives (act >>= k) w Q := by
  intro b v hb
  rcases he : exec act w with ⟨f | a, w'⟩
  · rw [exec_bind_error he] at hb
    cases hb
  · rw [exec_bind_ok he] at hb
    exact hk a w' (h a w' he) b v hb

/-- Whatever is done first. -/
theorem whatever {Q : β → Work → Prop} (hk : ∀ a w', Gives (k a) w' Q) : Gives (act >>= k) w Q :=
  .bind (P := fun _ _ => True) (fun _ _ _ => trivial) fun a w' _ => hk a w'

/-- Looking at the state changes nothing. -/
theorem read {Q : β → Work → Prop} (h : exec act w = (.ok a, w)) (hk : Gives (k a) w Q) :
    Gives (act >>= k) w Q := by
  intro b v hb
  rw [exec_bind_ok h] at hb
  exact hk b v hb

theorem fail_bind {f : Fault} {Q : β → Work → Prop} : Gives (Compile.fail f >>= k) w Q :=
  of_fault (exec_bind_error (exec_fail f w))

theorem congr {act' : Compile α} {Q : α → Work → Prop} (he : exec act w = exec act' w')
    (h : Gives act' w' Q) : Gives act w Q :=
  fun a w'' ha => h a w'' (he.symm.trans ha)

theorem mono {P Q : α → Work → Prop} (h : Gives act w P) (hpq : ∀ a w', P a w' → Q a w') :
    Gives act w Q :=
  fun a w' he => hpq a w' (h a w' he)

theorem ofExcept {r : Except Fault α} {Q : α → Work → Prop} (h : ∀ a, r = .ok a → Q a w) :
    Gives (ofExcept r) w Q := by
  intro a w' he
  rw [exec_ofExcept] at he
  cases he
  exact h a rfl

theorem nested {Q : α → Work → Prop}
    (h : Gives act (w.atDepth (w.compiler.depth + 1)) fun a w' => ∀ n, Q a (w'.atDepth n)) :
    Gives (nested act) w Q := by
  by_cases hd : w.compiler.depth < maxNesting
  · intro a w' he
    rw [exec_nested act hd] at he
    cases he' : exec act (w.atDepth (w.compiler.depth + 1)) with
    | mk r v =>
      rw [he'] at he
      cases he
      exact h a v he' _
  · exact of_fault (exec_nested_of_le act (Nat.le_of_not_lt hd))

end Gives

variable {w w' w'' : Work}

theorem ahead_of_next? {c c' : Cursor} {word : Word} (h : c.next? = some (word, c')) :
    c.ahead = ⟨word, c'.tail⟩ :: c'.ahead := by
  unfold Cursor.next? at h
  split at h
  · cases h
  · next hc =>
    cases h
    exact hc

theorem gives_nextWord : Gives nextWord w fun word w' =>
    ∃ cursor, w.cursor.next? = some (word, cursor) ∧ w' = { w with cursor := cursor } := by
  match hc : w.cursor.next? with
  | none => exact .of_fault (exec_nextWord_of_none hc)
  | some (word, cursor) => exact .of_exec (exec_nextWord hc) ⟨cursor, rfl, rfl⟩

/-! ## Values -/

/-- From `w` on words have been read and lines added, which do more than declare variables exactly if
`called`, or if one of these words is called. -/
def Calls (called : Prop) (w w' : Work) : Prop :=
  ∃ ts ls, w.cursor.ahead = ts ++ w'.cursor.ahead ∧ w'.lines = w.lines ++ ls ∧
    (Acts ls ↔ called ∨ ∃ t ∈ ts, t.opens)

namespace Calls

variable {p q : Prop}

/-- No word is read. -/
theorem of_lines {ls : List Line} (hc : w'.cursor.ahead = w.cursor.ahead)
    (hl : w'.lines = w.lines ++ ls) (hp : Acts ls ↔ p) : Calls p w w' :=
  ⟨[], ls, hc.symm, hl, by simpa using hp⟩

theorem still (hc : w'.cursor.ahead = w.cursor.ahead) (hl : w'.lines = w.lines) :
    Calls False w w' :=
  of_lines hc (by rw [hl, List.append_nil]) (by simpa using not_acts_nil)

theorem trans (h : Calls p w w') (h' : Calls q w' w'') : Calls (p ∨ q) w w'' := by
  obtain ⟨ts, ls, hts, hls, hp⟩ := h
  obtain ⟨us, ms, hus, hms, hq⟩ := h'
  refine ⟨ts ++ us, ls ++ ms, ?_, ?_, ?_⟩
  · rw [hts, hus, List.append_assoc]
  · rw [hms, hls, List.append_assoc]
  · rw [acts_append, hp, hq]
    simp only [List.mem_append, or_and_right, exists_or]
    exact or_or_or_comm

theorem congr (h : Calls p w w') (hpq : p ↔ q) : Calls q w w' := by
  rw [← propext hpq]
  exact h

/-- Whatever goes before a call, and without a call of its own, belongs to it. -/
theorem before (h : Calls False w w') (h' : Calls p w' w'') : Calls p w w'' :=
  (h.trans h').congr (iff_of_eq (false_or p))

theorem after (h : Calls p w w') (h' : Calls False w' w'') : Calls p w w'' :=
  (h.trans h').congr (iff_of_eq (or_false p))

/-- Reading a word, and what becomes of it. -/
theorem word {word : Word} {cursor : Cursor} (hn : w.cursor.next? = some (word, cursor))
    (h : Calls (cursor.tail.opens = true) { w with cursor := cursor } w') : Calls False w w' := by
  obtain ⟨ts, ls, hts, hls, hp⟩ := h
  refine ⟨⟨word, cursor.tail⟩ :: ts, ls, ?_, hls, ?_⟩
  · rw [ahead_of_next? hn]
    exact congrArg (_ :: ·) hts
  · simp only [hp, false_or, List.mem_cons, exists_eq_or_imp]
    rfl

end Calls

theorem gives_resolve (word : Word) : Gives (resolve word) w fun _ w' => w' = w := by
  unfold resolve lookup
  split
  · refine .bind (P := fun _ w' => w' = w) ?_ ?_
    · refine .read (a := w.declarations) rfl (.read (a := w.compiler.current) rfl ?_)
      exact .ofExcept fun _ _ => rfl
    · rintro _ _ rfl
      exact .pure rfl
  · exact .pure rfl

/-- Registering adds a variable and leaves words and lines alone. -/
theorem gives_register (name : String) (scope : Scope) :
    Gives (register name scope) w fun _ w' => w'.cursor = w.cursor ∧ w'.lines = w.lines := by
  cases hd : w.declarations.declared? name scope with
  | some v => exact .of_fault (exec_register_of_some hd)
  | none => exact .of_exec (exec_register hd) ⟨rfl, rfl⟩

theorem gives_declare (name : String) : Gives (declare name) w fun v w' =>
    w'.cursor = w.cursor ∧ w'.lines = w.lines ++ [⟨0, .declare v⟩] := by
  cases hd : w.declarations.declared? name w.compiler.scope with
  | some v => exact .of_fault (exec_declare_of_some hd)
  | none => exact .of_exec (exec_declare hd) ⟨rfl, rfl⟩

theorem not_acts_declare (v : Variable) : ¬Acts [⟨0, .declare v⟩] := by
  rintro ⟨l, hl, hd⟩
  rw [List.mem_singleton.mp hl] at hd
  cases hd

theorem gives_declareTemporary : Gives declareTemporary w fun _ w' => Calls False w w' := by
  unfold declareTemporary
  refine .read (a := w.declarations) rfl ?_
  refine .bind (.of_exec (a := ()) rfl (Q := fun _ w' => w'.cursor = w.cursor ∧ w'.lines = w.lines)
    ⟨rfl, rfl⟩) fun _ w₁ h₁ => ?_
  refine (gives_declare _).mono fun v w₂ h₂ => ?_
  refine .of_lines (by rw [h₂.1, h₁.1]) (by rw [h₂.2, h₁.2]) ?_
  exact iff_of_false (not_acts_declare v) id

/-- A shared variable is declared at most. -/
theorem gives_declareShared (v : Variable) :
    Gives (declareShared v) w fun _ w' => Calls False w w' := by
  unfold declareShared
  refine .bind (gives_register _ _) fun u w₁ h₁ => ?_
  refine .bind (.of_exec (a := ()) rfl (Q := fun _ w' => Calls False w w') ?_) fun _ _ h => .pure h
  exact .of_lines (congrArg _ h₁.1) (congrArg (· ++ _) h₁.2) (iff_of_false (not_acts_declare u) id)

theorem gives_discarded : Gives discarded w fun _ w' => Calls False w w' := by
  unfold discarded
  refine .read (a := w) rfl ?_
  split
  · exact .pure (.still rfl rfl)
  · refine .bind (gives_declareShared _) fun v w₁ h₁ => ?_
    refine .bind (.of_exec (a := ()) rfl (Q := fun _ w' => Calls False w₁ w') (.still rfl rfl)) ?_
    exact fun _ _ h => .pure (h₁.after h)

theorem gives_ensureRegister : Gives ensureRegister w fun _ w' => Calls False w w' := by
  unfold ensureRegister
  refine .read (a := w) rfl ?_
  split
  · refine .bind (gives_declareShared _) fun v w₁ h₁ => ?_
    exact .of_exec (a := ()) rfl (h₁.after (.still rfl rfl))
  · exact .pure (.still rfl rfl)

theorem gives_introduce (word : Word) : Gives (introduce word) w fun _ w' => Calls False w w' := by
  unfold introduce
  refine .read (a := w.declarations) rfl ?_
  refine .bind (.of_exec (a := ()) rfl (Q := fun _ w' => Calls False w w') (.still rfl rfl)) ?_
  exact fun _ _ h => .pure h

theorem gives_noteCall (word : Word) (c : Callee) (result : Option Variable) :
    Gives (noteCall word c result) w fun _ w' => Calls False w w' := by
  obtain ⟨notes, he⟩ := exec_noteCall (w := w) word c result
  exact .of_exec he (.still rfl rfl)

/-- Every call has a line that does something. -/
theorem acts_lines {c : Callee} {args : List Operand} {result : Option Variable} {n m : Nat}
    {ls : List Line} (h : c.lines args result n = .ok (ls, m)) : Acts ls := by
  have hlabel : ∀ label, Acts (Callee.labelCall label args result) := fun label =>
    ⟨⟨0, .call label⟩, by simp [Callee.labelCall], rfl⟩
  cases c with
  | command c =>
    cases h
    exact ⟨_, List.mem_cons_self, rfl⟩
  | function f =>
    cases h
    exact hlabel f.label
  | placeholder q =>
    cases h
    exact hlabel q.label
  | messageBox =>
    simp only [Callee.lines, MessageBox.lines, bind, Except.bind] at h
    split at h
    · cases h
    · split at h <;> cases h
      · exact ⟨_, List.mem_cons_self, rfl⟩
      · exact ⟨_, List.mem_cons_self, rfl⟩

theorem gives_emitLines (c : Callee) (args : List Operand) (result : Option Variable) :
    Gives (emitLines c args result) w fun _ w' => Calls True w w' := by
  unfold emitLines
  refine .read (a := w.declarations) rfl ?_
  refine .bind (.ofExcept (Q := fun r w' => w' = w ∧
    c.lines args result w.declarations.generated = .ok r) fun _ h => ⟨rfl, h⟩) ?_
  rintro ⟨ls, n⟩ _ ⟨rfl, hl⟩
  refine .of_exec (a := ()) rfl ?_
  exact .of_lines rfl rfl (iff_of_true (acts_lines hl) trivial)

theorem gives_emitCall (c : Callee) (args : List Operand) (result : Option Variable) :
    Gives (emitCall c args result) w fun _ w' => Calls True w w' := by
  unfold emitCall
  split
  · exact .bind gives_discarded fun v w₁ h₁ => (gives_emitLines _ _ _).mono fun _ _ h => h₁.before h
  · next v _ =>
    refine .bind (.of_exec (a := ()) rfl (Q := fun _ w' => Calls True w w') ?_) fun _ w₁ h₁ => ?_
    · exact .of_lines rfl rfl (iff_of_true ⟨_, List.mem_cons_self, rfl⟩ trivial)
    refine .bind (gives_emitLines c args _) fun _ w₂ h₂ => ?_
    have hlast : Calls True w₂ (w₂.write [⟨0, .copyUnlessErrors v (.ofInt 0)⟩]) :=
      .of_lines rfl rfl (iff_of_true ⟨_, List.mem_cons_self, rfl⟩ trivial)
    refine .of_exec (a := ()) rfl (((h₁.trans h₂).trans hlast).congr ?_)
    simp only [or_self]
  · dsimp only
    split
    · refine .bind gives_ensureRegister fun _ w₁ h₁ => ?_
      exact (gives_emitLines _ _ _).mono fun _ _ h => h₁.before h
    · exact gives_emitLines _ _ _

section Parts

variable {expression call : Word → Compile Operand}
  {arguments : Callee → Option Variable → Compile (List Operand)}

theorem gives_chain (hcall : ∀ word w, Gives (call word) w fun _ w' => Calls True w w') (n : Nat)
    (left : Operand) : Gives (chain call n left) w fun _ w' => Calls False w w' := by
  induction n generalizing w left with
  | zero =>
    unfold chain
    refine .read (a := w.cursor.tail) rfl ?_
    split
    · exact .pure (.still rfl rfl)
    · exact .fail
  | succ n ih =>
    unfold chain
    refine .read (a := w.cursor.tail) rfl ?_
    split
    · exact .pure (.still rfl rfl)
    refine .bind gives_nextWord ?_
    rintro word _ ⟨cursor, hn, rfl⟩
    refine .read (a := cursor.tail) rfl ?_
    dsimp only
    split
    · next ho =>
      refine .bind (hcall word _) fun right w₂ h₂ => (ih _).mono fun _ w₃ h₃ => ?_
      exact (Calls.word hn (h₂.congr (iff_of_true trivial ho))).before h₃
    · next ho =>
      refine .bind (gives_resolve word) ?_
      rintro right _ rfl
      refine (ih _).mono fun _ w₃ h₃ => Calls.word hn (h₃.congr (iff_of_false id ?_))
      exact ho

theorem gives_concatenation (hcall : ∀ word w, Gives (call word) w fun _ w' => Calls True w w')
    (left : Operand) : Gives (concatenation call left) w fun _ w' => Calls False w w' :=
  .read (a := w.cursor.ahead.length) rfl (gives_chain hcall _ left)

theorem gives_argumentList
    (hexpr : ∀ word w, Gives (expression word) w fun _ w' => Calls (w.cursor.tail.opens = true) w w')
    (n : Nat) : Gives (argumentList expression n) w fun _ w' => Calls False w w' := by
  induction n generalizing w with
  | zero => exact .fail
  | succ n ih =>
    unfold argumentList
    refine .bind gives_nextWord ?_
    rintro word _ ⟨cursor, hn, rfl⟩
    refine .read (a := cursor.tail) rfl ?_
    have hmore : ∀ x w₂, Calls False w w₂ → Gives (do
        let t ← tail
        if (t.separates && !t.isClosing) = true then do
          let xs ← argumentList expression n
          pure (x :: xs)
        else pure [x]) w₂ fun _ w' => Calls False w w' := by
      intro x w₂ h₂
      refine .read (a := w₂.cursor.tail) rfl ?_
      split
      · exact .bind ih fun _ w₃ h₃ => .pure (h₂.before h₃)
      · exact .pure h₂
    dsimp only
    split
    · exact .bind (hexpr word _) fun x w₂ h₂ => hmore x w₂ (Calls.word hn h₂)
    · next ho =>
      refine .bind (gives_resolve word) ?_
      rintro x _ rfl
      refine hmore x _ (Calls.word hn ((Calls.still rfl rfl).congr (iff_of_false id fun h => ho ?_)))
      simp only [h, Bool.true_or]

theorem gives_closeArguments (c : Callee) (args : List Operand) :
    Gives (closeArguments c args) w fun _ w' => Calls False w w' := by
  unfold closeArguments
  refine .read (a := w.cursor.tail) rfl ?_
  dsimp only
  split
  · exact .fail_bind
  refine .bind (.of_exec (a := ()) rfl (Q := fun _ w' => Calls False w w') (.still rfl rfl)) ?_
  intro _ w₁ h₁
  refine .bind (.ofExcept (Q := fun _ w' => w' = w₁) fun _ _ => rfl) ?_
  rintro _ _ rfl
  split
  · refine .read rfl ?_
    refine .bind (.of_exec (a := ()) rfl (Q := fun _ w' => Calls False w w') ?_) fun _ _ h => .pure h
    exact h₁.after (.still rfl rfl)
  · exact .pure h₁

theorem gives_argumentsWith
    (hexpr : ∀ word w, Gives (expression word) w fun _ w' => Calls (w.cursor.tail.opens = true) w w')
    (c : Callee) (result : Option Variable) :
    Gives (argumentsWith expression c result) w fun _ w' => Calls False w w' := by
  rw [argumentsWith_eq]
  dsimp only
  split
  · exact .fail_bind
  · refine .read (a := w.cursor.tail) rfl ?_
    split
    · exact .read (a := []) rfl (gives_closeArguments c [])
    · refine .read (a := w.cursor.ahead.length) rfl ?_
      refine .bind (gives_argumentList hexpr _) fun args w₁ h₁ => ?_
      exact (gives_closeArguments c args).mono fun _ _ h => h₁.before h

theorem gives_callWith
    (hargs : ∀ c result w, Gives (arguments c result) w fun _ w' => Calls False w w')
    (word : Word) (result : Option Variable) :
    Gives (callWith arguments word result) w fun _ w' => Calls True w w' := by
  unfold callWith
  refine .bind (gives_introduce word) fun c w₁ h₁ => ?_
  refine .bind (gives_noteCall word c result) fun _ w₂ h₂ => ?_
  refine .bind (.nested (Q := fun _ w' => Calls False w₂ w') ?_) fun args w₃ h₃ => ?_
  · exact (hargs c result _).mono fun _ _ h _ => h
  · exact (gives_emitCall c args result).mono fun _ _ h => h₁.before (h₂.before (h₃.before h))

theorem gives_heldCall
    (hargs : ∀ c result w, Gives (arguments c result) w fun _ w' => Calls False w w')
    (word : Word) (w : Work) : Gives (heldCall arguments word) w fun _ w' => Calls True w w' := by
  unfold heldCall
  refine .bind gives_declareTemporary fun v w₁ h₁ => ?_
  refine .bind (.of_exec (a := ()) rfl (Q := fun _ w' => Calls False w₁ w') (.still rfl rfl)) ?_
  intro _ w₂ h₂
  exact .bind (gives_callWith hargs word _) fun _ w₃ h₃ => .pure (h₁.before (h₂.before h₃))

end Parts

/-- An expression is called where its first word is; the parentheses of the others are behind words
that it reads. -/
theorem gives_expression_and_arguments (n : Nat) :
    (∀ word w, Gives (expression n word) w fun _ w' => Calls (w.cursor.tail.opens = true) w w') ∧
      ∀ c result w, Gives (arguments n c result) w fun _ w' => Calls False w w' := by
  induction n with
  | zero => exact ⟨fun _ _ => .fail, fun _ _ _ => .fail⟩
  | succ n ih =>
    obtain ⟨hexpr, hargs⟩ := ih
    have hcall := gives_heldCall hargs
    refine ⟨fun word w => ?_, fun c result w => gives_argumentsWith hexpr c result⟩
    refine .nested (.read (a := w.cursor.tail) rfl ?_)
    split
    · next ho =>
      refine .bind (hcall word _) fun x w₁ h₁ => (gives_concatenation hcall x).mono fun _ w₂ h₂ _ => ?_
      exact (h₁.after h₂).congr (iff_of_true trivial ho)
    · next ho =>
      have hnot : False ↔ w.cursor.tail.opens = true := iff_of_false id ho
      split
      · refine .bind (gives_resolve word) ?_
        rintro x _ rfl
        exact (gives_concatenation hcall x).mono fun _ w₂ h₂ _ => h₂.congr hnot
      · refine (gives_resolve word).mono ?_
        rintro x _ rfl _
        exact (Calls.still rfl rfl).congr hnot

theorem gives_value (word : Word) :
    Gives (value word) w fun _ w' => Calls (w.cursor.tail.opens = true) w w' :=
  (gives_expression_and_arguments levels).1 word w

/-! ## Statements -/

/-- All words have been read. -/
def Ends (w : Work) : Prop := w.cursor.ahead = []

theorem ends_of_hasNext (h : ¬w.cursor.hasNext = true) : Ends w := by
  simpa [Cursor.hasNext, Ends] using h

theorem gives_expectEnd : Gives expectEnd w fun _ w' => w' = w ∧ Ends w := by
  unfold expectEnd
  refine .read (a := w.cursor.hasNext) rfl ?_
  split
  · exact .fail
  · next h => exact .pure ⟨rfl, ends_of_hasNext h⟩

theorem gives_written {act : Compile Unit} {Q : Work → Prop} (h : Gives act w fun _ w' => Q w') :
    Gives (written act) w fun r w' => r = .lines w'.lines ∧ Q w' :=
  .bind h fun _ w₁ h₁ => .read (a := w₁) rfl (.pure ⟨rfl, h₁⟩)

/-- A statement that compiles does so by what its first word says. -/
theorem exec_dispatch_of_compile {c : Compiler} {t : Token} {rest : List Token} {r : Compiled}
    (h : (c.compile (t :: rest)).result = .ok r) :
    ∃ w', exec (dispatch t.word t.tail) { compiler := c, cursor := ⟨t.tail, rest⟩ } = (.ok r, w') ∧
      (c.compile (t :: rest)).cursor = w'.cursor := by
  have he : exec statement (c.work (t :: rest)) = (.ok r, (exec statement (c.work (t :: rest))).2) :=
    Prod.ext h rfl
  have hc : (c.work (t :: rest)).cursor.next? = some (t.word, ⟨t.tail, rest⟩) := rfl
  exact ⟨_, (exec_statement hc).symm.trans he, rfl⟩

end Compile

end InstallScript
