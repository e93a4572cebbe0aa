import InstallScript.Proofs.Statements

/-!
Nesting and words, whatever comes of an action. The levels that are gone down while a value or a
condition is compiled are gone up again, also where a fault ends it in the midst (`Balanced`), and words
are only taken off those ahead. Both hold of each part of the compiler in every state, be it one that a
run can reach or not.
-/

namespace InstallScript

/-- From `w` to `w'` all levels of nesting have been left again, and no word has been put back. -/
structure Work.Level (w w' : Work) : Prop where
  depth : w'.compiler.depth = w.compiler.depth
  words : w'.cursor.ahead.length ≤ w.cursor.ahead.length

theorem Work.Level.trans {w w' w'' : Work} (h : w.Level w') (h' : w'.Level w'') : w.Level w'' :=
  ⟨h'.depth.trans h.depth, Nat.le_trans h'.words h.words⟩

namespace Compile

/-- However the action ends, it ends at the depth of nesting it began at, with no more words ahead. -/
def Balanced (act : Compile α) : Prop := ∀ w : Work, w.Level (exec act w).2

namespace Balanced

variable {act : Compile α} {k : α → Compile β}

/-- Neither the depth nor the words ahead are touched, as in looking at the state or writing lines. -/
theorem still (h : ∀ w, (exec act w).2.compiler.depth = w.compiler.depth ∧
    (exec act w).2.cursor.ahead = w.cursor.ahead) : Balanced act :=
  fun w => ⟨(h w).1, by simp only [(h w).2, Nat.le_refl]⟩

protected theorem pure (a : α) : Balanced (pure a : Compile α) :=
  still fun _ => ⟨rfl, rfl⟩

protected theorem fail (f : Fault) : Balanced (fail f : Compile α) :=
  still fun _ => ⟨rfl, rfl⟩

theorem fail_bind (f : Fault) : Balanced (Compile.fail f >>= k) :=
  still fun w => by
    rw [exec_bind_error (exec_fail f w)]
    exact ⟨rfl, rfl⟩

theorem ofExcept (r : Except Fault α) : Balanced (Compile.ofExcept r) :=
  still fun w => by
    rw [exec_ofExcept]
    exact ⟨rfl, rfl⟩

protected theorem bind (h : Balanced act) (hk : ∀ a, Balanced (k a)) : Balanced (act >>= k) := by
  intro w
  have hw := h w
  rw [exec_bind]
  match hact : exec act w with
  | (.ok a, w') =>
    rw [hact] at hw
    exact hw.trans (hk a w')
  | (.error f, w') =>
    rw [hact] at hw
    exact hw

/-- The way back up is gone also when `act` fails. -/
theorem nested (h : Balanced act) : Balanced (nested act) := by
  intro w
  by_cases hd : w.compiler.depth < maxNesting
  · rw [exec_nested act hd]
    obtain ⟨hdepth, hwords⟩ := h (w.atDepth (w.compiler.depth + 1))
    refine ⟨?_, hwords⟩
    show _ - 1 = _
    rw [hdepth]
    rfl
  · rw [exec_nested_of_le act (Nat.le_of_not_lt hd)]
    exact ⟨rfl, Nat.le_refl _⟩

end Balanced

/-! ## Words and variables -/

theorem balanced_get : Balanced (get : Compile Work) := .still fun _ => ⟨rfl, rfl⟩

theorem balanced_declarations : Balanced declarations := .still fun _ => ⟨rfl, rfl⟩

theorem balanced_current : Balanced current := .still fun _ => ⟨rfl, rfl⟩

theorem balanced_scope : Balanced scope := .still fun _ => ⟨rfl, rfl⟩

theorem balanced_tail : Balanced tail := .still fun _ => ⟨rfl, rfl⟩

theorem balanced_hasNext : Balanced hasNext := .still fun _ => ⟨rfl, rfl⟩

theorem balanced_wordsAhead : Balanced wordsAhead := .still fun _ => ⟨rfl, rfl⟩

theorem balanced_closeOne : Balanced closeOne := .still fun _ => ⟨rfl, rfl⟩

theorem balanced_note (n : Note) : Balanced (note n) := .still fun _ => ⟨rfl, rfl⟩

theorem balanced_emit (ls : List Line) : Balanced (emit ls) := .still fun _ => ⟨rfl, rfl⟩

theorem balanced_modifyCompiler {change : Compiler → Compiler}
    (h : ∀ c, (change c).depth = c.depth) : Balanced (modifyCompiler change) :=
  .still fun w => ⟨h w.compiler, rfl⟩

theorem balanced_setDeclarations (d : Declarations) : Balanced (setDeclarations d) :=
  balanced_modifyCompiler fun _ => rfl

theorem balanced_nextWord : Balanced nextWord := by
  intro w
  match h : w.cursor.ahead with
  | [] =>
    rw [exec_nextWord_nil h]
    exact ⟨rfl, Nat.le_refl _⟩
  | t :: ts =>
    rw [exec_nextWord_cons h]
    refine ⟨rfl, ?_⟩
    rw [h]
    exact Nat.le_succ _

theorem balanced_expectEnd : Balanced expectEnd := by
  refine .bind balanced_hasNext fun b => ?_
  split
  · exact .fail _
  · exact .pure _

theorem balanced_register (name : String) (scope : Scope) : Balanced (register name scope) :=
  .bind balanced_declarations fun _ => .bind (.ofExcept _) fun _ =>
    .bind (balanced_setDeclarations _) fun _ => .pure _

theorem balanced_declare (name : String) : Balanced (declare name) :=
  .bind balanced_scope fun scope => .bind (balanced_register name scope) fun _ =>
    .bind (balanced_note _) fun _ => .bind (balanced_emit _) fun _ => .pure _

theorem balanced_declareTemporary : Balanced declareTemporary :=
  .bind balanced_declarations fun _ => .bind (balanced_setDeclarations _) fun _ => balanced_declare _

theorem balanced_declareShared (v : Variable) : Balanced (declareShared v) :=
  .bind (balanced_register v.name .global) fun _ => .bind (balanced_emit _) fun _ => .pure _

theorem balanced_discarded : Balanced discarded := by
  refine .bind balanced_get fun w => ?_
  split
  · exact .pure _
  · exact .bind (balanced_declareShared _) fun _ =>
      .bind (balanced_modifyCompiler fun _ => rfl) fun _ => .pure _

theorem balanced_ensureRegister : Balanced ensureRegister := by
  refine .bind balanced_get fun w => ?_
  split
  · exact .bind (balanced_declareShared _) fun _ => balanced_modifyCompiler fun _ => rfl
  · exact .pure _

theorem balanced_lookup (name : String) : Balanced (lookup name) :=
  .bind balanced_declarations fun _ => .bind balanced_current fun _ => .ofExcept _

/-! ## Values -/

theorem balanced_resolve (word : Word) : Balanced (resolve word) := by
  unfold resolve
  split
  · exact .bind (balanced_lookup _) fun _ => .pure _
  · exact .pure _

theorem balanced_introduce (word : Word) : Balanced (introduce word) :=
  .bind balanced_declarations fun _ => .bind (balanced_setDeclarations _) fun _ => .pure _

theorem balanced_noteCall (word : Word) (c : Callee) (result : Option Variable) :
    Balanced (noteCall word c result) :=
  .still fun w => by
    obtain ⟨notes, he⟩ := exec_noteCall (w := w) word c result
    rw [he]
    exact ⟨rfl, rfl⟩

theorem balanced_emitLines (c : Callee) (args : List Operand) (result : Option Variable) :
    Balanced (emitLines c args result) :=
  .bind balanced_declarations fun _ => .bind (.ofExcept _) fun _ =>
    .bind (balanced_setDeclarations _) fun _ => balanced_emit _

theorem balanced_emitCall (c : Callee) (args : List Operand) (result : Option Variable) :
    Balanced (emitCall c args result) := by
  unfold emitCall
  split
  · exact .bind balanced_discarded fun _ => balanced_emitLines c args _
  · exact .bind (balanced_emit _) fun _ => .bind (balanced_emitLines c args _) fun _ => balanced_emit _
  · dsimp only
    split
    · exact .bind balanced_ensureRegister fun _ => balanced_emitLines c args _
    · exact balanced_emitLines c args _

theorem balanced_closeArguments (c : Callee) (args : List Operand) :
    Balanced (closeArguments c args) := by
  refine .bind balanced_tail fun t => ?_
  dsimp only
  split
  · exact .fail_bind _
  refine .bind balanced_closeOne fun _ => .bind (.ofExcept _) fun _ => ?_
  split
  · exact .bind balanced_declarations fun _ => .bind (balanced_setDeclarations _) fun _ => .pure _
  · exact .pure _

section Parts

variable {expression call : Word → Compile Operand}
  {arguments : Callee → Option Variable → Compile (List Operand)}

theorem balanced_callWith (hargs : ∀ c result, Balanced (arguments c result)) (word : Word)
    (result : Option Variable) : Balanced (callWith arguments word result) :=
  .bind (balanced_introduce word) fun c => .bind (balanced_noteCall word c result) fun _ =>
    .bind (.nested (hargs c result)) fun args => balanced_emitCall c args result

theorem balanced_heldCall (hargs : ∀ c result, Balanced (arguments c result)) (word : Word) :
    Balanced (heldCall arguments word) :=
  .bind balanced_declareTemporary fun v => .bind (balanced_note _) fun _ =>
    .bind (balanced_callWith hargs word (some v)) fun _ => .pure _

theorem balanced_chain (hcall : ∀ word, Balanced (call word)) (n : Nat) (left : Operand) :
    Balanced (chain call n left) := by
  induction n generalizing left with
  | zero =>
    refine .bind balanced_tail fun t => ?_
    split
    · exact .pure _
    · exact .fail _
  | succ n ih =>
    refine .bind balanced_tail fun t => ?_
    split
    · exact .pure _
    refine .bind balanced_nextWord fun word => .bind balanced_tail fun t => ?_
    dsimp only
    split
    · exact .bind (hcall word) fun right => ih _
    · exact .bind (balanced_resolve word) fun right => ih _

theorem balanced_concatenation (hcall : ∀ word, Balanced (call word)) (left : Operand) :
    Balanced (concatenation call left) :=
  .bind balanced_wordsAhead fun n => balanced_chain hcall n left

theorem balanced_argumentList (hexpr : ∀ word, Balanced (expression word)) (n : Nat) :
    Balanced (argumentList expression n) := by
  induction n with
  | zero => exact .fail _
  | succ n ih =>
    have hmore : ∀ x : Operand, Balanced (do
        let t ← tail
        if (t.separates && !t.isClosing) = true then do
          let xs ← argumentList expression n
          pure (x :: xs)
        else pure [x]) := by
      intro x
      refine .bind balanced_tail fun t => ?_
      split
      · exact .bind ih fun _ => .pure _
      · exact .pure _
    refine .bind balanced_nextWord fun word => .bind balanced_tail fun t => ?_
    dsimp only
    split
    · exact .bind (hexpr word) hmore
    · exact .bind (balanced_resolve word) hmore

theorem balanced_argumentsWith (hexpr : ∀ word, Balanced (expression word)) (c : Callee)
    (result : Option Variable) : Balanced (argumentsWith expression c result) := by
  rw [argumentsWith_eq]
  dsimp only
  split
  · exact .fail_bind _
  refine .bind balanced_tail fun t => ?_
  split
  · exact .bind (.pure _) fun args => balanced_closeArguments c args
  · exact .bind balanced_wordsAhead fun n => .bind (balanced_argumentList hexpr n) fun args =>
      balanced_closeArguments c args

end Parts

theorem balanced_expression_and_arguments (n : Nat) :
    (∀ word, Balanced (expression n word)) ∧ ∀ c result, Balanced (arguments n c result) := by
  induction n with
  | zero => exact ⟨fun _ => .fail _, fun _ _ => .fail _⟩
  | succ n ih =>
    obtain ⟨hexpr, hargs⟩ := ih
    have hcall := balanced_heldCall hargs
    refine ⟨fun word => .nested (.bind balanced_tail fun t => ?_), balanced_argumentsWith hexpr⟩
    split
    · exact .bind (hcall word) (balanced_concatenation hcall)
    split
    · exact .bind (balanced_resolve word) (balanced_concatenation hcall)
    · exact balanced_resolve word

theorem balanced_value (word : Word) : Balanced (value word) :=
  (balanced_expression_and_arguments levels).1 word

theorem balanced_callInto (word : Word) (result : Option Variable) :
    Balanced (callInto word result) :=
  balanced_callWith (balanced_expression_and_arguments levels).2 word result

theorem balanced_valueFrom (left : Operand) : Balanced (valueFrom left) :=
  balanced_concatenation (balanced_heldCall (balanced_expression_and_arguments levels).2) left

/-! ## Conditions -/

theorem balanced_openTerm (o : Opener) : Balanced (openTerm o) := by
  refine .bind balanced_nextWord fun word => ?_
  split
  · exact .bind balanced_nextWord fun word => .bind (balanced_value word) fun _ => .pure _
  · exact .bind (balanced_value word) fun _ => .pure _

theorem balanced_moreTerms (n : Nat) (ts : List Term) (opened : List Nat) :
    Balanced (moreTerms n ts opened) := by
  fun_induction moreTerms n ts opened with
  | case1 ts => exact .pure _
  | case2 ts i outer =>
    refine .bind balanced_tail fun t => ?_
    split
    · exact .fail _
    · exact .pure _
  | case3 n ts i outer ihCompare ihOpen ihLeft =>
    refine .bind balanced_tail fun t => ?_
    split
    · next r _ =>
      refine .bind balanced_hasNext fun b => ?_
      dsimp only
      split
      · exact .fail_bind _
      exact .bind balanced_nextWord fun word => .bind (balanced_value word) fun x => ihCompare r x
    · refine .bind balanced_hasNext fun b => ?_
      split
      · exact .pure _
      refine .bind balanced_nextWord fun word => ?_
      split
      · next o _ => exact .bind (balanced_openTerm o) fun t => ihOpen t
      · exact .bind (balanced_value word) fun x => ihLeft x

theorem balanced_condition (o : Opener) : Balanced (condition o) :=
  .nested (.bind (balanced_openTerm o) fun _ => .bind balanced_wordsAhead fun n =>
    balanced_moreTerms n _ _)

theorem balanced_moreConditions (n : Nat) : Balanced (moreConditions n) := by
  induction n with
  | zero => exact .pure _
  | succ n ih =>
    refine .bind balanced_hasNext fun b => ?_
    split
    · exact .pure _
    refine .bind balanced_nextWord fun word => ?_
    split
    · next o _ => exact .bind (balanced_condition o) fun _ => .bind ih fun _ => .pure _
    · exact .fail _

theorem balanced_conditions (o : Opener) : Balanced (conditions o) :=
  .bind (balanced_condition o) fun _ => .bind balanced_wordsAhead fun n =>
    .bind (balanced_moreConditions n) fun _ => .pure _

/-! ## Statements -/

theorem balanced_declareName (word : Word) : Balanced (declareName word) := by
  have hdeclare : Balanced (declare word.name >>= fun _ => pure ()) :=
    .bind (balanced_declare word.name) fun _ => .pure ()
  unfold declareName
  dsimp only
  split
  · exact .fail_bind _
  refine .bind (.ofExcept _) fun _ => .bind balanced_current fun f => ?_
  split
  · refine .bind balanced_declarations fun d => ?_
    split
    · exact .bind (balanced_note _) fun _ => hdeclare
    · exact hdeclare
  · exact hdeclare

theorem balanced_declareNames (n : Nat) (word : Word) : Balanced (declareNames n word) := by
  induction n generalizing word with
  | zero => exact balanced_declareName word
  | succ n ih =>
    refine .bind (balanced_declareName word) fun _ => .bind balanced_hasNext fun b => ?_
    split
    · exact .bind balanced_nextWord ih
    · exact .pure ()

theorem balanced_declaration : Balanced declaration := by
  refine .bind balanced_nextWord fun word => ?_
  dsimp only
  split
  · exact .bind balanced_nextWord fun word => .bind balanced_wordsAhead fun n =>
      balanced_declareNames n word
  · exact .bind (.pure word) fun word => .bind balanced_wordsAhead fun n =>
      balanced_declareNames n word

theorem balanced_assigned (name : String) : Balanced (assigned name) := by
  refine .bind balanced_declarations fun d => .bind balanced_current fun f => ?_
  split
  · exact .pure _
  · exact balanced_declare name

/-- The end of an assignment that copies the operand `x`. -/
theorem balanced_copy (v : Variable) (x : Operand) :
    Balanced (expectEnd >>= fun _ => emit [⟨0, .copy v x⟩]) :=
  .bind balanced_expectEnd fun _ => balanced_emit _

theorem balanced_assignment (word : Word) : Balanced (assignment word) := by
  unfold assignment
  dsimp only
  split
  · exact .fail_bind _
  refine .bind (.ofExcept _) fun _ => .bind (balanced_assigned _) fun v =>
    .bind balanced_nextWord fun word => .bind balanced_tail fun t => ?_
  split
  · refine .bind (balanced_callInto word (some v)) fun _ => .bind balanced_tail fun t => ?_
    split
    · exact balanced_expectEnd
    · exact .bind (balanced_valueFrom _) (balanced_copy v)
  · split
    · exact .bind (balanced_value word) (balanced_copy v)
    · exact .bind (balanced_resolve word) (balanced_copy v)

theorem balanced_parameters (n : Nat) (f : Function) : Balanced (parameters n f) := by
  induction n generalizing f with
  | zero => exact .fail _
  | succ n ih =>
    refine .bind balanced_nextWord fun word => ?_
    dsimp only
    split
    · exact .fail_bind _
    refine .bind (.ofExcept _) fun _ => .bind (balanced_declare _) fun v =>
      .bind balanced_declarations fun _ => .bind (balanced_setDeclarations _) fun _ =>
        .bind balanced_tail fun t => ?_
    split
    · exact ih _
    refine .bind balanced_tail fun t => ?_
    split
    · exact .pure _
    · exact .fail _

theorem balanced_openFunction (f : Function) : Balanced (openFunction f) := by
  refine .bind balanced_hasNext fun b => ?_
  dsimp only
  split
  · exact .fail_bind _
  · exact .bind (.ofExcept _) fun _ => balanced_emit _

theorem balanced_functionBegin : Balanced functionBegin := by
  refine .bind balanced_current fun f => ?_
  dsimp only
  split
  · exact .fail_bind _
  refine .bind balanced_nextWord fun word => .bind balanced_declarations fun d =>
    .bind (.ofExcept _) fun fd => .bind (balanced_setDeclarations _) fun _ =>
      .bind (balanced_modifyCompiler fun _ => rfl) fun _ => .bind (balanced_note _) fun _ =>
        .bind balanced_tail fun t => ?_
  split
  · exact .bind balanced_wordsAhead fun n => .bind (balanced_parameters n _) balanced_openFunction
  · exact .bind (.pure _) balanced_openFunction

theorem balanced_functionReturn : Balanced functionReturn := by
  refine .bind balanced_current fun f => ?_
  split
  · exact .fail _
  refine .bind balanced_hasNext fun b => ?_
  split
  · exact .bind balanced_declarations fun _ => .bind (balanced_setDeclarations _) fun _ =>
      .bind balanced_nextWord fun word => .bind (balanced_value word) fun _ =>
        .bind balanced_expectEnd fun _ => .bind balanced_ensureRegister fun _ => balanced_emit _
  · exact balanced_emit _

theorem balanced_functionEnd : Balanced functionEnd := by
  refine .bind balanced_current fun f => ?_
  dsimp only
  split
  · exact .fail_bind _
  · exact .bind (balanced_modifyCompiler fun _ => rfl) fun _ => balanced_emit _

theorem balanced_branch (word : Word) : Balanced (branch word) := by
  unfold branch
  split
  · exact .fail _
  · next o _ => exact .bind (balanced_conditions o) fun _ => balanced_emit _

theorem balanced_loop (name : String) : Balanced (loop name) := by
  refine .bind balanced_hasNext fun b => ?_
  split
  · exact balanced_emit _
  refine .bind balanced_nextWord fun word => ?_
  split
  · exact .fail _
  next o _ =>
  refine .bind (balanced_condition o) fun ts => ?_
  split
  · refine .bind balanced_hasNext fun b => ?_
    dsimp only
    split
    · exact .fail_bind _
    split
    · exact .fail_bind _
    · exact balanced_emit _
  · exact .fail _

theorem balanced_command : Balanced command := by
  refine .bind balanced_hasNext fun b => ?_
  split
  · exact .pure _
  refine .bind balanced_nextWord fun word => ?_
  split
  · exact .pure _
  refine .bind balanced_nextWord fun path => .bind balanced_hasNext fun b => ?_
  split <;> exact .pure _

theorem balanced_written {act : Compile Unit} (h : Balanced act) : Balanced (written act) :=
  .bind h fun _ => .bind balanced_get fun _ => .pure _

theorem balanced_dispatch (word : Word) (t : Tail) : Balanced (dispatch word t) := by
  unfold dispatch
  split
  · exact balanced_written (balanced_assignment word)
  split
  · exact balanced_written (.bind (balanced_callInto word none) fun _ => balanced_expectEnd)
  split
  · exact balanced_command
  split
  · exact balanced_written balanced_declaration
  · exact balanced_written balanced_functionBegin
  · exact balanced_written balanced_functionReturn
  · exact balanced_written balanced_functionEnd
  · exact balanced_written (balanced_branch word)
  · exact balanced_written (balanced_branch word)
  · exact balanced_written (balanced_emit _)
  · exact balanced_written (balanced_emit _)
  · exact balanced_written (balanced_loop _)
  · exact balanced_written (balanced_loop _)
  · exact balanced_written (balanced_emit _)
  · exact balanced_written (balanced_emit _)
  · exact .pure _

theorem balanced_statement : Balanced statement := by
  refine .bind balanced_hasNext fun b => ?_
  split
  · exact .pure _
  · exact .bind balanced_nextWord fun word => .bind balanced_tail fun t => balanced_dispatch word t

end Compile

end InstallScript
