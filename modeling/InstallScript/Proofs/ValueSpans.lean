import InstallScript.Proofs.Reading

/-!
The words that a value takes. An item is a word, or a call with its arguments; a value is an item with
others joined to it. `Cursor.Reads` says how the cursor moves over these parts, by nothing but the marks
behind the words, and `Compile.reads_value` that a value moves it so whenever it compiles. Whatever else
is true of the words of a value follows from `Cursor.Reads` by induction.
-/

namespace InstallScript

/-- What is read off the words ahead: an item whose first word has just been read, items that are joined
to what has been read, both of them one after the other, or the arguments of a call. -/
inductive Cursor.Part
  | item
  | chain
  | value
  | arguments

/-- The cursor moves over a part. The parenthesis that ends the arguments of a call is taken off the marks
that are left. -/
inductive Cursor.Reads : Cursor.Part → Cursor → Cursor → Prop
  | word {c : Cursor} (ho : c.tail.opens = false) : Reads .item c c
  | bare {c : Cursor} (ho : c.tail.opens = true) (hc : c.tail.isClosing = true) :
      Reads .item c c.closeOne
  | call {c c' : Cursor} (ho : c.tail.opens = true) (hargs : Reads .arguments c c')
      (hc : c'.tail.isClosing = true) : Reads .item c c'.closeOne
  | stop {c : Cursor} (hc : Compile.continues c.tail = false) : Reads .chain c c
  | join {c c₁ c₂ c₃ : Cursor} {word : Word} (hc : Compile.continues c.tail = true)
      (hn : c.next? = some (word, c₁)) (hitem : Reads .item c₁ c₂) (hmore : Reads .chain c₂ c₃) :
      Reads .chain c c₃
  | value {c c₁ c₂ : Cursor} (hitem : Reads .item c c₁) (hmore : Reads .chain c₁ c₂) : Reads .value c c₂
  | last {c c₁ c₂ : Cursor} {word : Word} (hc : c.tail.isClosing = false)
      (hn : c.next? = some (word, c₁)) (hvalue : Reads .value c₁ c₂)
      (hs : (c₂.tail.separates && !c₂.tail.isClosing) = false) : Reads .arguments c c₂
  | next {c c₁ c₂ c₃ : Cursor} {word : Word} (hc : c.tail.isClosing = false)
      (hn : c.next? = some (word, c₁)) (hvalue : Reads .value c₁ c₂) (hs : c₂.tail.separates = true)
      (hmore : Reads .arguments c₂ c₃) : Reads .arguments c c₃

namespace Cursor

variable {p : Part} {c c' c₁ c₂ : Cursor}

theorem Reads.isClosing_of_arguments (h : c.Reads .arguments c') : c.tail.isClosing = false := by
  cases h with
  | last hc | next hc => exact hc

/-- The marks decide how far a part goes. -/
theorem Reads.unique (h : c.Reads p c₁) (h' : c.Reads p c₂) : c₁ = c₂ := by
  have hnext : ∀ {c c₁ c₂ : Cursor} {word word' : Word}, c.next? = some (word, c₁) →
      c.next? = some (word', c₂) → c₁ = c₂ := by
    intro c c₁ c₂ word word' h h'
    cases h.symm.trans h'
    rfl
  induction h generalizing c₂ with
  | word ho =>
    cases h' with
    | word => rfl
    | bare ho' | call ho' => cases ho.symm.trans ho'
  | bare ho hc =>
    cases h' with
    | word ho' => cases ho.symm.trans ho'
    | bare => rfl
    | call _ hargs => cases hc.symm.trans hargs.isClosing_of_arguments
  | call ho hargs _ ih =>
    cases h' with
    | word ho' => cases ho.symm.trans ho'
    | bare _ hc => cases hc.symm.trans hargs.isClosing_of_arguments
    | call _ hargs' => rw [ih hargs']
  | stop hc =>
    cases h' with
    | stop => rfl
    | join hc' => cases hc.symm.trans hc'
  | join hc hn _ _ ihItem ihMore =>
    cases h' with
    | stop hc' => cases hc.symm.trans hc'
    | join _ hn' hitem hmore =>
      cases hnext hn hn'
      cases ihItem hitem
      exact ihMore hmore
  | value _ _ ihItem ihMore =>
    cases h' with
    | value hitem hmore =>
      cases ihItem hitem
      exact ihMore hmore
  | last _ hn _ hs ih =>
    cases h' with
    | last _ hn' hvalue =>
      cases hnext hn hn'
      exact ih hvalue
    | next _ hn' hvalue hs' hmore =>
      cases hnext hn hn'
      cases ih hvalue
      rw [hs', hmore.isClosing_of_arguments] at hs
      cases hs
  | next _ hn _ hs hmore ihValue ihMore =>
    cases h' with
    | last _ hn' hvalue hs' =>
      cases hnext hn hn'
      cases ihValue hvalue
      rw [hs, hmore.isClosing_of_arguments] at hs'
      cases hs'
    | next _ hn' hvalue _ hmore' =>
      cases hnext hn hn'
      cases ihValue hvalue
      exact ihMore hmore'

end Cursor

namespace Compile

variable {w w' w'' : Work}

/-! ## Actions that read nothing -/

/-- The action gives its result without reading on. -/
def Waits (act : Compile α) : Prop := ∀ w, Gives act w fun _ w' => w'.cursor = w.cursor

namespace Waits

variable {act : Compile α} {k : α → Compile β}

theorem of_exec {a : Work → α} {g : Work → Work} (h : ∀ w, exec act w = (.ok (a w), g w))
    (hg : ∀ w, (g w).cursor = w.cursor) : Waits act :=
  fun w => .of_exec (h w) (hg w)

protected theorem pure (a : α) : Waits (pure a) := fun _ => .pure rfl

protected theorem bind (h : Waits act) (hk : ∀ a, Waits (k a)) : Waits (act >>= k) :=
  fun w => .bind (h w) fun a w₁ h₁ => (hk a w₁).mono fun _ _ h₂ => h₂.trans h₁

theorem ofExcept (r : Except Fault α) : Waits (Compile.ofExcept r) := fun _ => .ofExcept fun _ _ => rfl

end Waits

theorem waits_declarations : Waits declarations := .of_exec exec_declarations fun _ => rfl

theorem waits_setDeclarations (d : Declarations) : Waits (setDeclarations d) :=
  .of_exec (a := fun _ => ()) (fun _ => rfl) fun _ => rfl

theorem waits_emit (ls : List Line) : Waits (emit ls) :=
  .of_exec (a := fun _ => ()) (fun _ => rfl) fun _ => rfl

theorem waits_note (n : Note) : Waits (note n) := .of_exec (a := fun _ => ()) (fun _ => rfl) fun _ => rfl

theorem waits_modifyCompiler (change : Compiler → Compiler) : Waits (modifyCompiler change) :=
  .of_exec (a := fun _ => ()) (fun _ => rfl) fun _ => rfl

theorem waits_get : Waits (get : Compile Work) := .of_exec (a := id) (fun _ => rfl) fun _ => rfl

theorem waits_declare (name : String) : Waits (declare name) :=
  fun _ => (gives_declare name).mono fun _ _ h => h.1

theorem waits_declareTemporary : Waits declareTemporary :=
  .bind waits_declarations fun _ => .bind (waits_setDeclarations _) fun _ => waits_declare _

theorem waits_declareShared (v : Variable) : Waits (declareShared v) :=
  .bind (fun _ => (gives_register _ _).mono fun _ _ h => h.1) fun _ =>
    .bind (waits_emit _) fun _ => .pure _

theorem waits_discarded : Waits discarded := by
  refine .bind waits_get fun w => ?_
  split
  · exact .pure _
  · exact .bind (waits_declareShared _) fun v => .bind (waits_modifyCompiler _) fun _ => .pure _

theorem waits_ensureRegister : Waits ensureRegister := by
  refine .bind waits_get fun w => ?_
  split
  · exact .bind (waits_declareShared _) fun v => waits_modifyCompiler _
  · exact .pure _

theorem waits_introduce (word : Word) : Waits (introduce word) :=
  .bind waits_declarations fun _ => .bind (waits_setDeclarations _) fun _ => .pure _

theorem waits_noteCall (word : Word) (c : Callee) (result : Option Variable) :
    Waits (noteCall word c result) := by
  intro w
  obtain ⟨notes, he⟩ := exec_noteCall (w := w) word c result
  exact .of_exec he rfl

theorem waits_emitLines (c : Callee) (args : List Operand) (result : Option Variable) :
    Waits (emitLines c args result) :=
  .bind waits_declarations fun _ => .bind (.ofExcept _) fun _ =>
    .bind (waits_setDeclarations _) fun _ => waits_emit _

theorem waits_emitCall (c : Callee) (args : List Operand) (result : Option Variable) :
    Waits (emitCall c args result) := by
  unfold emitCall
  split
  · exact .bind waits_discarded fun _ => waits_emitLines c args _
  · exact .bind (waits_emit _) fun _ => .bind (waits_emitLines c args _) fun _ => waits_emit _
  · dsimp only
    split
    · exact .bind waits_ensureRegister fun _ => waits_emitLines c args _
    · exact waits_emitLines c args _

theorem waits_resolve (word : Word) : Waits (resolve word) :=
  fun _ => (gives_resolve word).mono fun _ _ h => congrArg _ h

/-! ## Values -/

section Parts

variable {expression call : Word → Compile Operand}
  {arguments : Callee → Option Variable → Compile (List Operand)}

/-- Words that are called are items. -/
def ReadsItems (call : Word → Compile Operand) : Prop :=
  ∀ word w, w.cursor.tail.opens = true → Gives (call word) w fun _ w' => w.cursor.Reads .item w'.cursor

/-- A word begins a value. -/
def ReadsValues (expression : Word → Compile Operand) : Prop :=
  ∀ word w, Gives (expression word) w fun _ w' => w.cursor.Reads .value w'.cursor

/-- The arguments of a call are read up to the parenthesis that ends them. -/
def ReadsArguments (arguments : Callee → Option Variable → Compile (List Operand)) : Prop :=
  ∀ c result w, w.cursor.tail.opens = true →
    Gives (arguments c result) w fun _ w' => w.cursor.Reads .item w'.cursor

theorem reads_chain (hcall : ReadsItems call) (n : Nat) (left : Operand) (w : Work) :
    Gives (chain call n left) w fun _ w' => w.cursor.Reads .chain w'.cursor := by
  induction n generalizing w left with
  | zero =>
    unfold chain
    refine .read (a := w.cursor.tail) rfl ?_
    split
    · next hstop => exact .pure (.stop (by simpa using hstop))
    · exact .fail
  | succ n ih =>
    unfold chain
    refine .read (a := w.cursor.tail) rfl ?_
    split
    · next hstop => exact .pure (.stop (by simpa using hstop))
    next hcontinues =>
    have hc : continues w.cursor.tail = true := by simpa using hcontinues
    refine .bind gives_nextWord ?_
    rintro word _ ⟨cursor, hn, rfl⟩
    refine .read (a := cursor.tail) rfl ?_
    dsimp only
    split
    · next ho =>
      exact .bind (hcall word _ ho) fun right w₂ h₂ => (ih _ _).mono fun _ w₃ h₃ => .join hc hn h₂ h₃
    · next ho =>
      refine .bind (gives_resolve word) ?_
      rintro right _ rfl
      exact (ih _ _).mono fun _ w₃ h₃ => .join hc hn (.word (by simpa using ho)) h₃

theorem reads_concatenation (hcall : ReadsItems call) (left : Operand) (w : Work) :
    Gives (concatenation call left) w fun _ w' => w.cursor.Reads .chain w'.cursor :=
  .read (a := w.cursor.ahead.length) rfl (reads_chain hcall _ left w)

theorem reads_argumentList (hexpr : ReadsValues expression) (n : Nat) (w : Work)
    (hc : w.cursor.tail.isClosing = false) :
    Gives (argumentList expression n) w fun _ w' => w.cursor.Reads .arguments w'.cursor := by
  induction n generalizing w with
  | zero => exact .fail
  | succ n ih =>
    unfold argumentList
    refine .bind gives_nextWord ?_
    rintro word _ ⟨cursor, hn, rfl⟩
    refine .read (a := cursor.tail) rfl ?_
    have hmore : ∀ x w₂, cursor.Reads .value w₂.cursor → Gives (do
        let t ← tail
        if (t.separates && !t.isClosing) = true then do
          let xs ← argumentList expression n
          pure (x :: xs)
        else pure [x]) w₂ fun _ w' => w.cursor.Reads .arguments w'.cursor := by
      intro x w₂ h₂
      refine .read (a := w₂.cursor.tail) rfl ?_
      split
      · next hs =>
        obtain ⟨hseparates, hclosing⟩ := Bool.and_eq_true_iff.mp hs
        exact .bind (ih w₂ (by simpa using hclosing)) fun _ w₃ h₃ => .pure (.next hc hn h₂ hseparates h₃)
      · next hs => exact .pure (.last hc hn h₂ (Bool.eq_false_iff.mpr hs))
    dsimp only
    split
    · exact .bind (hexpr word _) fun x w₂ h₂ => hmore x w₂ h₂
    · next ho =>
      obtain ⟨hopens, hjoins⟩ := Bool.or_eq_false_iff.mp (Bool.eq_false_iff.mpr ho)
      have hstop : continues cursor.tail = false := by rw [continues, hjoins, Bool.false_and]
      refine .bind (gives_resolve word) ?_
      rintro x _ rfl
      exact hmore x _ (.value (.word hopens) (.stop hstop))

theorem reads_closeArguments {c₀ : Cursor} (c : Callee) (args : List Operand)
    (h : w.cursor.tail.isClosing = true → c₀.Reads .item w.cursor.closeOne) :
    Gives (closeArguments c args) w fun _ w' => c₀.Reads .item w'.cursor := by
  unfold closeArguments
  refine .read (a := w.cursor.tail) rfl ?_
  dsimp only
  split
  · exact .fail_bind
  next hc =>
  refine .bind (.of_exec (a := ()) rfl (Q := fun _ w' => c₀.Reads .item w'.cursor)
    (h (by simpa using hc))) fun _ w₁ h₁ => ?_
  refine .bind (Waits.ofExcept _ w₁) fun _ w₂ h₂ => ?_
  split
  · refine .bind (waits_declarations w₂) fun d w₃ h₃ => ?_
    refine .bind (waits_setDeclarations _ w₃) fun _ w₄ h₄ => .pure ?_
    rw [h₄, h₃, h₂]
    exact h₁
  · exact .pure (h₂ ▸ h₁)

theorem reads_argumentsWith (hexpr : ReadsValues expression) :
    ReadsArguments (argumentsWith expression) := by
  intro c result w ho
  rw [argumentsWith_eq]
  dsimp only
  split
  · exact .fail_bind
  refine .read (a := w.cursor.tail) rfl ?_
  split
  · next hc => exact .read (a := []) rfl (reads_closeArguments c [] fun _ => .bare ho hc)
  · next hc =>
    refine .read (a := w.cursor.ahead.length) rfl ?_
    refine .bind (reads_argumentList hexpr _ w (by simpa using hc)) fun args w₁ h₁ => ?_
    exact reads_closeArguments c args fun hclosing => .call ho h₁ hclosing

theorem reads_callWith (hargs : ReadsArguments arguments) (word : Word) (result : Option Variable)
    (w : Work) (ho : w.cursor.tail.opens = true) :
    Gives (callWith arguments word result) w fun _ w' => w.cursor.Reads .item w'.cursor := by
  unfold callWith
  refine .bind (waits_introduce word w) fun c w₁ h₁ => ?_
  refine .bind (waits_noteCall word c result w₁) fun _ w₂ h₂ => ?_
  have hcursor : w₂.cursor = w.cursor := h₂.trans h₁
  refine .bind (.nested (Q := fun _ w' => w.cursor.Reads .item w'.cursor) ?_) fun args w₃ h₃ => ?_
  · rw [← hcursor] at ho ⊢
    exact (hargs c result (w₂.atDepth (w₂.compiler.depth + 1)) ho).mono fun _ _ h _ => h
  · exact (waits_emitCall c args result w₃).mono fun _ w₄ h₄ => h₄ ▸ h₃

theorem reads_heldCall (hargs : ReadsArguments arguments) : ReadsItems (heldCall arguments) := by
  intro word w ho
  unfold heldCall
  refine .bind (waits_declareTemporary w) fun v w₁ h₁ => ?_
  refine .bind (waits_note _ w₁) fun _ w₂ h₂ => ?_
  have hcursor : w₂.cursor = w.cursor := h₂.trans h₁
  rw [← hcursor] at ho ⊢
  exact .bind (reads_callWith hargs word _ w₂ ho) fun _ w₃ h₃ => .pure h₃

end Parts

theorem reads_expression_and_arguments (n : Nat) :
    ReadsValues (expression n) ∧ ReadsArguments (arguments n) := by
  induction n with
  | zero => exact ⟨fun _ _ => .fail, fun _ _ _ _ => .fail⟩
  | succ n ih =>
    have hcall := reads_heldCall ih.2
    refine ⟨fun word w => .nested (.read (a := w.cursor.tail) rfl ?_), reads_argumentsWith ih.1⟩
    split
    · next ho =>
      refine .bind (hcall word _ ho) fun x w₁ h₁ => ?_
      exact (reads_concatenation hcall x w₁).mono fun _ w₂ h₂ _ => .value h₁ h₂
    · next ho =>
      have hword : w.cursor.Reads .item w.cursor := .word (by simpa using ho)
      split
      · refine .bind (gives_resolve word) ?_
        rintro x _ rfl
        exact (reads_concatenation hcall x _).mono fun _ w₂ h₂ _ => .value hword h₂
      · next hj =>
        refine (gives_resolve word).mono ?_
        rintro x _ rfl _
        exact .value hword (.stop (by simp [continues, hj]))

theorem reads_value : ReadsValues value := (reads_expression_and_arguments levels).1

theorem reads_callInto (word : Word) (result : Option Variable) (w : Work)
    (ho : w.cursor.tail.opens = true) :
    Gives (callInto word result) w fun _ w' => w.cursor.Reads .item w'.cursor :=
  reads_callWith (reads_expression_and_arguments levels).2 word result w ho

theorem reads_valueFrom (left : Operand) (w : Work) :
    Gives (valueFrom left) w fun _ w' => w.cursor.Reads .chain w'.cursor :=
  reads_concatenation (reads_heldCall (reads_expression_and_arguments levels).2) left w

end Compile

end InstallScript
