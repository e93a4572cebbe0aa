import InstallScript.Compile.Statement
import InstallScript.Proofs.Conditions

/-!
What compiling a statement does. All statements but one go by the steps of a body; the beginning of a
function goes by those of a header, and `Begins` says all that it changes.
-/

namespace InstallScript

/-- The lines that a compiled statement consists of. -/
def Compiled.emitted : Compiled → List Line
  | lines ls => ls
  | verbatim | inclusion _ => []

namespace Compile

variable {p : Phase} {w w' : Work}

/-! ## Variables -/

theorem does_declare {t : String} (hr : Names.isReserved (Text.lower t) = false) :
    Does .body (declare (Text.lower t)) w fun v w' => w'.Sees v := by
  cases hd : w.declarations.declared? (Text.lower t) w.compiler.scope with
  | some v => exact .of_fault (exec_declare_of_some hd)
  | none =>
    have hstep : Reach .body w (w.declare ⟨Text.lower t, w.compiler.scope, none⟩) :=
      .single (.named rfl hr hd)
    exact .of_exec (exec_declare hd) (hstep.tail (.pass rfl rfl)) rfl ⟨List.mem_cons_self, .inr rfl⟩

/-- A name that passes the check is no name of the compiler. -/
theorem does_check (name : String) :
    Does p (ofExcept (Names.check name)) w fun _ w' => w = w' ∧ Names.isReserved name = false :=
  .ofExcept fun _ h => ⟨rfl, Names.check_eq_ok h⟩

theorem does_declareName (word : Word) (hs : w.compiler.Sound) :
    Does .body (declareName word) w fun _ _ => True := by
  have hdeclare : ∀ {w'}, w'.compiler.Sound → Names.isReserved word.name = false →
      Does .body (declare word.name >>= fun _ => pure ()) w' fun _ _ => True :=
    fun hs' hr => .bind hs' (does_declare hr) fun _ _ _ _ _ => .pure trivial
  unfold declareName
  dsimp only
  split
  · exact .fail_bind
  · refine .bind hs (does_check word.name) ?_
    rintro _ _ - - ⟨rfl, hr⟩
    refine .read (a := w.compiler.current) rfl ?_
    split
    · refine .read (a := w.declarations) rfl ?_
      split
      · exact .bind hs (does_note _) fun _ w₁ hs₁ _ _ => hdeclare hs₁ hr
      · exact hdeclare hs hr
    · exact hdeclare hs hr

theorem does_declareNames (n : Nat) (word : Word) (hs : w.compiler.Sound) :
    Does .body (declareNames n word) w fun _ _ => True := by
  induction n generalizing w word with
  | zero => exact does_declareName word hs
  | succ n ih =>
    unfold declareNames
    refine .bind hs (does_declareName word hs) fun _ w₁ hs₁ _ _ => ?_
    refine .read (a := w₁.cursor.hasNext) rfl ?_
    split
    · exact .bind hs₁ does_nextWord fun word' w₂ hs₂ _ _ => ih word' hs₂
    · exact .pure trivial

theorem does_declaration (hs : w.compiler.Sound) : Does .body declaration w fun _ _ => True := by
  unfold declaration
  refine .bind hs does_nextWord fun word w₁ hs₁ _ _ => ?_
  dsimp only
  split
  · refine .bind hs₁ does_nextWord fun word' w₂ hs₂ _ _ => ?_
    exact .read (a := w₂.cursor.ahead.length) rfl (does_declareNames _ word' hs₂)
  · refine .read (a := word) rfl ?_
    exact .read (a := w₁.cursor.ahead.length) rfl (does_declareNames _ word hs₁)

theorem does_assigned {t : String} (hr : Names.isReserved (Text.lower t) = false) :
    Does .body (assigned (Text.lower t)) w fun v w' => w'.Sees v := by
  unfold assigned
  refine .read (a := w.declarations) rfl (.read (a := w.compiler.current) rfl ?_)
  split
  · next v hv =>
    obtain ⟨hm, -, hscope⟩ := Declarations.mem_of_find? hv
    exact .pure ⟨hm, hscope⟩
  · exact does_declare hr

/-- Only variables that can be seen are in a line that gives one of them a value. -/
theorem seen_copy {v : Variable} {x : Operand} {i : Nat} (hv : w.Sees v) (hx : Seen x w) :
    ∀ l ∈ [(⟨i, .copy v x⟩ : Line)], ∀ u ∈ l.instr.vars, w.Sees u := by
  intro l hl u hu
  rw [List.mem_singleton.mp hl] at hu
  rcases List.mem_cons.mp hu with rfl | hu
  · exact hv
  · exact hx u hu

theorem does_assignment (word : Word) (hs : w.compiler.Sound) :
    Does .body (assignment word) w fun _ _ => True := by
  have hcopy : ∀ {v x w'}, w'.compiler.Sound → w'.Sees v → Seen x w' →
      Does .value (expectEnd >>= fun _ => emit [⟨0, .copy v x⟩]) w' fun _ _ => True := by
    intro v x w' hs' hv hx
    refine .bind hs' does_expectEnd ?_
    rintro _ _ - - rfl
    exact does_emit (by decide) (by simp [Instr.isPlain]) (seen_copy hv hx)
  unfold assignment
  dsimp only
  split
  · exact .fail_bind
  refine .bind hs (does_check word.name) ?_
  rintro _ _ - - ⟨rfl, hr⟩
  refine .bind hs (does_assigned hr) fun v w₁ hs₁ _ hv => .ofValue ?_
  refine .bind hs₁ does_nextWord fun head w₂ hs₂ h₂ _ => ?_
  have hv₂ := h₂.sees hv
  refine .read (a := w₂.cursor.tail) rfl ?_
  split
  · refine .bind hs₂ (does_callInto head hs₂ ?_) fun _ w₃ hs₃ h₃ _ => ?_
    · rintro u hu
      cases hu
      exact hv₂
    have hv₃ := h₃.sees hv₂
    refine .read (a := w₃.cursor.tail) rfl ?_
    split
    · exact does_expectEnd.mono fun _ _ _ _ => trivial
    · have hx₃ : Seen (.var v) w₃ := by
        intro u hu
        rw [List.mem_singleton.mp hu]
        exact hv₃
      exact .bind hs₃ (does_valueFrom hs₃ hx₃) fun x w₄ hs₄ h₄ hx => hcopy hs₄ (h₄.sees hv₃) hx
  · split
    · exact .bind hs₂ (does_value head w₂ hs₂) fun x w₃ hs₃ h₃ hx => hcopy hs₃ (h₃.sees hv₂) hx
    · exact .bind hs₂ (does_resolve hs₂ head) fun x w₃ hs₃ h₃ hx => hcopy hs₃ (h₃.sees hv₂) hx

/-! ## Functions -/

/-- The lines a function begins with. -/
def opening (f : Function) : List Line :=
  ⟨0, .functionBegin f.label⟩ :: f.params.reverse.map fun v => ⟨1, .pop v⟩

/-- The lines that declare variables. -/
def declares (vs : List Variable) : List Line := vs.map fun v => ⟨0, .declare v⟩

/-- The function `f` has become `f'` by parameters that were declared meanwhile. -/
structure Grows (w : Work) (f f' : Function) (w' : Work) : Prop where
  function : ∃ vs, f' = { f with params := f.params ++ vs } ∧ w'.lines = w.lines ++ declares vs
  current : w'.compiler.current = w.compiler.current
  callees : ∀ name, w'.declarations.callee? name =
    if name = f.name then some (.function f') else w.declarations.callee? name

theorem Grows.trans {f f' f'' : Function} {w'' : Work} (h : Grows w f f' w')
    (h' : Grows w' f' f'' w'') : Grows w f f'' w'' := by
  obtain ⟨vs, rfl, hl⟩ := h.function
  obtain ⟨us, rfl, hl'⟩ := h'.function
  refine ⟨⟨vs ++ us, by rw [List.append_assoc], ?_⟩, h'.current.trans h.current, fun name => ?_⟩
  · rw [hl', hl, declares, declares, declares, List.map_append, List.append_assoc]
  · rw [h'.callees, h.callees]
    split <;> rfl

/-- The work once a parameter is declared and known to its function. -/
def withParam (w : Work) (f : Function) (v : Variable) : Work :=
  let w₁ : Work := { w.declare v with notes := w.notes ++ [.newVariable v.target] }
  w₁.withDeclarations (w₁.declarations.modifyFunction f.name (·.addParam v))

theorem exec_declare_param {f : Function} {name : String} {k : Variable → Compile α}
    (hd : w.declarations.declared? name w.compiler.scope = none) :
    exec (do
      let v ← declare name
      setDeclarations ((← declarations).modifyFunction f.name (·.addParam v))
      k v) w = exec (k ⟨name, w.compiler.scope, none⟩)
        (withParam w f ⟨name, w.compiler.scope, none⟩) := by
  rw [exec_bind_ok (exec_declare hd)]
  rfl

theorem grows_withParam {f : Function} {v : Variable}
    (hf : w.declarations.callee? f.name = some (.function f)) :
    Grows w f (f.addParam v) (withParam w f v) := by
  refine ⟨⟨[v], rfl, rfl⟩, rfl, fun name => ?_⟩
  have hm : (withParam w f v).declarations =
      (w.declarations.addVariable v).putCallee f.name (.function (f.addParam v)) :=
    Declarations.modifyFunction_of (Declarations.function?_eq_some.mpr hf)
  rw [hm, Declarations.callee?_putCallee, Declarations.callee?_addVariable]

theorem reach_withParam {f : Function} {t : String} (hc : w.compiler.current = some f.name)
    (hf : w.declarations.callee? f.name = some (.function f))
    (hr : Names.isReserved (Text.lower t) = false)
    (hd : w.declarations.declared? (Text.lower t) (.function f.name) = none) :
    Reach .header w (withParam w f ⟨Text.lower t, .function f.name, none⟩) := by
  have hstep : Reach .header w _ := .single (.param rfl hc hf hr hd)
  exact hstep.tail (.pass rfl rfl)

theorem does_parameters (n : Nat) {f : Function} (hs : w.compiler.Sound)
    (hc : w.compiler.current = some f.name)
    (hf : w.declarations.callee? f.name = some (.function f)) :
    Does .header (parameters n f) w (Grows w f) := by
  induction n generalizing w f with
  | zero => exact .fail
  | succ n ih =>
    unfold parameters
    refine .bind hs does_nextWord fun word w₁ hs₁ _ he => ?_
    obtain ⟨cursor, rfl⟩ : ∃ c, w₁ = { w with cursor := c } := ⟨_, he⟩
    dsimp only
    split
    · exact .fail_bind
    refine .bind hs₁ (does_check word.name) ?_
    rintro _ _ - - ⟨rfl, hr⟩
    have hscope : w.compiler.scope = .function f.name := by rw [Compiler.scope, hc]; rfl
    cases hd : w.declarations.declared? word.name w.compiler.scope with
    | some v => exact .of_fault (exec_bind_error (exec_declare_of_some hd))
    | none =>
      have hreach := reach_withParam (w := { w with cursor := cursor }) hc hf hr (hscope ▸ hd)
      have hgrow : Grows w f (f.addParam ⟨word.name, .function f.name, none⟩)
          (withParam { w with cursor := cursor } f ⟨word.name, .function f.name, none⟩) :=
        have h := grows_withParam (w := { w with cursor := cursor }) hf
        ⟨h.function, h.current, h.callees⟩
      refine .resume (exec_declare_param hd) (hscope ▸ hreach) rfl ?_
      show Does _ _ (withParam _ _ ⟨_, w.compiler.scope, _⟩) _
      rw [hscope]
      refine .read (a := cursor.tail) rfl ?_
      split
      · have hs₂ := hreach.sound hs₁
        have hf₂ := (hgrow.callees f.name).trans (if_pos rfl)
        have hmore := ih (f := f.addParam _) hs₂ (hgrow.current.trans hc) hf₂
        exact hmore.mono fun f' w' _ h => hgrow.trans h
      · refine .read (a := cursor.tail) rfl ?_
        split
        · exact .pure hgrow
        · exact .fail

/-- What a header that is right has done. The function `f` is new, unless it was called before; it has
its parameters, and every earlier call fits them. -/
structure Begins (w : Work) (f : Function) (w' : Work) : Prop where
  free : w.declarations.callee? f.name = none ∧ f.earlier = [] ∨
    ∃ q, w.declarations.callee? f.name = some (.placeholder q) ∧ f.earlier = q.calls
  callees : ∀ name, w'.declarations.callee? name =
    if name = f.name then some (.function f) else w.declarations.callee? name
  checked : f.checkEarlier = .ok ()
  lines : w'.lines = w.lines ++ declares f.params ++ opening f

/-- The end of a header, when the parameters of the function are there. -/
def openFunction (f : Function) : Compile Unit := do
  if ← hasNext then fail .wordAfterHeader
  ofExcept f.checkEarlier
  emit (opening f)

theorem does_openFunction {f : Function} (hs : w.compiler.Sound)
    (hc : w.compiler.current = some f.name)
    (hf : w.declarations.callee? f.name = some (.function f)) :
    Does .header (openFunction f) w fun _ w' =>
      w' = w.write (opening f) ∧ f.checkEarlier = .ok () := by
  unfold openFunction
  refine .read (a := w.cursor.hasNext) rfl ?_
  dsimp only
  split
  · exact .fail_bind
  · refine .bind hs (.ofExcept (Q := fun _ w' => w = w' ∧ f.checkEarlier = .ok ())
      fun _ h => ⟨rfl, h⟩) ?_
    rintro _ _ - - ⟨rfl, he⟩
    exact .of_exec (a := ()) rfl (.single (.opened rfl hc hf he)) rfl ⟨rfl, he⟩

/-- The work once the function `f` is declared, with `d` declared in all. -/
def withFunction (w : Work) (f : Function) (d : Declarations) : Work :=
  { w with
    compiler := { w.compiler with declarations := d, current := some f.name }
    notes := w.notes ++ [.newFunction f.label] }

/-- A header from the name of the function on. -/
def header (word : Word) : Compile Unit := do
  let (f, d) ← ofExcept ((← declarations).declareFunction word.name word.text)
  setDeclarations d
  modifyCompiler fun c => { c with current := some word.name }
  note (.newFunction word.text)
  let t ← tail
  let f ← if !t.isEmpty && !t.isClosing then parameters (← wordsAhead) f else pure f
  openFunction f

theorem exec_header {word : Word} {f : Function} {d : Declarations}
    (hd : w.declarations.declareFunction word.name word.text = .ok (f, d)) :
    exec (header word) w = exec (do
      let t ← tail
      let f ← if !t.isEmpty && !t.isClosing then parameters (← wordsAhead) f else pure f
      openFunction f) (withFunction w f d) := by
  obtain ⟨earlier, rfl, -, -⟩ := Declarations.declareFunction_eq_ok hd
  unfold header
  rw [exec_bind_ok (exec_declarations w), hd]
  rfl

theorem begins_of_grows {word : Word} {f f' : Function} {d : Declarations} {w₁ : Work}
    (hd : w.declarations.declareFunction word.name word.text = .ok (f, d))
    (hg : Grows (withFunction w f d) f f' w₁) (he : f'.checkEarlier = .ok ()) :
    Begins w f' (w₁.write (opening f')) := by
  obtain ⟨earlier, rfl, rfl, hfree⟩ := Declarations.declareFunction_eq_ok hd
  obtain ⟨vs, rfl, hl⟩ := hg.function
  refine ⟨?_, fun name => ?_, he, ?_⟩
  · rcases hfree with ⟨hn, rfl⟩ | ⟨q, hq, rfl⟩
    · exact .inl ⟨hn, rfl⟩
    · exact .inr ⟨q, hq, rfl⟩
  · refine (hg.callees name).trans ?_
    show (if _ then _ else (Declarations.putCallee _ _ _).callee? name) = _
    rw [Declarations.callee?_putCallee]
    split <;> rfl
  · show w₁.lines ++ _ = _
    rw [hl]
    rfl

/-- A header behind the name of the function, which has been declared as `f` with `d` in all. -/
theorem does_header_of_declared {word : Word} {f : Function} {d : Declarations}
    (hs : (withFunction w f d).compiler.Sound)
    (hd : w.declarations.declareFunction word.name word.text = .ok (f, d)) :
    Does .header (do
      let t ← tail
      let f ← if !t.isEmpty && !t.isClosing then parameters (← wordsAhead) f else pure f
      openFunction f) (withFunction w f d) fun _ w' => ∃ f, Begins w f w' := by
  obtain ⟨earlier, hf, hput, -⟩ := Declarations.declareFunction_eq_ok hd
  have hname : f.name = word.name := by rw [hf]
  have hcal : (withFunction w f d).declarations.callee? f.name = some (.function f) := by
    show d.callee? f.name = _
    rw [hput, hname]
    exact Declarations.callee?_putCallee.trans (if_pos rfl)
  have hopen : ∀ f' w₂, w₂.compiler.Sound → Grows (withFunction w f d) f f' w₂ →
      Does .header (openFunction f') w₂ fun _ w' => ∃ f, Begins w f w' := by
    intro f' w₂ hs₂ hg
    obtain ⟨vs, rfl, -⟩ := hg.function
    have hcal₂ := (hg.callees f.name).trans (if_pos rfl)
    refine Does.mono (does_openFunction (f := { f with params := f.params ++ vs }) hs₂
      hg.current hcal₂) ?_
    rintro _ _ - ⟨rfl, he⟩
    exact ⟨_, begins_of_grows hd hg he⟩
  refine .read (a := w.cursor.tail) rfl ?_
  dsimp only
  split
  · refine .read (a := w.cursor.ahead.length) rfl ?_
    exact .bind hs (does_parameters _ hs rfl hcal) fun f' w₂ hs₂ _ hg => hopen f' w₂ hs₂ hg
  · refine .read (a := f) rfl (hopen f _ hs ⟨⟨[], ?_, ?_⟩, rfl, fun name => ?_⟩)
    · rw [List.append_nil]
    · exact (List.append_nil _).symm
    · split
      · next h => rw [h]; exact hcal
      · rfl

theorem reach_withFunction {word : Word} {f : Function} {d : Declarations}
    (hc : w.compiler.current = none)
    (hd : w.declarations.declareFunction word.name word.text = .ok (f, d)) :
    Reach .header w (withFunction w f d) := by
  obtain ⟨earlier, hf, -, -⟩ := Declarations.declareFunction_eq_ok hd
  have hstep : Reach .header w { w with compiler := { w.compiler with
      declarations := d, current := some word.name } } := .single (.begun rfl hc hd)
  rw [show word.name = f.name by rw [hf]] at hstep
  exact hstep.tail (.pass rfl rfl)

/-- A name that cannot be declared ends the header at once. -/
theorem exec_header_of_error {word : Word} {e : Fault}
    (hd : w.declarations.declareFunction word.name word.text = .error e) :
    exec (header word) w = (.error e, w) := by
  unfold header
  rw [exec_bind_ok (exec_declarations w), hd]
  rfl

theorem does_header (word : Word) (hs : w.compiler.Sound) (hc : w.compiler.current = none) :
    Does .header (header word) w fun _ w' => ∃ f, Begins w f w' := by
  cases hd : w.declarations.declareFunction word.name word.text with
  | error e => exact .of_fault (exec_header_of_error hd)
  | ok fd =>
    have hreach := reach_withFunction hc hd
    exact .resume (exec_header hd) hreach rfl (does_header_of_declared (hreach.sound hs) hd)

/-- No function begins inside another one. -/
theorem exec_functionBegin_of_some {name : String} (h : w.compiler.current = some name) :
    exec functionBegin w = (.error .nestedFunction, w) := by
  unfold functionBegin
  rw [exec_bind_ok (exec_current w), h]
  rfl

theorem exec_functionBegin (h : w.compiler.current = none) :
    exec functionBegin w = exec (nextWord >>= header) w := by
  unfold functionBegin
  rw [exec_bind_ok (exec_current w), h]
  rfl

theorem does_functionBegin (hs : w.compiler.Sound) :
    Does .header functionBegin w fun _ w' => ∃ f, Begins w f w' := by
  cases hc : w.compiler.current with
  | some name => exact .of_fault (exec_functionBegin_of_some hc)
  | none =>
    refine .resume (exec_functionBegin hc) .refl rfl ?_
    refine .bind hs does_nextWord fun word w₁ hs₁ _ he => ?_
    obtain ⟨cursor, rfl⟩ : ∃ c, w₁ = { w with cursor := c } := ⟨_, he⟩
    refine Does.mono (does_header word hs₁ hc) fun _ w' _ ⟨f, h⟩ => ?_
    exact ⟨f, h.free, h.callees, h.checked, h.lines⟩

theorem does_functionReturn (hs : w.compiler.Sound) :
    Does .body functionReturn w fun _ _ => True := by
  unfold functionReturn
  refine .read (a := w.compiler.current) rfl ?_
  split
  · exact .fail
  · next name hc =>
    refine .read (a := w.cursor.hasNext) rfl ?_
    split
    · have hset : Does .body (setDeclarations (w.declarations.modifyFunction name (·.setReturn))) w
          fun _ _ => True :=
        .of_exec (a := ()) rfl (.single (.returns rfl hc)) rfl trivial
      refine .read (a := w.declarations) rfl (.bind hs hset fun _ w₁ hs₁ _ _ => .ofValue ?_)
      refine .bind hs₁ does_nextWord fun word w₂ hs₂ _ _ => ?_
      refine .bind hs₂ (does_value word w₂ hs₂) fun x w₃ hs₃ _ hx => ?_
      refine .bind hs₃ does_expectEnd ?_
      rintro _ _ - - rfl
      refine .bind hs₃ (does_ensureRegister hs₃) fun _ w₄ _ h₄ hg => ?_
      refine does_emit (by decide) (by simp [Instr.isPlain]) fun l hl v hv => ?_
      rcases List.mem_cons.mp hl with rfl | hl
      · rcases List.mem_cons.mp hv with rfl | hv
        · exact hg
        · exact (hx.mono h₄) v hv
      · rw [List.mem_singleton.mp hl] at hv
        cases hv
    · exact does_emit (by decide) (by simp [Instr.isPlain]) (by simp [Instr.vars])

theorem does_functionEnd (hs : w.compiler.Sound) : Does .body functionEnd w fun _ _ => True := by
  unfold functionEnd
  refine .read (a := w.compiler.current) rfl ?_
  dsimp only
  split
  · exact .fail_bind
  · next hc =>
    have hsome : w.compiler.current.isSome := by
      cases h : w.compiler.current with
      | none =>
        rw [h] at hc
        exact absurd rfl hc
      | some f => rfl
    have hset : Does .body (modifyCompiler fun c => { c with current := none }) w fun _ _ => True :=
      .of_exec (a := ()) rfl (.single (.ended rfl hsome)) rfl trivial
    refine .bind hs hset fun _ w₁ _ _ _ => ?_
    exact does_emit (by decide) (by simp [Instr.isPlain]) (by simp [Instr.vars])

/-! ## Control flow -/

theorem does_branch (word : Word) (hs : w.compiler.Sound) :
    Does .value (branch word) w fun _ _ => True := by
  unfold branch
  split
  · exact .fail
  · refine .bind hs (does_conditions _ hs) fun ts w₁ _ _ ht => does_emit (by decide) ?_ ?_
    · simp [Instr.isPlain]
    · intro l hl v hv
      obtain ⟨t, hm, rfl⟩ := List.mem_map.mp hl
      obtain ⟨x, hx, hv⟩ := List.mem_flatMap.mp hv
      exact ht t hm x hx v hv

theorem does_loop (name : String) (hs : w.compiler.Sound) :
    Does .value (loop name) w fun _ _ => True := by
  unfold loop
  refine .read (a := w.cursor.hasNext) rfl ?_
  split
  · exact does_emit (by decide) (by simp [Instr.isPlain]) (by simp [Instr.vars])
  · refine .bind hs does_nextWord fun word w₁ hs₁ _ _ => ?_
    split
    · exact .fail
    · refine .bind hs₁ (does_condition _ hs₁) fun ts w₂ hs₂ _ ht => ?_
      split
      · next t =>
        refine .read (a := w₂.cursor.hasNext) rfl ?_
        dsimp only
        split
        · exact .fail_bind
        · split
          · exact .fail_bind
          · refine does_emit (by decide) (by simp [Instr.isPlain]) fun l hl v hv => ?_
            rw [List.mem_singleton.mp hl] at hv
            obtain ⟨x, hx, hv⟩ := List.mem_flatMap.mp hv
            exact ht t (List.mem_singleton.mpr rfl) x hx v hv
      · exact .fail

/-! ## All statements -/

theorem exec_written (act : Compile Unit) (w : Work) : exec (written act) w =
    ((exec act w).1.map fun _ => .lines (exec act w).2.lines, (exec act w).2) := by
  unfold written
  rw [exec_bind]
  rcases exec act w with ⟨_ | _, _⟩ <;> rfl

theorem does_written {act : Compile Unit} {Q : Work → Prop} (hs : w.compiler.Sound)
    (h : Does p act w fun _ w' => Q w') :
    Does p (written act) w fun r w' => w'.lines = r.emitted ∧ Q w' := by
  unfold written
  exact .bind hs h fun _ w₁ _ _ hq => .read (a := w₁) rfl (.pure ⟨rfl, hq⟩)

theorem does_command (hs : w.compiler.Sound) (hl : w.lines = []) :
    Does .body command w fun r w' => w'.lines = r.emitted := by
  unfold command
  refine .read (a := w.cursor.hasNext) rfl ?_
  split
  · exact .pure hl
  · refine .bind hs does_nextWord fun word w₁ hs₁ _ h₁ => ?_
    have hl₁ : w₁.lines = [] := by rw [h₁]; exact hl
    split
    · exact .pure hl₁
    · refine .bind hs₁ does_nextWord fun path w₂ _ _ h₂ => ?_
      have hl₂ : w₂.lines = [] := by rw [h₂]; exact hl₁
      refine .read (a := w₂.cursor.hasNext) rfl ?_
      split <;> exact .pure hl₂

/-- Compiles the rest of a statement that begins with `word`. -/
def dispatch (word : Word) (t : Tail) : Compile Compiled :=
  if t.assigns then written (assignment word)
  else if t.opens then written (callInto word none >>= fun _ => expectEnd)
  else if t.command then command
  else match word.name with
    | "var" => written declaration
    | "function" => written functionBegin
    | "return" => written functionReturn
    | "functionend" => written functionEnd
    | "if" | "elseif" => written (branch word)
    | "else" => written (emit [⟨0, .keyword "Else"⟩])
    | "endif" => written (emit [⟨0, .keyword "EndIf"⟩])
    | "do" => written (loop "Do")
    | "loop" => written (loop "Loop")
    | "continue" => written (emit [⟨0, .keyword "Continue"⟩])
    | "break" => written (emit [⟨0, .keyword "Break"⟩])
    | _ => pure .verbatim

theorem exec_statement {word : Word} {cursor : Cursor} (h : w.cursor.next? = some (word, cursor)) :
    exec statement w = exec (dispatch word cursor.tail) { w with cursor := cursor } := by
  have hnext : w.cursor.hasNext = true := by
    unfold Cursor.next? at h
    split at h
    · cases h
    · next hc => rw [Cursor.hasNext, hc]; rfl
  unfold statement
  rw [exec_bind_ok (exec_hasNext w), hnext]
  show exec (nextWord >>= _) w = _
  rw [exec_bind_ok (exec_nextWord h)]
  rfl

theorem exec_statement_of_none (h : w.cursor.next? = none) :
    exec statement w = (.ok .verbatim, w) := by
  have hnext : w.cursor.hasNext = false := by
    unfold Cursor.next? at h
    split at h
    · next hc => rw [Cursor.hasNext, hc]; rfl
    · cases h
  unfold statement
  rw [exec_bind_ok (exec_hasNext w), hnext]
  rfl

/-- All constructs but the beginning of a function go by the steps of a body. -/
theorem does_dispatch (word : Word) (t : Tail) (hs : w.compiler.Sound) (hl : w.lines = []) :
    Does .body (dispatch word t) w (fun r w' => w'.lines = r.emitted) ∨
      (!t.assigns && !t.opens && !t.command) = true ∧ word.name = "function" ∧
        dispatch word t = written functionBegin := by
  have hbody : ∀ {act}, Does .body act w (fun _ _ => True) →
      Does .body (written act) w fun r w' => w'.lines = r.emitted :=
    fun h => (does_written hs h).mono fun _ _ _ h => h.1
  have hplain : ∀ {name}, Does .body (emit [⟨0, .keyword name⟩]) w fun _ _ => True :=
    does_emit (by decide) (by simp [Instr.isPlain]) (by simp [Instr.vars])
  unfold dispatch
  split
  · exact .inl (hbody (does_assignment word hs))
  next ha =>
  split
  · refine .inl (hbody (.ofValue (.bind hs (does_callInto word hs ?_) fun _ _ _ _ _ => ?_)))
    · intro v hv
      cases hv
    · exact does_expectEnd.mono fun _ _ _ _ => trivial
  next ho =>
  split
  · exact .inl (does_command hs hl)
  next hc =>
  split
  · exact .inl (hbody (does_declaration hs))
  · next hn => exact .inr ⟨by simp [ha, ho, hc], hn, rfl⟩
  · exact .inl (hbody (does_functionReturn hs))
  · exact .inl (hbody (does_functionEnd hs))
  · exact .inl (hbody (.ofValue (does_branch word hs)))
  · exact .inl (hbody (.ofValue (does_branch word hs)))
  · exact .inl (hbody hplain)
  · exact .inl (hbody hplain)
  · exact .inl (hbody (.ofValue (does_loop _ hs)))
  · exact .inl (hbody (.ofValue (does_loop _ hs)))
  · exact .inl (hbody hplain)
  · exact .inl (hbody hplain)
  · exact .inl (.pure hl)

/-- Every statement goes by the steps of a body, or begins a function. -/
theorem does_statement (hs : w.compiler.Sound) (hl : w.lines = []) :
    Does .body statement w (fun r w' => w'.lines = r.emitted) ∨
      Does .header statement w fun r w' => w'.lines = r.emitted ∧ ∃ f, Begins w f w' := by
  rcases hc : w.cursor.next? with _ | ⟨word, cursor⟩
  · exact .inl (.of_exec (exec_statement_of_none hc) .refl rfl hl)
  have hpass : ∀ {p}, Reach p w { w with cursor := cursor } := .single (.pass rfl rfl)
  have hs' : ({ w with cursor := cursor } : Work).compiler.Sound := hs
  refine Or.imp (fun h => .resume (exec_statement hc) hpass rfl h)
    (fun h => .resume (exec_statement hc) hpass rfl h) ?_
  rcases does_dispatch word cursor.tail hs' hl with h | ⟨-, -, h⟩
  · exact .inl h
  · rw [h]
    refine .inr ((does_written hs' (does_functionBegin hs')).mono fun _ _ _ h => ?_)
    obtain ⟨hl, f, h⟩ := h
    exact ⟨hl, f, h.free, h.callees, h.checked, h.lines⟩

end Compile

end InstallScript
