import InstallScript.Proofs.Does

/-!
What compiling a value does. Every operand it gives reads only variables that can be seen, and every
call it writes to a function is one that the function accepts, or that is remembered for it.
-/

namespace InstallScript.Compile

variable {p : Phase} {w : Work}

/-! ## Words, notes and lines -/

theorem exec_nextWord {word : Word} {cursor : Cursor} (h : w.cursor.next? = some (word, cursor)) :
    exec nextWord w = (.ok word, { w with cursor := cursor }) := by
  unfold nextWord
  rw [exec_bind_ok (exec_get w)]
  simp only [h]
  rfl

theorem exec_nextWord_of_none (h : w.cursor.next? = none) :
    exec nextWord w = (.error .endOfStatement, w) := by
  unfold nextWord
  rw [exec_bind_ok (exec_get w)]
  simp only [h]
  exact exec_fail _ _

theorem exec_nextWord_cons {x : Word} {t : Tail} {rest : List Token}
    (h : w.cursor.ahead = ⟨x, t⟩ :: rest) :
    exec nextWord w = (.ok x, { w with cursor := ⟨t, rest⟩ }) :=
  exec_nextWord (by rw [Cursor.next?, h])

theorem exec_nextWord_nil (h : w.cursor.ahead = []) :
    exec nextWord w = (.error .endOfStatement, w) :=
  exec_nextWord_of_none (by rw [Cursor.next?, h])

/-- Reading on changes the cursor alone. -/
theorem does_nextWord : Does p nextWord w fun _ w' => w' = { w with cursor := w'.cursor } := by
  rcases hc : w.cursor.next? with _ | ⟨word, cursor⟩
  · exact .of_fault (exec_nextWord_of_none hc)
  · exact .of_exec (exec_nextWord hc) (.single (.pass rfl rfl)) rfl rfl

theorem does_closeOne : Does p closeOne w fun _ w' => w'.compiler = w.compiler :=
  .of_exec (a := ()) rfl (.single (.pass rfl rfl)) rfl rfl

theorem does_note (n : Note) : Does p (note n) w fun _ w' => w'.compiler = w.compiler :=
  .of_exec (a := ()) rfl (.single (.pass rfl rfl)) rfl rfl

theorem does_expectEnd : Does p expectEnd w fun _ w' => w' = w := by
  unfold expectEnd
  refine .read (a := w.cursor.hasNext) rfl ?_
  split
  · exact .fail
  · exact .pure rfl

theorem does_emit {ls : List Line} (hp : p ≠ .header) (hl : ∀ l ∈ ls, l.instr.isPlain)
    (hv : ∀ l ∈ ls, ∀ v ∈ l.instr.vars, w.Sees v) : Does p (emit ls) w fun _ _ => True :=
  .of_exec (a := ()) rfl (.single (.write hp hl hv)) rfl trivial

/-! ## Variables -/

theorem exec_register {name : String} {scope : Scope}
    (h : w.declarations.declared? name scope = none) :
    exec (register name scope) w = (.ok ⟨name, scope, none⟩,
      w.withDeclarations (w.declarations.addVariable ⟨name, scope, none⟩)) := by
  unfold register
  rw [exec_bind_ok (exec_declarations w),
    Declarations.declare_of_none h]
  rfl

theorem exec_register_of_some {name : String} {scope : Scope} {v : Variable}
    (h : w.declarations.declared? name scope = some v) :
    exec (register name scope) w = (.error (.duplicate name scope), w) := by
  unfold register
  rw [exec_bind_ok (exec_declarations w)]
  simp only [Declarations.declare, h]
  rfl

/-- A variable declared here goes to the scope of the statement. -/
theorem exec_declare {name : String} (h : w.declarations.declared? name w.compiler.scope = none) :
    exec (declare name) w = (.ok ⟨name, w.compiler.scope, none⟩,
      { w.declare ⟨name, w.compiler.scope, none⟩ with
        notes := w.notes ++ [.newVariable (Variable.target ⟨name, w.compiler.scope, none⟩)] }) := by
  unfold declare
  rw [exec_bind_ok (exec_scope w),
    exec_bind_ok (exec_register h)]
  rfl

theorem exec_declare_of_some {name : String} {v : Variable}
    (h : w.declarations.declared? name w.compiler.scope = some v) :
    exec (declare name) w = (.error (.duplicate name w.compiler.scope), w) := by
  unfold declare
  rw [exec_bind_ok (exec_scope w),
    exec_bind_error (exec_register_of_some h)]

/-- A generated name is always free. -/
theorem exec_declareTemporary (hs : w.compiler.Sound) :
    exec declareTemporary w = (.ok w.temporary, { w.numbered.declare w.temporary with
      notes := w.notes ++ [.newVariable w.temporary.target] }) := by
  have hd : w.numbered.declarations.declared? (Names.generated (w.declarations.generated + 1))
      w.numbered.compiler.scope = none := hs.fresh (Nat.lt_succ_self _) _
  unfold declareTemporary
  rw [exec_bind_ok (exec_declarations w)]
  show exec (setDeclarations { w.declarations with generated := w.declarations.generated + 1 } >>= _) w = _
  rw [exec_bind_ok (show exec (setDeclarations _) w = (.ok (), w.numbered) from rfl), exec_declare hd]
  rfl

theorem does_declareTemporary (hs : w.compiler.Sound) :
    Does .value declareTemporary w fun v w' => w'.Sees v ∧ v = w.temporary := by
  have hd : ∀ scope, w.numbered.declarations.declared?
      (Names.generated w.numbered.declarations.generated) scope = none :=
    hs.fresh (Nat.lt_succ_self _)
  have h₁ : Reach .value w w.numbered := .single (.generate (by decide) (Nat.le_succ _))
  have h₂ : Reach .value w.numbered (w.numbered.declare w.temporary) :=
    .single (.temporary (by decide) hd)
  refine .of_exec (exec_declareTemporary hs) ((h₁.trans h₂).tail (.pass rfl rfl)) rfl ?_
  exact ⟨⟨List.mem_cons_self, .inr rfl⟩, rfl⟩

theorem exec_discarded {v : Variable} (h : w.compiler.discarded = some v) :
    exec discarded w = (.ok v, w) := by
  unfold discarded
  rw [exec_bind_ok (exec_get w), h]
  rfl

theorem exec_discarded_of_none (h : w.compiler.discarded = none)
    (hd : w.declarations.declared? Names.discarded.name .global = none) :
    exec discarded w = (.ok Names.discarded, { w.declare Names.discarded with
      compiler := { (w.declare Names.discarded).compiler with
        discarded := some Names.discarded } }) := by
  unfold discarded
  rw [exec_bind_ok (exec_get w), h]
  show exec (declareShared Names.discarded >>= _) w = _
  unfold declareShared
  rw [exec_bind, exec_bind_ok (exec_register hd)]
  rfl

theorem does_discarded (hs : w.compiler.Sound) : Does .value discarded w fun v w' => w'.Sees v := by
  cases h : w.compiler.discarded with
  | some v =>
    obtain ⟨rfl, hm⟩ := hs.discarded_some v h
    exact .of_exec (exec_discarded h) .refl rfl ⟨hm, .inl rfl⟩
  | none =>
    have hd := hs.discarded_none h
    exact .of_exec (exec_discarded_of_none h hd) (.single (.discarded (by decide) h hd)) rfl
      ⟨List.mem_cons_self, .inl rfl⟩

theorem exec_ensureRegister {v : Variable} (h : w.compiler.register = some v) :
    exec ensureRegister w = (.ok (), w) := by
  unfold ensureRegister
  rw [exec_bind_ok (exec_get w), h]
  rfl

theorem exec_ensureRegister_of_none (h : w.compiler.register = none)
    (hd : w.declarations.declared? Names.returnRegister.name .global = none) :
    exec ensureRegister w = (.ok (), { w.declare Names.returnRegister with
      compiler := { (w.declare Names.returnRegister).compiler with
        register := some Names.returnRegister } }) := by
  unfold ensureRegister
  rw [exec_bind_ok (exec_get w), h]
  show exec (declareShared Names.returnRegister >>= _) w = _
  unfold declareShared
  rw [exec_bind, exec_bind_ok (exec_register hd)]
  rfl

theorem does_ensureRegister (hs : w.compiler.Sound) :
    Does .value ensureRegister w fun _ w' => w'.Sees Names.returnRegister := by
  cases h : w.compiler.register with
  | some v =>
    obtain ⟨rfl, hm⟩ := hs.register_some v h
    exact .of_exec (exec_ensureRegister h) .refl rfl ⟨hm, .inl rfl⟩
  | none =>
    have hd := hs.register_none h
    exact .of_exec (exec_ensureRegister_of_none h hd) (.single (.register (by decide) h hd)) rfl
      ⟨List.mem_cons_self, .inl rfl⟩

theorem does_lookup {name : String} : Does p (lookup name) w fun v w' => w'.Sees v := by
  unfold lookup
  refine .read (a := w.declarations) rfl (.read (a := w.compiler.current) rfl (.ofExcept ?_))
  intro v hv
  unfold Declarations.find at hv
  split at hv
  · next u hu =>
    cases hv
    obtain ⟨hm, -, hs⟩ := Declarations.mem_of_find? hu
    exact ⟨hm, hs⟩
  · cases hv

/-! ## Operands -/

/-- All variables of the operand can be seen. -/
def Seen (x : Operand) (w : Work) : Prop := ∀ v ∈ x.vars, w.Sees v

theorem vars_eq_pieces (x : Operand) : x.vars = x.pieces.filterMap Piece.var? := by
  cases x <;> rfl

theorem vars_join (x y : Operand) : (x.join y).vars = x.vars ++ y.vars := by
  rw [vars_eq_pieces x, vars_eq_pieces y, ← List.filterMap_append]
  rfl

theorem Seen.join {x y : Operand} (hx : Seen x w) (hy : Seen y w) : Seen (x.join y) w := by
  intro v hv
  rw [vars_join] at hv
  exact (List.mem_append.mp hv).elim (hx v) (hy v)

theorem Seen.mono {x : Operand} {w' : Work} (h : Seen x w) (hr : Reach .value w w') : Seen x w' :=
  fun v hv => hr.sees (h v hv)

theorem does_resolve (hs : w.compiler.Sound) (word : Word) :
    Does .value (resolve word) w fun x w' => Seen x w' := by
  unfold resolve
  split
  · refine .bind hs does_lookup fun v w₁ _ _ hv => .pure ?_
    intro u hu
    rw [List.mem_singleton.mp hu]
    exact hv
  · exact .pure fun v hv => absurd hv List.not_mem_nil

/-! ## Lines of calls -/

theorem vars_instr {c : Command} {args : List Operand} {result : Option Variable} {v : Variable}
    (hv : v ∈ (c.instr args result).vars) : (∃ x ∈ args, v ∈ x.vars) ∨ result = some v := by
  simp only [Command.instr, Instr.vars, List.mem_flatMap, List.mem_filter] at hv
  obtain ⟨x, ⟨hx, -⟩, hv⟩ := hv
  unfold Command.spliced at hx
  split at hx
  · next r =>
    split at hx
    · simp only [List.mem_append, List.mem_singleton] at hx
      rcases hx with (hx | rfl) | hx
      · exact .inl ⟨x, List.mem_of_mem_take hx, hv⟩
      · rw [List.mem_singleton.mp hv]
        exact .inr rfl
      · exact .inl ⟨x, List.mem_of_mem_drop hx, hv⟩
    · exact .inl ⟨x, hx, hv⟩
  · exact .inl ⟨x, hx, hv⟩

theorem vars_labelCall {label : String} {args : List Operand} {result : Option Variable} {l : Line}
    {v : Variable} (hl : l ∈ Callee.labelCall label args result) (hv : v ∈ l.instr.vars) :
    (∃ x ∈ args, v ∈ x.vars) ∨ ∃ r, result = some r ∧ (v = r ∨ v = Names.returnRegister) := by
  simp only [Callee.labelCall, List.mem_append, List.mem_map, List.mem_singleton,
    Option.mem_toList] at hl
  rcases hl with (⟨x, hx, rfl⟩ | rfl) | hl
  · exact .inl ⟨x, hx, hv⟩
  · cases hv
  · obtain ⟨r, rfl, rfl⟩ := Option.map_eq_some_iff.mp hl
    refine .inr ⟨r, rfl, ?_⟩
    simpa [Instr.vars, Operand.vars] using hv

namespace MessageBoxLines

open MessageBox

theorem message_ofArguments {args : List Operand} {g : ButtonGroup} {d : Dialog}
    (h : ofArguments args = .ok (g, d)) : d.message = args.getD 1 .omitted := by
  unfold ofArguments at h
  simp only [bind, Except.bind] at h
  split at h
  · cases h
  · split at h
    · cases h
    · split at h
      · cases h
      · cases h
        rfl

/-- The lines of a message box are plain; besides its message they only write the answer. -/
theorem mem_answer {g : ButtonGroup} {d : Dialog} {r : Variable} {n : Nat} {l : Line}
    (hl : l ∈ answer g d r n) :
    l.instr.isPlain ∧ ∀ v ∈ l.instr.vars, v ∈ d.message.vars ∨ v = r := by
  simp only [answer, MessageBox.branch, List.mem_append, List.mem_cons, List.mem_flatMap, List.not_mem_nil,
    or_false] at hl
  rcases hl with (rfl | rfl | rfl | ⟨j, -, rfl | rfl | rfl⟩) | rfl <;>
    simp [Instr.isPlain, Instr.vars, Operand.vars, Operand.ofText]
  exact fun v hv => .inl hv

theorem lines_eq_ok {args : List Operand} {result : Option Variable} {n m : Nat} {ls : List Line}
    (h : lines args result n = .ok (ls, m)) :
    n ≤ m ∧ ∀ l ∈ ls, l.instr.isPlain ∧
      ∀ v ∈ l.instr.vars, (∃ x ∈ args, v ∈ x.vars) ∨ result = some v := by
  unfold lines at h
  simp only [bind, Except.bind] at h
  split at h
  · cases h
  · next gd hgd =>
    obtain ⟨g, d⟩ := gd
    have hm := message_ofArguments hgd
    have hmem : ∀ v ∈ d.message.vars, ∃ x ∈ args, v ∈ x.vars := by
      intro v hv
      rw [hm, List.getD_eq_getElem?_getD] at hv
      cases hx : args[1]? with
      | none =>
        rw [hx] at hv
        cases hv
      | some x =>
        rw [hx] at hv
        exact ⟨x, List.mem_of_getElem? hx, hv⟩
    cases result with
    | none =>
      cases h
      refine ⟨Nat.le_refl _, fun l hl => ?_⟩
      rw [List.mem_singleton.mp hl]
      exact ⟨rfl, fun v hv => .inl (hmem v hv)⟩
    | some r =>
      cases h
      refine ⟨by omega, fun l hl => ?_⟩
      obtain ⟨hp, hv⟩ := mem_answer hl
      refine ⟨hp, fun v hm => ?_⟩
      rcases hv v hm with hv | rfl
      · exact .inl (hmem v hv)
      · exact .inr rfl

end MessageBoxLines

/-! ## Calls -/

/-- A call with these arguments is one that a function accepts, or that its placeholder remembers. -/
def Ready (c : Callee) (w : Work) (args : List Operand) : Prop :=
  match c with
  | .function f => w.Takes f.label args.length
  | .placeholder q => w.Takes q.label args.length
  | _ => True

theorem Ready.mono {c : Callee} {w' : Work} {args : List Operand} (h : Ready c w args)
    (hr : Reach .value w w') : Ready c w' args := by
  cases c with
  | function f => exact hr.takes h
  | placeholder q => exact hr.takes h
  | command | messageBox => trivial

theorem exec_introduce {word : Word} {c : Callee} (h : w.declarations.callee? word.name = some c) :
    exec (introduce word) w = (.ok c, w) := by
  unfold introduce
  rw [exec_bind_ok (exec_declarations w)]
  simp only [Declarations.callee, h]
  rfl

theorem exec_introduce_of_none {word : Word} (h : w.declarations.callee? word.name = none) :
    exec (introduce word) w = (.ok (.placeholder { name := word.name, label := word.text }),
      w.withDeclarations (w.declarations.putCallee word.name
        (.placeholder { name := word.name, label := word.text }))) := by
  unfold introduce
  rw [exec_bind_ok (exec_declarations w)]
  simp only [Declarations.callee, h]
  rfl

theorem does_introduce (word : Word) :
    Does .value (introduce word) w fun c w' => w'.declarations.callee? word.name = some c := by
  cases hc : w.declarations.callee? word.name with
  | some c => exact .of_exec (exec_introduce hc) .refl rfl hc
  | none =>
    refine .of_exec (exec_introduce_of_none hc) (.single (.introduce (by decide) hc)) rfl ?_
    exact Declarations.callee?_putCallee.trans (if_pos rfl)

theorem exec_noteCall (word : Word) (c : Callee) (result : Option Variable) :
    ∃ notes, exec (noteCall word c result) w = (.ok (), { w with notes := notes }) := by
  cases c with
  | placeholder q => exact ⟨_, rfl⟩
  | function f =>
    unfold noteCall
    rw [exec_bind_ok (exec_current w)]
    split
    · exact ⟨_, rfl⟩
    · exact ⟨w.notes, rfl⟩
  | command | messageBox => exact ⟨w.notes, rfl⟩

theorem does_noteCall (word : Word) (c : Callee) (result : Option Variable) :
    Does p (noteCall word c result) w fun _ w' => w'.compiler = w.compiler := by
  obtain ⟨notes, he⟩ := exec_noteCall (w := w) word c result
  exact .of_exec he (.single (.pass rfl rfl)) rfl rfl

theorem does_labelCall {label : String} {args : List Operand} {result : Option Variable}
    (ht : w.Takes label args.length) (ha : ∀ x ∈ args, Seen x w)
    (hr : ∀ v, result = some v → w.Sees v ∧ w.Sees Names.returnRegister) :
    Does .value (emit (Callee.labelCall label args result)) w fun _ _ => True := by
  refine .of_exec (a := ()) rfl (.single (.call (by decide) ht fun l hl v hv => ?_)) rfl trivial
  rcases vars_labelCall hl hv with ⟨x, hx, hv⟩ | ⟨r, hres, rfl | rfl⟩
  · exact ha x hx v hv
  · exact (hr _ hres).1
  · exact (hr _ hres).2

theorem does_emitLines {c : Callee} {args : List Operand} {result : Option Variable}
    (hs : w.compiler.Sound) (hc : Ready c w args) (ha : ∀ x ∈ args, Seen x w)
    (hr : ∀ v, result = some v → w.Sees v)
    (hg : c.returnsByRegister → result.isSome → w.Sees Names.returnRegister) :
    Does .value (emitLines c args result) w fun _ _ => True := by
  have hvars : ∀ v, (∃ x ∈ args, v ∈ x.vars) ∨ result = some v → w.Sees v := by
    rintro v (⟨x, hx, hv⟩ | h)
    · exact ha x hx v hv
    · exact hr v h
  have hboth : c.returnsByRegister → ∀ v, result = some v → w.Sees v ∧ w.Sees Names.returnRegister :=
    fun hreg v h => ⟨hr v h, hg hreg (by rw [h]; rfl)⟩
  have hset : ∀ m, w.declarations.generated ≤ m → Does .value
      (setDeclarations { w.declarations with generated := m }) w fun _ w' =>
        w' = w.withDeclarations { w.declarations with generated := m } :=
    fun m hm => .of_exec (a := ()) rfl (.single (.generate (by decide) hm)) rfl rfl
  unfold emitLines
  refine .read (a := w.declarations) rfl (.bind hs (.ofExcept (Q := fun r w' => w = w' ∧
    c.lines args result w.declarations.generated = .ok r) fun r hr => ⟨rfl, hr⟩) ?_)
  rintro ⟨ls, n⟩ _ _ - ⟨rfl, hl⟩
  cases c with
  | command c =>
    cases hl
    refine .bind hs (hset _ (Nat.le_refl _)) fun _ w₁ _ _ h => does_emit (by decide) ?_ ?_
    · simp [Command.instr, Instr.isPlain]
    · subst h
      intro l hl v hv
      rw [List.mem_singleton.mp hl] at hv
      exact hvars v (vars_instr hv)
  | messageBox =>
    obtain ⟨hn, hls⟩ := MessageBoxLines.lines_eq_ok hl
    refine .bind hs (hset _ hn) fun _ w₁ _ _ h => does_emit (by decide) (fun l hl => (hls l hl).1) ?_
    subst h
    exact fun l hl v hv => hvars v ((hls l hl).2 v hv)
  | function f =>
    cases hl
    refine .bind hs (hset _ (Nat.le_refl _)) fun _ w₁ _ _ h => ?_
    subst h
    exact does_labelCall hc ha (hboth rfl)
  | placeholder q =>
    cases hl
    refine .bind hs (hset _ (Nat.le_refl _)) fun _ w₁ _ _ h => ?_
    subst h
    exact does_labelCall hc ha (hboth rfl)

/-- Only commands have other conventions than that the result may be left out. -/
theorem returnsByRegister_eq_false {c : Callee} (h : c.convention ≠ .optional) :
    c.returnsByRegister = false := by
  cases c with
  | function f => exact absurd rfl h
  | placeholder q => exact absurd rfl h
  | command | messageBox => rfl

theorem does_emitCall {c : Callee} {args : List Operand} {result : Option Variable}
    (hs : w.compiler.Sound) (hc : Ready c w args) (ha : ∀ x ∈ args, Seen x w)
    (hr : ∀ v, result = some v → w.Sees v) :
    Does .value (emitCall c args result) w fun _ _ => True := by
  unfold emitCall
  split
  · next hconv =>
    have hcmd := returnsByRegister_eq_false (c := c) (by rw [hconv]; decide)
    refine .bind hs (does_discarded hs) fun v w₁ hs₁ h₁ hv => ?_
    refine does_emitLines hs₁ (hc.mono h₁) (fun x hx => (ha x hx).mono h₁) ?_ ?_
    · rintro u hu
      cases hu
      exact hv
    · intro h
      rw [hcmd] at h
      exact Bool.noConfusion h
  · next v hconv =>
    have hcmd := returnsByRegister_eq_false (c := c) (by rw [hconv]; decide)
    have hv := hr v rfl
    refine .bind hs (does_emit (by decide) ?_ ?_) fun _ w₁ hs₁ h₁ _ => ?_
    · simp [Instr.isPlain]
    · simpa [Instr.vars, Operand.vars, Operand.ofInt] using hv
    refine .bind hs₁ (does_emitLines hs₁ (hc.mono h₁) (fun x hx => (ha x hx).mono h₁)
      (fun u hu => h₁.sees (hr u hu)) ?_) fun _ w₂ hs₂ h₂ _ => does_emit (by decide) ?_ ?_
    · intro h
      rw [hcmd] at h
      exact Bool.noConfusion h
    · simp [Instr.isPlain]
    · simpa [Instr.vars, Operand.vars, Operand.ofInt] using h₂.sees (h₁.sees hv)
  · dsimp only
    split
    · refine .bind hs (does_ensureRegister hs) fun _ w₁ hs₁ h₁ hg => ?_
      exact does_emitLines hs₁ (hc.mono h₁) (fun x hx => (ha x hx).mono h₁)
        (fun u hu => h₁.sees (hr u hu)) fun _ _ => hg
    · next hne =>
      refine does_emitLines hs hc ha hr fun h₁ h₂ => ?_
      rw [h₁, h₂] at hne
      exact absurd rfl hne

/-! ## Expressions -/

section Parts

variable {expression call : Word → Compile Operand}

/-- What is asked of the parts of an expression, from which the same follows for the whole. -/
def Compiles (act : Word → Compile Operand) : Prop :=
  ∀ word w, w.compiler.Sound → Does .value (act word) w fun x w' => Seen x w'

theorem does_chain (hcall : Compiles call) (n : Nat) {left : Operand} (hs : w.compiler.Sound)
    (hl : Seen left w) : Does .value (chain call n left) w fun x w' => Seen x w' := by
  induction n generalizing w left with
  | zero =>
    unfold chain
    refine .read (a := w.cursor.tail) rfl ?_
    split
    · exact .pure hl
    · exact .fail
  | succ n ih =>
    unfold chain
    refine .read (a := w.cursor.tail) rfl ?_
    split
    · exact .pure hl
    · refine .bind hs does_nextWord fun word w₁ hs₁ h₁ _ => .read (a := w₁.cursor.tail) rfl ?_
      dsimp only
      split
      · refine .bind hs₁ (hcall word w₁ hs₁) fun right w₂ hs₂ h₂ hr => ih hs₂ ?_
        exact (hl.mono (h₁.trans h₂)).join hr
      · refine .bind hs₁ (does_resolve hs₁ word) fun right w₂ hs₂ h₂ hr => ih hs₂ ?_
        exact (hl.mono (h₁.trans h₂)).join hr

theorem does_concatenation (hcall : Compiles call) {left : Operand} (hs : w.compiler.Sound)
    (hl : Seen left w) : Does .value (concatenation call left) w fun x w' => Seen x w' := by
  unfold concatenation
  exact .read (a := w.cursor.ahead.length) rfl (does_chain hcall _ hs hl)

theorem does_argumentList (hexpr : Compiles expression) (n : Nat) (hs : w.compiler.Sound) :
    Does .value (argumentList expression n) w fun xs w' => ∀ x ∈ xs, Seen x w' := by
  induction n generalizing w with
  | zero => exact .fail
  | succ n ih =>
    unfold argumentList
    refine .bind hs does_nextWord fun word w₁ hs₁ _ _ => .read (a := w₁.cursor.tail) rfl ?_
    have hmore : ∀ x w₂, w₂.compiler.Sound → Seen x w₂ → Does .value (do
        let t ← tail
        if (t.separates && !t.isClosing) = true then do
          let xs ← argumentList expression n
          pure (x :: xs)
        else pure [x]) w₂ fun xs w' => ∀ x ∈ xs, Seen x w' := by
      intro x w₂ hs₂ hx
      refine .read (a := w₂.cursor.tail) rfl ?_
      split
      · refine .bind hs₂ (ih hs₂) fun xs w₃ _ h₃ hxs => .pure ?_
        intro y hy
        rcases List.mem_cons.mp hy with rfl | hy
        · exact hx.mono h₃
        · exact hxs y hy
      · refine .pure fun y hy => ?_
        rw [List.mem_singleton.mp hy]
        exact hx
    dsimp only
    split
    · exact .bind hs₁ (hexpr word w₁ hs₁) fun x w₂ hs₂ _ hx => hmore x w₂ hs₂ hx
    · exact .bind hs₁ (does_resolve hs₁ word) fun x w₂ hs₂ _ hx => hmore x w₂ hs₂ hx

/-- The end of an argument list, when the arguments have been read. -/
def closeArguments (c : Callee) (args : List Operand) : Compile (List Operand) := do
  if !(← tail).isClosing then fail .unterminatedCall
  closeOne
  ofExcept (c.checkCount args.length)
  if let .placeholder p := c then
    setDeclarations ((← declarations).recordCall p.name args.length)
  return c.pad args

theorem argumentsWith_eq (expression : Word → Compile Operand) (c : Callee)
    (result : Option Variable) :
    argumentsWith expression c result =
      let arguments := tail >>= fun t =>
        if t.isClosing then pure [] >>= closeArguments c
        else wordsAhead >>= fun n => argumentList expression n >>= closeArguments c
      if c.convention = .void && result.isSome then
        fail (.noResult c.name) >>= fun (_ : PUnit) => arguments
      else arguments := rfl

theorem checkCount_function {f : Function} {n : Nat}
    (h : (Callee.function f).checkCount n = .ok ()) : f.params.length = n := by
  simp only [Callee.checkCount, Callee.most, Callee.least] at h
  by_cases hmany : f.params.length < n
  · simp [hmany] at h
  · by_cases hfew : n < f.params.length
    · simp [hmany, hfew] at h
    · omega

theorem mem_pad {c : Callee} {args : List Operand} {x : Operand} (h : x ∈ c.pad args) :
    x ∈ args ∨ x = .omitted := by
  rcases List.mem_append.mp h with h | h
  · exact .inl h
  · exact .inr (List.eq_of_mem_replicate h)

theorem pad_function {f : Function} {args : List Operand} (h : f.params.length = args.length) :
    (Callee.function f).pad args = args := by
  simp [Callee.pad, Callee.most, h]

theorem pad_placeholder (q : Placeholder) (args : List Operand) :
    (Callee.placeholder q).pad args = args := by
  simp [Callee.pad, Callee.most]

theorem does_closeArguments {c : Callee} {args : List Operand} (name : String)
    (hs : w.compiler.Sound) (ha : ∀ x ∈ args, Seen x w)
    (hf : ∀ f, c = .function f → w.declarations.callee? name = some c)
    (hq : ∀ q, c = .placeholder q → ∃ more,
      w.declarations.callee? name = some (.placeholder { q with calls := more })) :
    Does .value (closeArguments c args) w fun xs w' => (∀ x ∈ xs, Seen x w') ∧ Ready c w' xs := by
  have hseen : ∀ {w'}, Reach .value w w' → ∀ x ∈ c.pad args, Seen x w' := by
    intro w' hr x hx
    rcases mem_pad hx with hx | rfl
    · exact (ha x hx).mono hr
    · exact fun v hv => absurd hv List.not_mem_nil
  unfold closeArguments
  refine .read (a := w.cursor.tail) rfl ?_
  dsimp only
  split
  · exact .fail_bind
  refine .bind hs does_closeOne fun _ w₁ hs₁ h₁ he => ?_
  refine .bind hs₁ (.ofExcept (Q := fun _ w' => w₁ = w' ∧ c.checkCount args.length = .ok ())
    fun _ h => ⟨rfl, h⟩) ?_
  rintro _ _ - - ⟨rfl, hcount⟩
  have hd : w₁.declarations = w.declarations := by rw [Work.declarations, he]
  cases c with
  | command c => exact .pure ⟨hseen h₁, trivial⟩
  | messageBox => exact .pure ⟨hseen h₁, trivial⟩
  | function f =>
    have hn := checkCount_function hcount
    have hcal := hf f rfl
    have hb := hs.function hcal
    refine .pure ⟨hseen h₁, .inl ⟨f, ?_, rfl, ?_⟩⟩
    · rw [hd, hb.label_eq]
      exact hcal
    · rw [pad_function hn]
      exact hn
  | placeholder q =>
    obtain ⟨more, hcal⟩ := hq q rfl
    obtain ⟨hname, hlabel⟩ := hs.placeholder hcal
    have hname' : q.name = name := hname
    have hlabel' : Text.lower q.label = name := hlabel
    rw [← hd, ← hname'] at hcal
    have hrec : Does .value (setDeclarations (w₁.declarations.recordCall q.name args.length)) w₁
        fun _ w' => w' = w₁.withDeclarations (w₁.declarations.recordCall q.name args.length) :=
      .of_exec (a := ()) rfl (.single (.record (by decide) hcal)) rfl rfl
    refine .read (a := w₁.declarations) rfl (.bind hs₁ hrec fun _ w₂ _ h₂ h => .pure ?_)
    refine ⟨hseen (h₁.trans h₂), .inr ?_⟩
    refine ⟨{ q with calls := more ++ [args.length] }, ?_, rfl, ?_⟩
    · rw [hlabel', ← hname', h, Work.withDeclarations, Work.declarations,
        Declarations.recordCall_of hcal, Declarations.callee?_putCallee, if_pos rfl]
    · rw [pad_placeholder]
      exact List.mem_append_right more (List.mem_singleton.mpr rfl)

theorem does_argumentsWith (hexpr : Compiles expression) {c : Callee} {name : String}
    (result : Option Variable) (hs : w.compiler.Sound)
    (hc : w.declarations.callee? name = some c) :
    Does .value (argumentsWith expression c result) w fun xs w' =>
      (∀ x ∈ xs, Seen x w') ∧ Ready c w' xs := by
  have hclose : ∀ {args w'}, w'.compiler.Sound → Reach .value w w' → (∀ x ∈ args, Seen x w') →
      Does .value (closeArguments c args) w' fun xs w'' => (∀ x ∈ xs, Seen x w'') ∧ Ready c w'' xs := by
    intro args w' hs' hr ha
    refine does_closeArguments name hs' ha ?_ ?_
    · rintro f rfl
      exact hr.function hc
    · rintro q rfl
      obtain ⟨more, hm⟩ := hr.placeholder hc
      exact ⟨_, hm⟩
  rw [argumentsWith_eq]
  dsimp only
  split
  · exact .fail_bind
  · refine .read (a := w.cursor.tail) rfl ?_
    split
    · exact .read (a := []) rfl (hclose hs .refl fun x hx => absurd hx List.not_mem_nil)
    · refine .read (a := w.cursor.ahead.length) rfl ?_
      exact .bind hs (does_argumentList hexpr _ hs) fun args w₁ hs₁ h₁ ha => hclose hs₁ h₁ ha

variable {arguments : Callee → Option Variable → Compile (List Operand)}

/-- What is asked of the way the arguments of a call are read. -/
def Collects (arguments : Callee → Option Variable → Compile (List Operand)) : Prop :=
  ∀ c result name w, w.compiler.Sound → w.declarations.callee? name = some c →
    Does .value (arguments c result) w fun xs w' => (∀ x ∈ xs, Seen x w') ∧ Ready c w' xs

theorem does_callWith (hargs : Collects arguments) (word : Word) {result : Option Variable}
    (hs : w.compiler.Sound) (hr : ∀ v, result = some v → w.Sees v) :
    Does .value (callWith arguments word result) w fun _ _ => True := by
  unfold callWith
  refine .bind hs (does_introduce word) fun c w₁ hs₁ h₁ hc => ?_
  refine .bind hs₁ (does_noteCall word c result) fun _ w₂ hs₂ h₂ he => ?_
  have hc₂ : w₂.declarations.callee? word.name = some c := by rw [Work.declarations, he]; exact hc
  have hin : Reach .value w₂ (w₂.atDepth (w₂.compiler.depth + 1)) := .single (.pass rfl rfl)
  have hcollect := hargs c result word.name _ (hin.sound hs₂) hc₂
  have hnested : Does .value (nested (arguments c result)) w₂ fun xs w' =>
      (∀ x ∈ xs, Seen x w') ∧ Ready c w' xs := by
    refine .nested (hcollect.mono fun xs w' _ h n => ?_)
    obtain ⟨hx, hready⟩ := h
    have hout : Reach .value w' (w'.atDepth n) := .single (.pass rfl rfl)
    exact ⟨fun x hm => (hx x hm).mono hout, hready.mono hout⟩
  refine .bind hs₂ hnested fun args w₃ hs₃ h₃ h => ?_
  obtain ⟨ha, hready⟩ := h
  exact does_emitCall hs₃ hready ha fun v hv => h₃.sees (h₂.sees (h₁.sees (hr v hv)))

theorem does_heldCall (hargs : Collects arguments) : Compiles (heldCall arguments) := by
  intro word w hs
  unfold heldCall
  refine .bind hs (does_declareTemporary hs) fun v w₁ hs₁ _ ⟨hv, _⟩ => ?_
  refine .bind hs₁ (does_note _) fun _ w₂ hs₂ h₂ _ => ?_
  have hv₂ := h₂.sees hv
  refine .bind hs₂ (does_callWith hargs word hs₂ ?_) fun _ w₃ _ h₃ _ => .pure ?_
  · rintro u hu
    cases hu
    exact hv₂
  · intro u hu
    rw [List.mem_singleton.mp hu]
    exact h₃.sees hv₂

end Parts

theorem seen_atDepth {x : Operand} {w' : Work} (h : Seen x w') (n : Nat) : Seen x (w'.atDepth n) :=
  h.mono (.single (.pass rfl rfl))

/-- Expressions and arguments at one level are made of those one level below. -/
theorem compiles_and_collects (n : Nat) : Compiles (expression n) ∧ Collects (arguments n) := by
  induction n with
  | zero => exact ⟨fun _ _ _ => .fail, fun _ _ _ _ _ _ => .fail⟩
  | succ n ih =>
    obtain ⟨hexpr, hargs⟩ := ih
    have hcall := does_heldCall hargs
    refine ⟨fun word w hs => ?_, fun c result name w hs hc => does_argumentsWith hexpr result hs hc⟩
    have hin : Reach .value w (w.atDepth (w.compiler.depth + 1)) := .single (.pass rfl rfl)
    have hs' := hin.sound hs
    refine .nested (.read (a := w.cursor.tail) rfl ?_)
    split
    · refine .bind hs' (hcall word _ hs') fun x w₁ hs₁ _ hx => ?_
      exact (does_concatenation hcall hs₁ hx).mono fun _ _ _ => seen_atDepth
    · split
      · refine .bind hs' (does_resolve hs' word) fun x w₁ hs₁ _ hx => ?_
        exact (does_concatenation hcall hs₁ hx).mono fun _ _ _ => seen_atDepth
      · exact (does_resolve hs' word).mono fun _ _ _ => seen_atDepth

theorem does_value : Compiles value := (compiles_and_collects levels).1

theorem does_callInto (word : Word) {result : Option Variable} (hs : w.compiler.Sound)
    (hr : ∀ v, result = some v → w.Sees v) : Does .value (callInto word result) w fun _ _ => True :=
  does_callWith (compiles_and_collects levels).2 word hs hr

theorem does_valueFrom {left : Operand} (hs : w.compiler.Sound) (hl : Seen left w) :
    Does .value (valueFrom left) w fun x w' => Seen x w' :=
  does_concatenation (does_heldCall (compiles_and_collects levels).2) hs hl

end InstallScript.Compile
