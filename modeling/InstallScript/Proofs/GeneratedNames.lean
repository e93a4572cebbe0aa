import InstallScript.Proofs.Coining

/-!
Names of the compiler and names of the script, over whole runs. A statement that turns out wrong has
made up names and registered variables all the same, so all lines count that have been written, those
of wrong statements included (`Compiler.history`).

* `given`: the names that a statement gives to variables.
* `Compile.Apart`: a statement registers variables under the names it gives, where these are not
  reserved, and under generated names.
* `generated_names_never_clash`: hence the same over every run.
-/

namespace InstallScript

namespace Compile

/-! ## Statements -/

/-! ### Giving names -/

/-- The variable has one of the names, and none of the compiler. -/
def Given (names : List String) (v : Variable) : Prop :=
  v.name ∈ names ∧ Names.isReserved v.name = false

section Names

variable {I : Work → Prop} {P : Variable → Prop} {names : List String}

/-- Behind the check no name is reserved. -/
theorem Registers.check {name : String} {act : Compile α}
    (h : Names.isReserved name = false → Registers I P act) :
    Registers I P (Compile.ofExcept (Names.check name) >>= fun _ => act) := by
  by_cases hr : Names.isReserved name
  · rw [Names.check, if_pos hr]
    exact .fail_bind rfl
  · rw [Names.check, if_neg hr]
    exact h (Bool.eq_false_iff.mpr hr)

/-- A variable of the script is registered as it is declared. -/
theorem registers_declare {name : String} (hr : Names.isReserved name = false)
    (hI : ∀ w, I w → I (exec (declare name) w).2) (hP : ∀ scope, P ⟨name, scope, none⟩) :
    Registers I P (declare name) := by
  intro w hi
  refine ⟨hI w hi, ?_⟩
  cases hd : w.declarations.declared? name w.compiler.scope with
  | some v =>
    rw [exec_declare_of_some hd]
    exact ⟨.still rfl rfl, fun f hf => by cases hf; exact hr⟩
  | none =>
    rw [exec_declare hd]
    refine ⟨.declare rfl rfl (coined?_declare_of_not_reserved hr) (hP _), fun f hf => by cases hf⟩

theorem ahead_declare {name : String} {w : Work} (h : Ahead names w) :
    Ahead names (exec (declare name) w).2 := by
  cases hd : w.declarations.declared? name w.compiler.scope with
  | some v =>
    rw [exec_declare_of_some hd]
    exact h
  | none =>
    rw [exec_declare hd]
    exact h

/-- The next word is one of the names. -/
theorem Registers.nextWord {k : Word → Compile α}
    (hk : ∀ word, word.name ∈ names → Registers (Ahead names) P (k word)) :
    Registers (Ahead names) P (Compile.nextWord >>= k) := by
  intro w hi
  rcases hc : w.cursor.next? with _ | ⟨word, cursor⟩
  · rw [exec_bind_error (exec_nextWord_of_none hc)]
    exact ⟨hi, .still rfl rfl, fun f hf => by cases hf; rfl⟩
  · have ha : ∀ t ∈ (⟨word, cursor.tail⟩ :: cursor.ahead : List Token), t.word.name ∈ names := by
      rw [← ahead_of_next? hc]
      exact hi
    have hw : word.name ∈ names := ha ⟨word, cursor.tail⟩ List.mem_cons_self
    rw [exec_bind_ok (exec_nextWord hc)]
    obtain ⟨hi', hco, hf⟩ := hk word hw { w with cursor := cursor }
      fun t ht => ha t (List.mem_cons_of_mem _ ht)
    exact ⟨hi', (Coined.still rfl rfl).trans hco, hf⟩

theorem registers_declareName {word : Word} (hw : word.name ∈ names) :
    Registers (Ahead names) (Given names) (declareName word) := by
  have hdeclare : Names.isReserved word.name = false → Registers (Ahead names) (Given names)
      (declare word.name >>= fun _ => pure ()) := fun hr =>
    .bind (registers_declare hr (fun _ => ahead_declare) fun _ => ⟨hw, hr⟩) fun _ => .pure ()
  unfold declareName
  dsimp only
  split
  · exact .fail_bind rfl
  refine .check fun hr => .bind (.read fun _ => rfl) fun current => ?_
  split
  · refine .bind (.read fun _ => rfl) fun d => ?_
    split
    · exact .bind (notes fun _ h => h) fun _ => hdeclare hr
    · exact hdeclare hr
  · exact hdeclare hr

theorem registers_declareNames (n : Nat) {word : Word} (hw : word.name ∈ names) :
    Registers (Ahead names) (Given names) (declareNames n word) := by
  induction n generalizing word with
  | zero => exact registers_declareName hw
  | succ n ih =>
    refine .bind (registers_declareName hw) fun _ => .bind (.read fun _ => rfl) fun b => ?_
    split
    · exact .nextWord fun word hw => ih hw
    · exact .pure ()

theorem registers_declaration : Registers (Ahead names) (Given names) declaration := by
  unfold declaration
  refine .nextWord fun word hw => ?_
  dsimp only
  split
  · exact .nextWord fun word hw => .bind (.read fun _ => rfl) fun n => registers_declareNames n hw
  · rw [pure_bind]
    exact .bind (.read fun _ => rfl) fun n => registers_declareNames n hw

theorem registers_parameters (n : Nat) (f : Function) :
    Registers (Ahead names) (Given names) (parameters n f) := by
  induction n generalizing f with
  | zero => exact .fail rfl
  | succ n ih =>
    unfold parameters
    refine .nextWord fun word hw => ?_
    dsimp only
    split
    · exact .fail_bind rfl
    refine .check fun hr => ?_
    refine .bind (registers_declare hr (fun _ => ahead_declare) fun _ => ⟨hw, hr⟩) fun v => ?_
    rw [← bind_assoc]
    refine .bind (.of_exec (a := fun _ => ()) fun w hi =>
      ⟨rfl, hi, .still rfl Declarations.generated_modifyFunction⟩) fun _ => ?_
    refine .bind (.read fun _ => rfl) fun t => ?_
    split
    · exact ih _
    refine .bind (.read fun _ => rfl) fun t => ?_
    split
    · exact .pure _
    · exact .fail rfl

theorem clear_checkEarlier (f : Function) : Clear f.checkEarlier := by
  have hcount : ∀ n, Clear (f.checkCount n) := by
    intro n
    unfold Function.checkCount
    split
    · exact .error rfl
    · split
      · exact .error rfl
      · exact .ok _
  unfold Function.checkEarlier
  generalize f.earlier = calls
  induction calls with
  | nil => exact .ok _
  | cons n calls ih => exact .bind (hcount n) fun _ => ih

theorem registers_openFunction (f : Function) :
    Registers (Ahead names) (Given names) (openFunction f) := by
  unfold openFunction
  refine .bind (.read fun _ => rfl) fun b => ?_
  dsimp only
  split
  · exact .fail_bind rfl
  refine .bind (.ofExcept (clear_checkEarlier f)) fun _ => emits (fun _ h => h) fun l hl => ?_
  rcases List.mem_cons.mp hl with rfl | hl
  · exact ⟨rfl, rfl⟩
  · obtain ⟨v, -, rfl⟩ := List.mem_map.mp hl
    exact ⟨rfl, rfl⟩

/-- Only the name of the function itself can be taken, by another callee. -/
theorem registers_header (word : Word) {w : Work} (ha : Ahead names w) :
    Coined (Given names) w (exec (header word) w).2 ∧
      ∀ f, (exec (header word) w).1 = .error f → f.isClash = true →
        f = .duplicate word.name .global ∧ (w.declarations.callee? word.name).isSome := by
  cases hd : w.declarations.declareFunction word.name word.text with
  | error e =>
    rw [exec_header_of_error hd]
    refine ⟨.still rfl rfl, fun f hf _ => ?_⟩
    cases hf
    unfold Declarations.declareFunction at hd
    split at hd
    · cases hd
    · cases hd
    · next hc =>
      cases hd
      rw [hc]
      exact ⟨rfl, rfl⟩
  | ok fd =>
    obtain ⟨f, d⟩ := fd
    have hrest : Registers (Ahead names) (Given names) (do
        let t ← tail
        let f ← if !t.isEmpty && !t.isClosing then parameters (← wordsAhead) f else pure f
        openFunction f) := by
      refine .bind (.read fun _ => rfl) fun t => ?_
      dsimp only
      split
      · exact .bind (.read fun _ => rfl) fun n => .bind (registers_parameters n f) registers_openFunction
      · exact .bind (.pure f) registers_openFunction
    have hbegun : Coined (Given names) w (withFunction w f d) := by
      obtain ⟨_, -, rfl, -⟩ := Declarations.declareFunction_eq_ok hd
      exact .still rfl rfl
    obtain ⟨-, hc, hf⟩ := hrest (withFunction w f d) ha
    rw [exec_header hd]
    refine ⟨hbegun.trans hc, fun g hg hclash => ?_⟩
    rw [hf g hg] at hclash
    exact Bool.noConfusion hclash

end Names

/-- The variable has either the given name or one of the compiler. -/
def OwnOr (name : String) (v : Variable) : Prop := v.name = name ↔ Names.isReserved v.name = false

theorem Own.orGiven {v : Variable} {name : String} (h : Own v)
    (hr : Names.isReserved name = false) : OwnOr name v := by
  refine iff_of_false (fun hn => ?_) (ne_false_of_eq_true h)
  exact Names.ne_of_not_reserved hr h hn.symm

theorem registers_assigned {word : Word} (hr : Names.isReserved word.name = false) :
    Registers InOrder (OwnOr word.name) (assigned word.name) := by
  unfold assigned
  refine .bind (.read fun _ => rfl) fun d => .bind (.read fun _ => rfl) fun current => ?_
  split
  · exact .pure _
  · refine registers_declare hr (fun w hs => ?_) fun _ => iff_of_true rfl hr
    exact (does_declare hr).reach.sound hs

theorem registers_assignment (word : Word) :
    Registers InOrder (OwnOr word.name) (assignment word) := by
  have hcopy : ∀ v x, Coins (expectEnd >>= fun _ => emit [⟨0, .copy v x⟩]) := fun v x =>
    .bind coins_expectEnd fun _ => coins_emit_one ⟨rfl, rfl⟩
  unfold assignment
  dsimp only
  split
  · exact .fail_bind rfl
  refine .check fun hr => .bind (registers_assigned hr) fun v =>
    .mono (P := Own) ?_ fun _ hv => hv.orGiven hr
  refine .bind coins_nextWord fun head => .bind (.read fun _ => rfl) fun t => ?_
  split
  · refine .bind (coins_callInto head _) fun _ => .bind (.read fun _ => rfl) fun t => ?_
    split
    · exact coins_expectEnd
    · exact .bind (coins_valueFrom _) fun x => hcopy v x
  · split
    · exact .bind (coins_value head) fun x => hcopy v x
    · exact .bind (coins_resolve head) fun x => hcopy v x

/-! ### Other statements -/

theorem coins_functionReturn : Coins functionReturn := by
  have hset : ∀ name, Coins (do
      setDeclarations ((← declarations).modifyFunction name (·.setReturn))) := by
    intro name
    refine .of_exec (a := fun _ => ()) (g := fun w =>
      w.withDeclarations (w.declarations.modifyFunction name (·.setReturn)))
      fun w hs => ⟨rfl, hs.setReturn name, .still rfl Declarations.generated_modifyFunction⟩
  unfold functionReturn
  refine .bind (.read fun _ => rfl) fun current => ?_
  split
  · exact .fail rfl
  next name =>
  refine .bind (.read fun _ => rfl) fun b => ?_
  split
  · rw [← bind_assoc]
    refine .bind (hset name) fun _ => .bind coins_nextWord fun word => ?_
    refine .bind (coins_value word) fun x => .bind coins_expectEnd fun _ => ?_
    refine .bind coins_ensureRegister fun _ => emits (fun _ h => h) ?_
    simp [Instr.coined?, Instr.declared?]
  · exact coins_emit_one ⟨rfl, rfl⟩

theorem coins_functionEnd : Coins functionEnd := by
  unfold functionEnd
  refine .bind (.read fun _ => rfl) fun current => ?_
  dsimp only
  split
  · exact .fail_bind rfl
  refine .bind (.of_exec (a := fun _ => ()) fun w hs => ⟨rfl, ?_, .still rfl rfl⟩) fun _ =>
    coins_emit_one ⟨rfl, rfl⟩
  exact hs.ofCallees rfl (Nat.le_refl _) rfl rfl hs.callees

theorem coins_command : Coins command := by
  unfold command
  refine .bind (.read fun _ => rfl) fun b => ?_
  split
  · exact .pure _
  refine .bind coins_nextWord fun word => ?_
  split
  · exact .pure _
  refine .bind coins_nextWord fun path => .bind (.read fun _ => rfl) fun b => ?_
  split <;> exact .pure _

theorem Registers.written {I : Work → Prop} {P : Variable → Prop} {act : Compile Unit}
    (h : Registers I P act) : Registers I P (written act) :=
  .bind h fun _ => .bind (.read fun _ => rfl) fun _ => .pure _

end Compile

/-- The names that a statement gives to variables: of the one it assigns to, of those it declares, or
of the parameters of a function. -/
def given : List Token → List String
  | [] => []
  | t :: ts =>
    if t.tail.assigns then [t.word.name]
    else if t.isPlain && t.word.name = "var" then ts.map (·.word.name)
    else if t.isPlain && t.word.name = "function" then ts.tail.map (·.word.name)
    else []

/-- The statement begins a function of that name. -/
def Heads (name : String) (ts : List Token) : Prop :=
  ∃ t u us, ts = t :: u :: us ∧ t.isPlain ∧ t.word.name = "function" ∧ u.word.name = name

namespace Compile

/-- The rest `act` of the statement `ts` registers variables under the names that the statement gives,
where these are not reserved, and others under names of the compiler. If a name of the compiler is
taken, then by another callee when the statement begins a function of that name. -/
structure Apart (ts : List Token) (act : Compile α) (w : Work) : Prop where
  coined : Coined (fun v => v.name ∈ given ts ↔ Names.isReserved v.name = false) w (exec act w).2
  clash : ∀ f, (exec act w).1 = .error f → f.isClash = true → ∃ name,
    f = .duplicate name .global ∧ Heads name ts ∧ (w.declarations.callee? name).isSome

namespace Apart

variable {ts : List Token} {w w' : Work} {act : Compile α}

theorem of_registers {I : Work → Prop} {P : Variable → Prop} (h : Registers I P act) (hi : I w)
    (hP : ∀ v, P v → (v.name ∈ given ts ↔ Names.isReserved v.name = false)) : Apart ts act w := by
  obtain ⟨-, hc, hf⟩ := h w hi
  refine ⟨hc.mono hP, fun f he hclash => ?_⟩
  rw [hf f he] at hclash
  exact Bool.noConfusion hclash

/-- A statement that gives no names. -/
theorem of_coins (h : Coins act) (hs : w.compiler.Sound) (hg : given ts = []) : Apart ts act w := by
  refine of_registers h hs fun v hv => ?_
  rw [hg, show Names.isReserved v.name = true from hv]
  exact ⟨fun h => absurd h List.not_mem_nil, fun h => Bool.noConfusion h⟩

/-- A statement that does nothing but give names. -/
theorem of_names {names : List String} (h : Registers (Ahead names) (Given names) act)
    (hi : Ahead names w) (hg : given ts = names) : Apart ts act w :=
  of_registers h hi fun _ hv => hg ▸ iff_of_true hv.1 hv.2

/-- Words may be read before. -/
theorem resume {act' : Compile α} {cursor : Cursor} (he : exec act w = exec act' { w with cursor })
    (h : Apart ts act' { w with cursor }) : Apart ts act w := by
  refine ⟨?_, ?_⟩ <;> rw [he]
  · exact (Coined.still rfl rfl).trans h.coined
  · exact h.clash

theorem of_fault {f : Fault} (he : exec act w = (.error f, w)) (hf : f.isClash = false) :
    Apart ts act w := by
  refine ⟨?_, ?_⟩ <;> rw [he]
  · exact .still rfl rfl
  · intro g hg hclash
    cases hg
    rw [hf] at hclash
    exact Bool.noConfusion hclash

theorem written {act : Compile Unit} (h : Apart ts act w) : Apart ts (written act) w := by
  refine ⟨?_, ?_⟩ <;> rw [exec_written]
  · exact h.coined
  · intro f hf
    cases he : (exec act w).1 with
    | error g =>
      rw [he] at hf
      cases hf
      exact h.clash f he
    | ok a =>
      rw [he] at hf
      cases hf

end Apart

theorem ahead_names {ts : List Token} {w : Work} (hw : w.cursor.ahead = ts) :
    Ahead (ts.map (·.word.name)) w := by
  intro t ht
  rw [hw] at ht
  exact List.mem_map_of_mem ht

theorem apart_functionBegin {t : Token} {rest : List Token} {w : Work} (hp : t.isPlain = true)
    (hn : t.word.name = "function") (hw : w.cursor.ahead = rest) :
    Apart (t :: rest) functionBegin w := by
  have hassigns : ¬t.tail.assigns = true := by
    intro ha
    simp [Token.isPlain, ha] at hp
  cases hc : w.compiler.current with
  | some name => exact .of_fault (exec_functionBegin_of_some hc) rfl
  | none =>
    have he := exec_functionBegin hc
    cases rest with
    | nil =>
      have hnone : w.cursor.next? = none := by rw [Cursor.next?, hw]
      exact .of_fault (he.trans (exec_bind_error (exec_nextWord_of_none hnone))) rfl
    | cons u us =>
      have hsome : w.cursor.next? = some (u.word, ⟨u.tail, us⟩) := by rw [Cursor.next?, hw]
      refine .resume (he.trans (exec_bind_ok (exec_nextWord hsome))) ?_
      have hgiven : given (t :: u :: us) = us.map (·.word.name) := by
        simp [given, hassigns, hp, hn]
      obtain ⟨hco, hclash⟩ := registers_header u.word (w := { w with cursor := ⟨u.tail, us⟩ })
        (ahead_names rfl)
      refine ⟨hco.mono fun v hv => hgiven ▸ iff_of_true hv.1 hv.2, fun f hf hcl => ?_⟩
      obtain ⟨rfl, hcallee⟩ := hclash f hf hcl
      exact ⟨u.word.name, rfl, ⟨t, u, us, rfl, hp, hn, rfl⟩, hcallee⟩

theorem apart_dispatch {t : Token} {rest : List Token} {w : Work} (hs : w.compiler.Sound)
    (hw : w.cursor.ahead = rest) : Apart (t :: rest) (dispatch t.word t.tail) w := by
  unfold dispatch
  split
  · next ha =>
    refine .of_registers (.written (registers_assignment t.word)) hs fun v hv => ?_
    rw [show given (t :: rest) = [t.word.name] from if_pos ha]
    exact List.mem_singleton.trans hv
  next ha =>
  split
  · next ho =>
    refine .of_coins (.written (.bind (coins_callInto t.word none) fun _ => coins_expectEnd)) hs ?_
    simp [given, ha, Token.isPlain, ho]
  next ho =>
  split
  · next hc =>
    refine .of_coins coins_command hs ?_
    simp [given, ha, Token.isPlain, hc]
  next hc =>
  have hplain : t.isPlain = true := by simp [Token.isPlain, ha, ho, hc]
  have hgiven : t.word.name ≠ "var" → t.word.name ≠ "function" → given (t :: rest) = [] := by
    intro hv hf
    simp [given, ha, hv, hf]
  have hother : ∀ {act : Compile Unit}, Coins act → t.word.name ≠ "var" →
      t.word.name ≠ "function" → Apart (t :: rest) (written act) w :=
    fun h hv hf => .of_coins h.written hs (hgiven hv hf)
  have hkeyword : ∀ name, Coins (emit [⟨0, .keyword name⟩]) := fun name => coins_emit_one ⟨rfl, rfl⟩
  split
  · next hn =>
    refine .of_names registers_declaration.written (ahead_names hw) ?_
    simp [given, ha, hplain, hn]
  · next hn => exact (apart_functionBegin hplain hn hw).written
  · next hn => exact hother coins_functionReturn (by simp [hn]) (by simp [hn])
  · next hn => exact hother coins_functionEnd (by simp [hn]) (by simp [hn])
  · next hn => exact hother (coins_branch _) (by simp [hn]) (by simp [hn])
  · next hn => exact hother (coins_branch _) (by simp [hn]) (by simp [hn])
  · next hn => exact hother (hkeyword _) (by simp [hn]) (by simp [hn])
  · next hn => exact hother (hkeyword _) (by simp [hn]) (by simp [hn])
  · next hn => exact hother (coins_loop _) (by simp [hn]) (by simp [hn])
  · next hn => exact hother (coins_loop _) (by simp [hn]) (by simp [hn])
  · next hn => exact hother (hkeyword _) (by simp [hn]) (by simp [hn])
  · next hn => exact hother (hkeyword _) (by simp [hn]) (by simp [hn])
  · next hv hf _ _ _ _ _ _ _ _ _ _ => exact .of_coins (.pure _) hs (hgiven hv hf)

theorem apart_statement {c : Compiler} (hs : c.Sound) (ts : List Token) :
    Apart ts statement (c.work ts) := by
  cases ts with
  | nil =>
    have he : exec statement (c.work []) = (.ok .verbatim, c.work []) := exec_statement_of_none rfl
    refine ⟨?_, ?_⟩ <;> rw [he]
    · exact .still rfl rfl
    · intro f hf
      cases hf
  | cons t rest =>
    have hnext : (c.work (t :: rest)).cursor.next? = some (t.word, ⟨t.tail, rest⟩) := rfl
    exact .resume (exec_statement hnext) (apart_dispatch hs rfl)

end Compile

/-! ## Runs -/

namespace Compiler

variable {c : Compiler} {ts : List Token} {s : Statement} {ss : List Statement}

/-- The lines of a statement as far as it has been compiled, also where it turns out wrong. -/
def writes (c : Compiler) (ts : List Token) : List Line :=
  (Compile.exec Compile.statement (c.work ts)).2.lines

/-- The lines of all statements, the wrong ones included. -/
def history (c : Compiler) : List Statement → List Line
  | [] => []
  | s :: ss => (s.tokens.toOption.elim [] c.writes) ++ (c.step s).2.history ss

theorem coined_writes (hs : c.Sound) (ts : List Token) : ∃ n,
    (c.compile ts).compiler.declarations.generated = c.declarations.generated + n ∧
      (coined (c.writes ts)).Perm (numbered c.declarations.generated n) ∧
      ∀ v ∈ declaredIn (c.writes ts), v.name ∈ given ts ↔ Names.isReserved v.name = false := by
  obtain ⟨ls, n, hl, hg, hc, hp⟩ := (Compile.apart_statement hs ts).coined
  have hwrites : c.writes ts = ls := hl
  rw [hwrites]
  exact ⟨n, hg, hc, hp⟩

/-- Over a run the names with all numbers up to the last one are coined. -/
theorem coined_history (hs : c.Sound) (ss : List Statement) : ∃ n,
    (c.steps ss).2.declarations.generated = c.declarations.generated + n ∧
      (coined (c.history ss)).Perm (numbered c.declarations.generated n) := by
  induction ss generalizing c with
  | nil => exact ⟨0, rfl, .refl _⟩
  | cons s ss ih =>
    rw [steps_cons, history]
    cases hts : s.tokens with
    | error f =>
      rw [step_of_fault hts]
      exact ih hs
    | ok ts =>
      rw [step_of_tokens hts]
      obtain ⟨n, hg, hc, -⟩ := coined_writes hs ts
      obtain ⟨m, hg', hc'⟩ := ih (sound_compile hs ts)
      refine ⟨n + m, ?_, ?_⟩
      · rw [hg', hg, Nat.add_assoc]
      · rw [coined_append, ← numbered_append, ← hg]
        exact hc.append hc'

/-- All registered variables are declared in lines that have been written, right or wrong. -/
theorem registered_history {old : List Variable} {out : List Line} (hs : c.Sound)
    (hr : Registered old out c.declarations.vars) (ss : List Statement) :
    Registered old (out ++ c.history ss) (c.steps ss).2.declarations.vars := by
  induction ss generalizing c out with
  | nil =>
    rw [history, List.append_nil]
    exact hr
  | cons s ss ih =>
    rw [steps_cons, history]
    cases hts : s.tokens with
    | error f =>
      rw [step_of_fault hts]
      exact ih hs hr
    | ok ts =>
      rw [step_of_tokens hts, ← List.append_assoc]
      refine ih (sound_compile hs ts) ?_
      have hstart : Registered old (out ++ (c.work ts).lines) (c.work ts).declarations.vars := by
        rw [show (c.work ts).lines = [] from rfl, List.append_nil]
        exact hr
      rw [compiler_compile]
      rcases Compile.does_statement (w := c.work ts) hs rfl with hd | hd
      · exact hd.reach.registered hs hstart
      · exact hd.reach.registered hs hstart

/-- The lines coin the names they declare, but for those of the shared variables. -/
theorem mem_coined {ls : List Line} {v : Variable} (hv : v ∈ declaredIn ls)
    (hr : Names.isReserved v.name = true) (hreg : v ≠ Names.returnRegister)
    (hdis : v ≠ Names.discarded) : v.name ∈ coined ls := by
  obtain ⟨l, hl, hd⟩ := List.mem_filterMap.mp hv
  refine List.mem_filterMap.mpr ⟨l, hl, ?_⟩
  match hi : l.instr with
  | .declare u =>
    rw [hi] at hd
    cases hd
    exact if_pos ⟨hr, hreg, hdis⟩
  | .copy .. | .copyUnlessErrors .. | .clearErrors | .perform .. | .push .. | .pop .. | .call ..
  | .functionBegin .. | .functionEnd | .leave | .label .. | .jump .. | .dialog .. | .keyword ..
  | .condition .. =>
    rw [hi] at hd
    cases hd

/-- A variable with a name of the compiler has a coined name or is one of the two shared ones. -/
theorem coined_or_shared {predefined : Bool} {ss : List Statement} {v : Variable}
    (hv : v ∈ ((start predefined).steps ss).2.declarations.vars)
    (hr : Names.isReserved v.name = true) :
    v.name ∈ coined ((start predefined).history ss) ∨
      ((start predefined).steps ss).2.register = some v ∨
      ((start predefined).steps ss).2.discarded = some v := by
  have hs := sound_steps predefined ss
  have hnot : ∀ {u : Variable}, u ∈ ((start predefined).steps ss).2.declarations.vars →
      ((start predefined).steps ss).2.declarations.declared? u.name u.scope ≠ none :=
    fun hu hn => Declarations.declared?_eq_none.mp hn _ hu ⟨rfl, rfl⟩
  by_cases hreg : v = Names.returnRegister
  · refine .inr (.inl ?_)
    subst hreg
    cases h : ((start predefined).steps ss).2.register with
    | none => exact absurd (hs.register_none h) (hnot hv)
    | some u => rw [(hs.register_some u h).1]
  by_cases hdis : v = Names.discarded
  · refine .inr (.inr ?_)
    subst hdis
    cases h : ((start predefined).steps ss).2.discarded with
    | none => exact absurd (hs.discarded_none h) (hnot hv)
    | some u => rw [(hs.discarded_some u h).1]
  have hold : v ∉ (start predefined).declarations.vars := by
    intro hm
    cases predefined with
    | false => cases hm
    | true => exact Names.ne_of_not_reserved (Names.isReserved_of_mem_catalogue hm) hr rfl
  have hregistered := registered_history (sound_start predefined) (.initial _) ss
  exact .inl (mem_coined ((hregistered.mem_iff v).mpr ⟨hv, hold⟩) hr hreg hdis)

end Compiler

/-- Over every run, wrong statements included, the generated names are used for the first time once
each, so that they differ. Each statement registers variables under the names it gives only where
these are not reserved; and it never finds a name of the compiler taken, but for the name of a function
that it begins and that can be called already. All variables with reserved names are thus those with
generated names and the two that are shared. -/
theorem generated_names_never_clash (predefined : Bool) (sources : List String) :
    let start := Compiler.start predefined
    let last := (start.steps (program sources)).2
    let names := coined (start.history (program sources))
    names.Perm (numbered 0 last.declarations.generated) ∧
    names.Nodup ∧
    (∀ before s after ts, program sources = before ++ s :: after → s.tokens = .ok ts →
      let c := (start.steps before).2
      (∀ v ∈ declaredIn (c.writes ts), v.name ∈ given ts ↔ Names.isReserved v.name = false) ∧
      ∀ name scope, (c.step s).1.result = .error (.duplicate name scope) →
        Names.isReserved name = true →
        scope = .global ∧ Heads name ts ∧ (c.declarations.callee? name).isSome) ∧
    ∀ v ∈ last.declarations.vars, Names.isReserved v.name = true →
      v.name ∈ names ∨ last.register = some v ∨ last.discarded = some v := by
  intro start last names
  have hperm : names.Perm (numbered 0 last.declarations.generated) := by
    obtain ⟨n, hg, hc⟩ := Compiler.coined_history (Compiler.sound_start predefined) (program sources)
    have hzero : start.declarations.generated = 0 := by cases predefined <;> rfl
    rw [hzero] at hg hc
    rw [show last.declarations.generated = n from hg.trans (Nat.zero_add n)]
    exact hc
  refine ⟨hperm, hperm.nodup_iff.mpr (nodup_numbered _ _), ?_, fun v => Compiler.coined_or_shared⟩
  intro before s after ts _ hts c
  have hs : c.Sound := Compiler.sound_steps predefined before
  obtain ⟨-, -, -, hgiven⟩ := Compiler.coined_writes hs ts
  refine ⟨hgiven, fun name scope hf hr => ?_⟩
  rw [Compiler.step_of_tokens hts] at hf
  have hresult : (c.compile ts).result = .error (.duplicate name scope) := by
    cases h : (c.compile ts).result with
    | error f =>
      simp only [h] at hf
      cases hf
      rfl
    | ok r =>
      simp only [h] at hf
      cases hf
  obtain ⟨_, he, hheads, hcallee⟩ := (Compile.apart_statement hs ts).clash _ hresult hr
  cases he
  exact ⟨rfl, hheads, hcallee⟩

/-- A refused name, a call with too many arguments whose temporary stays, and a message box with two
labels. -/
theorem generated_names_never_clash_of_message_box :
    let sources := ["Var bridle_1\nDetailPrint(GetParameters(), 1)\ny = MsgBox(\"YESNO\", GetParameters())"]
    let start := Compiler.start true
    let last := (start.steps (program sources)).2
    let names := coined (start.history (program sources))
    (names = ["bridle_1", "bridle_2", "bridle_4", "bridle_3"] ∧ last.declarations.generated = 4) ∧
    names.Perm (numbered 0 last.declarations.generated) ∧
    names.Nodup ∧
    ∀ v ∈ last.declarations.vars, Names.isReserved v.name = true →
      v.name ∈ names ∨ last.register = some v ∨ last.discarded = some v := by
  intro sources start last names
  have hnames : names = ["bridle_1", "bridle_2", "bridle_4", "bridle_3"] ∧
      last.declarations.generated = 4 := by decide +kernel
  obtain ⟨hperm, hnodup, -, hvars⟩ := generated_names_never_clash true sources
  exact ⟨hnames, hperm, hnodup, hvars⟩

end InstallScript
