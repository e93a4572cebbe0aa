import InstallScript.Proofs.Statements

/-!
Runs of the compiler over the statements of some sources. What one statement keeps is kept by a whole
run; the two principles are `Compiler.steps_induction`, for runs of any kind, and
`Compiler.output_induction`, for runs without a fault and the lines they write.
-/

namespace InstallScript

/-- The compiler at the beginning, with the variables and callees of the target language or
without. -/
def Compiler.start (predefined : Bool) : Compiler :=
  if predefined then {} else { declarations := {} }

/-- The statements of several sources that are compiled one after the other. -/
def program (sources : List String) : List Statement := sources.flatMap statements

namespace Compiler

/-- The lines of a statement; a statement that is wrong has none. -/
def emitted (c : Compiler) (s : Statement) : List Line :=
  match s.tokens with
  | .error _ => []
  | .ok ts =>
    match (c.compile ts).result with
    | .ok r => r.emitted
    | .error _ => []

/-- The lines of all statements in order. -/
def output (c : Compiler) : List Statement → List Line
  | [] => []
  | s :: ss => c.emitted s ++ (c.step s).2.output ss

/-- No statement is wrong. -/
def Clean (c : Compiler) (ss : List Statement) : Prop := ∀ t ∈ (c.steps ss).1, t.result.isOk

instance (c : Compiler) (ss : List Statement) : Decidable (c.Clean ss) :=
  inferInstanceAs (Decidable (∀ t ∈ (c.steps ss).1, t.result.isOk))

/-- The work on a statement before a word of it is read. -/
def work (c : Compiler) (ts : List Token) : Work := { compiler := c, cursor := { ahead := ts } }

variable {c : Compiler} {ts : List Token} {s : Statement} {ss ss' : List Statement}

theorem compiler_compile (c : Compiler) (ts : List Token) :
    (c.compile ts).compiler = (Compile.exec Compile.statement (c.work ts)).2.compiler := rfl

theorem cursor_compile (c : Compiler) (ts : List Token) :
    (c.compile ts).cursor = (Compile.exec Compile.statement (c.work ts)).2.cursor := rfl

theorem step_of_tokens (h : s.tokens = .ok ts) : c.step s =
    (⟨(c.compile ts).result.map (·.output s.indent s.text), s.line, s.indent, (c.compile ts).notes⟩,
      (c.compile ts).compiler) := by
  simp only [step, h]

theorem step_of_fault {f : Fault} (h : s.tokens = .error f) :
    c.step s = (⟨.error f, s.line, s.indent, []⟩, c) := by
  simp only [step, h]

theorem emitted_of_result {r : Compiled} (h : s.tokens = .ok ts)
    (hr : (c.compile ts).result = .ok r) : c.emitted s = r.emitted := by
  simp only [emitted, h, hr]

/-- A statement that is right has words, and they compile. -/
theorem compiles_of_step (h : (c.step s).1.result.isOk) :
    ∃ ts r, s.tokens = .ok ts ∧ (c.compile ts).result = .ok r := by
  cases hts : s.tokens with
  | error f =>
    rw [step_of_fault hts] at h
    cases h
  | ok ts =>
    rw [step_of_tokens hts] at h
    cases hr : (c.compile ts).result with
    | error f =>
      simp only [hr] at h
      cases h
    | ok r => exact ⟨ts, r, rfl, hr⟩

/-- The text of a statement is made of its lines, unless it passes unchanged. -/
theorem text_step {t : String} (h : (c.step s).1.result = .ok (.text t)) :
    t = Line.writeAll s.indent (c.emitted s) ∨ t = s.text ∧ c.emitted s = [] := by
  obtain ⟨ts, r, hts, hr⟩ := compiles_of_step (by rw [h]; rfl)
  rw [emitted_of_result hts hr]
  simp only [step_of_tokens hts, hr] at h
  cases r with
  | lines ls =>
    cases h
    exact .inl rfl
  | verbatim =>
    cases h
    exact .inr ⟨rfl, rfl⟩
  | inclusion path => cases h

theorem steps_cons (c : Compiler) (s : Statement) (ss : List Statement) :
    c.steps (s :: ss) = ((c.step s).1 :: ((c.step s).2.steps ss).1, ((c.step s).2.steps ss).2) := rfl

theorem clean_cons : c.Clean (s :: ss) ↔ (c.step s).1.result.isOk ∧ (c.step s).2.Clean ss := by
  unfold Clean
  rw [steps_cons]
  exact List.forall_mem_cons

theorem clean_append : c.Clean (ss ++ ss') ↔ c.Clean ss ∧ (c.steps ss).2.Clean ss' := by
  induction ss generalizing c with
  | nil => simp [Clean, steps]
  | cons s ss ih => rw [List.cons_append, clean_cons, clean_cons, ih, steps_cons, and_assoc]

/-- A property that every statement keeps is kept by a run, whatever goes wrong in it. -/
theorem steps_induction {P : Compiler → Prop}
    (hstep : ∀ c ts, P c → P (c.compile ts).compiler) (h : P c) (ss : List Statement) :
    P (c.steps ss).2 := by
  induction ss generalizing c with
  | nil => exact h
  | cons s ss ih =>
    rw [steps_cons]
    refine ih ?_
    cases hts : s.tokens with
    | error f =>
      rw [step_of_fault hts]
      exact h
    | ok ts =>
      rw [step_of_tokens hts]
      exact hstep c ts h

/-- A property of the compiler and the lines so far that every right statement keeps is kept by a run
without faults. -/
theorem output_induction {P : Compiler → List Line → Prop} (out : List Line)
    (hstep : ∀ c out ts r, P c out → (c.compile ts).result = .ok r →
      P (c.compile ts).compiler (out ++ r.emitted))
    (h : P c out) (hc : c.Clean ss) : P (c.steps ss).2 (out ++ c.output ss) := by
  induction ss generalizing c out with
  | nil =>
    rw [output, List.append_nil]
    exact h
  | cons s ss ih =>
    obtain ⟨hs, hrest⟩ := clean_cons.mp hc
    rw [steps_cons, output, ← List.append_assoc]
    refine ih _ ?_ hrest
    obtain ⟨ts, r, hts, hr⟩ := compiles_of_step hs
    rw [step_of_tokens hts, emitted_of_result hts hr]
    exact hstep c out ts r h hr

/-! ## What holds of every run -/

theorem sound_compile (hs : c.Sound) (ts : List Token) : (c.compile ts).compiler.Sound := by
  rw [compiler_compile]
  rcases Compile.does_statement (w := c.work ts) hs rfl with h | h
  · exact h.reach.sound hs
  · exact h.reach.sound hs

theorem depth_compile (hs : c.Sound) (ts : List Token) :
    (c.compile ts).compiler.depth = c.depth := by
  rw [compiler_compile]
  rcases Compile.does_statement (w := c.work ts) hs rfl with h | h
  · exact h.depth
  · exact h.depth

/-- No function of a script is there at the beginning. -/
theorem callee?_start {predefined : Bool} {name : String} {callee : Callee}
    (h : (start predefined).declarations.callee? name = some callee) :
    callee.returnsByRegister = false := by
  have hall : ∀ b, ∀ e ∈ (start b).declarations.callees, e.2.returnsByRegister = false := by decide
  obtain ⟨es, es', he, -⟩ := List.lookup_eq_some_iff.mp h
  refine hall predefined (name, callee) ?_
  rw [he]
  exact List.mem_append_right es List.mem_cons_self

theorem sound_start (predefined : Bool) : (start predefined).Sound where
  keys := by cases predefined <;> decide
  origins v hv := by
    cases predefined with
    | false => cases hv
    | true => exact .predefined hv
  register_none _ := by cases predefined <;> decide
  register_some v h := by cases predefined <;> cases h
  discarded_none _ := by cases predefined <;> decide
  discarded_some v h := by cases predefined <;> cases h
  callees name callee h := by
    have hc := callee?_start h
    cases callee with
    | function | placeholder => cases hc
    | command | messageBox => trivial

theorem sound_steps (predefined : Bool) (ss : List Statement) :
    ((start predefined).steps ss).2.Sound :=
  steps_induction (P := Sound) (fun _ ts hs => sound_compile hs ts) (sound_start predefined) ss

/-- Between statements nothing is nested. -/
theorem depth_steps (predefined : Bool) (ss : List Statement) :
    ((start predefined).steps ss).2.depth = 0 := by
  have h := steps_induction (P := fun c => c.Sound ∧ c.depth = 0)
    (fun _ ts ⟨hs, hd⟩ => ⟨sound_compile hs ts, (depth_compile hs ts).trans hd⟩)
    ⟨sound_start predefined, by cases predefined <;> rfl⟩ ss
  exact h.2

end Compiler

end InstallScript
