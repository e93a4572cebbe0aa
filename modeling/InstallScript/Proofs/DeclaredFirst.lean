import InstallScript.Proofs.Runs

/-!
Every variable that a script uses is declared, once and before its first use.

* `Registered old out vars`: the lines `out` declare the variables `vars`, those of `old` apart, and no
  line uses a variable that is neither of these nor declared further up.
* `Compile.Step.registered`: every step of compiling keeps this, the lines of the statement added.
* `declared_once_before_use`: hence it holds of all that a run without faults writes.
-/

namespace InstallScript

def Instr.declared? : Instr → Option Variable
  | declare v => some v
  | _ => none

/-- The variables that lines declare, in their order. -/
def declaredIn (ls : List Line) : List Variable := ls.filterMap (·.instr.declared?)

/-- No line uses a variable before a line above has declared it, unless it is one of `old`. -/
def UsesDeclared (old : List Variable) (ls : List Line) : Prop :=
  ∀ above l below, ls = above ++ l :: below → ∀ v ∈ l.instr.vars, v ∉ old → v ∈ declaredIn above

/-- The lines declare each variable that is not one of `old`, and no variable twice. -/
structure Registered (old : List Variable) (out : List Line) (vars : List Variable) : Prop where
  nodup : (declaredIn out).Nodup
  kept : ∀ v ∈ old, v ∈ vars
  mem_iff : ∀ v, v ∈ declaredIn out ↔ v ∈ vars ∧ v ∉ old
  script : ∀ v ∈ declaredIn out, v.predefined = none
  uses : UsesDeclared old out

theorem declaredIn_append (ls ms : List Line) :
    declaredIn (ls ++ ms) = declaredIn ls ++ declaredIn ms :=
  List.filterMap_append

theorem declaredIn_eq_nil {ls : List Line} (h : ∀ l ∈ ls, l.instr.declared? = none) :
    declaredIn ls = [] :=
  List.filterMap_eq_nil_iff.mpr h

/-- Lines may be added that use only what is declared so far. -/
theorem UsesDeclared.append {old : List Variable} {ls ms : List Line} (h : UsesDeclared old ls)
    (hm : ∀ l ∈ ms, ∀ v ∈ l.instr.vars, v ∉ old → v ∈ declaredIn ls) :
    UsesDeclared old (ls ++ ms) := by
  intro above l below he v hv hp
  rcases List.append_eq_append_iff.mp he with ⟨more, rfl, hms⟩ | ⟨more, hls, hms⟩
  · rw [declaredIn_append]
    refine List.mem_append_left _ (hm l ?_ v hv hp)
    rw [hms]
    exact List.mem_append_right more List.mem_cons_self
  · cases more with
    | nil =>
      rw [List.append_nil] at hls
      rw [← hls]
      refine hm l ?_ v hv hp
      rw [List.nil_append] at hms
      rw [← hms]
      exact List.mem_cons_self
    | cons m more =>
      obtain ⟨rfl, -⟩ := List.cons_eq_cons.mp hms
      exact h above l more hls v hv hp

variable {out ls : List Line} {old vars : List Variable} {v : Variable}

namespace Registered

theorem initial (vars : List Variable) : Registered vars [] vars := by
  refine ⟨List.nodup_nil, fun _ h => h, fun v => ?_, fun v h => absurd h List.not_mem_nil, ?_⟩
  · exact ⟨fun h => absurd h List.not_mem_nil, fun h => absurd h.1 h.2⟩
  · intro above l below h
    have := congrArg List.length h
    simp at this

/-- Lines that declare nothing may use all that is declared. -/
theorem write (h : Registered old out vars) (hd : ∀ l ∈ ls, l.instr.declared? = none)
    (hv : ∀ l ∈ ls, ∀ v ∈ l.instr.vars, v ∈ vars) : Registered old (out ++ ls) vars := by
  have hnone : declaredIn (out ++ ls) = declaredIn out := by
    rw [declaredIn_append, declaredIn_eq_nil hd, List.append_nil]
  refine ⟨hnone ▸ h.nodup, h.kept, fun v => hnone ▸ h.mem_iff v, hnone ▸ h.script,
    h.uses.append fun l hl v hm hp => ?_⟩
  exact (h.mem_iff v).mpr ⟨hv l hl v hm, hp⟩

/-- A new variable is declared where it is registered. -/
theorem declare (h : Registered old out vars) (hn : v ∉ vars) (hp : v.predefined = none) :
    Registered old (out ++ [⟨0, .declare v⟩]) (v :: vars) := by
  have happend : declaredIn (out ++ [⟨0, .declare v⟩]) = declaredIn out ++ [v] := declaredIn_append _ _
  refine ⟨?_, fun u hu => List.mem_cons_of_mem v (h.kept u hu), fun u => ?_, fun u hu => ?_,
    h.uses.append fun l hl u hu => ?_⟩
  · rw [happend]
    refine List.nodup_append.mpr ⟨h.nodup, by simp, ?_⟩
    rintro u hu _ hm rfl
    rw [List.mem_singleton.mp hm] at hu
    exact hn ((h.mem_iff v).mp hu).1
  · rw [happend, List.mem_append, List.mem_singleton, List.mem_cons, h.mem_iff]
    constructor
    · rintro (⟨hm, ho⟩ | rfl)
      · exact ⟨.inr hm, ho⟩
      · exact ⟨.inl rfl, fun ho => hn (h.kept u ho)⟩
    · rintro ⟨rfl | hm, ho⟩
      · exact .inr rfl
      · exact .inl ⟨hm, ho⟩
  · rw [happend] at hu
    rcases List.mem_append.mp hu with hu | hu
    · exact h.script u hu
    · rw [List.mem_singleton.mp hu]
      exact hp
  · rw [List.mem_singleton.mp hl] at hu
    cases hu

end Registered

namespace Compile

theorem not_mem_of_declared? {d : Declarations} (h : d.declared? v.name v.scope = none) :
    v ∉ d.vars :=
  fun hm => Declarations.declared?_eq_none.mp h v hm ⟨rfl, rfl⟩

theorem declared?_of_isPlain {i : Instr} (h : i.isPlain) : i.declared? = none := by
  cases i with
  | declare v => cases h
  | _ => rfl

theorem declared?_labelCall {label : String} {args : List Operand} {result : Option Variable}
    {l : Line} (h : l ∈ Callee.labelCall label args result) : l.instr.declared? = none := by
  simp only [Callee.labelCall, List.mem_append, List.mem_map, List.mem_singleton,
    Option.mem_toList] at h
  rcases h with (⟨x, -, rfl⟩ | rfl) | h
  · rfl
  · rfl
  · obtain ⟨r, -, rfl⟩ := Option.map_eq_some_iff.mp h
    rfl

theorem mem_opening {f : Function} {l : Line} (h : l ∈ opening f) :
    l.instr.declared? = none ∧ ∀ v ∈ l.instr.vars, v ∈ f.params := by
  rcases List.mem_cons.mp h with rfl | h
  · exact ⟨rfl, fun v hv => absurd hv List.not_mem_nil⟩
  · obtain ⟨u, hu, rfl⟩ := List.mem_map.mp h
    refine ⟨rfl, fun v hv => ?_⟩
    rw [List.mem_singleton.mp hv]
    exact List.mem_reverse.mp hu

variable {p : Phase} {w w' : Work}

theorem registered_declare (h : Registered old (out ++ w.lines) w.declarations.vars)
    (hd : w.declarations.declared? v.name v.scope = none) (hp : v.predefined = none) :
    Registered old (out ++ (w.declare v).lines) (w.declare v).declarations.vars := by
  have := h.declare (not_mem_of_declared? hd) hp
  rw [List.append_assoc] at this
  exact this

theorem registered_write (h : Registered old (out ++ w.lines) w.declarations.vars)
    (hd : ∀ l ∈ ls, l.instr.declared? = none)
    (hv : ∀ l ∈ ls, ∀ v ∈ l.instr.vars, v ∈ w.declarations.vars) :
    Registered old (out ++ (w.write ls).lines) (w.write ls).declarations.vars := by
  have := h.write hd hv
  rw [List.append_assoc] at this
  exact this

/-- Each step declares what it registers, and writes only what is declared. -/
theorem Step.registered (h : Step p w w') (hs : w.compiler.Sound)
    (hr : Registered old (out ++ w.lines) w.declarations.vars) :
    Registered old (out ++ w'.lines) w'.declarations.vars := by
  cases h with
  | pass hc hl =>
    rw [Work.declarations, hc, hl]
    exact hr
  | write _ hl hv =>
    exact registered_write hr (fun l hm => declared?_of_isPlain (hl l hm)) fun l hm v hu => (hv l hm v hu).1
  | call _ _ hv =>
    exact registered_write hr (fun l hm => declared?_labelCall hm) fun l hm v hu => (hv l hm v hu).1
  | generate | introduce | ended => exact hr
  | temporary _ hd => exact registered_declare hr (hd _) rfl
  | register _ _ hd | discarded _ _ hd | named _ _ hd => exact registered_declare hr hd rfl
  | record =>
    rw [Work.withDeclarations, Work.declarations, Declarations.vars_recordCall]
    exact hr
  | returns =>
    rw [Work.withDeclarations, Work.declarations, Declarations.vars_modifyFunction]
    exact hr
  | begun _ _ hd =>
    obtain ⟨_, -, rfl, -⟩ := Declarations.declareFunction_eq_ok hd
    exact hr
  | param _ _ _ _ hd =>
    rw [Work.withDeclarations, Work.declarations, Declarations.vars_modifyFunction]
    exact registered_declare hr hd rfl
  | opened _ _ hf =>
    refine registered_write hr (fun l hm => (mem_opening hm).1) fun l hm v hu => ?_
    exact ((hs.function hf).params v ((mem_opening hm).2 v hu)).1

theorem Reach.registered (h : Reach p w w') (hs : w.compiler.Sound)
    (hr : Registered old (out ++ w.lines) w.declarations.vars) :
    Registered old (out ++ w'.lines) w'.declarations.vars := by
  induction h with
  | refl => exact hr
  | tail hreach hstep ih => exact hstep.registered (Reach.sound hreach hs) ih

end Compile

theorem registered_compile {c : Compiler} {ts : List Token} {r : Compiled} (hs : c.Sound)
    (hr : Registered old out c.declarations.vars) (h : (c.compile ts).result = .ok r) :
    Registered old (out ++ r.emitted) (c.compile ts).compiler.declarations.vars := by
  have hstart : Registered old (out ++ (c.work ts).lines) (c.work ts).declarations.vars := by
    rw [show (c.work ts).lines = [] from rfl, List.append_nil]
    exact hr
  rw [Compiler.compiler_compile]
  rcases Compile.does_statement (w := c.work ts) hs rfl with hd | hd
  · rw [← hd.returns r h]
    exact hd.reach.registered hs hstart
  · rw [← (hd.returns r h).1]
    exact hd.reach.registered hs hstart

theorem registered_output {predefined : Bool} {ss : List Statement}
    (h : (Compiler.start predefined).Clean ss) :
    Registered (Compiler.start predefined).declarations.vars ((Compiler.start predefined).output ss)
      ((Compiler.start predefined).steps ss).2.declarations.vars := by
  have hrun := Compiler.output_induction []
    (P := fun c out => c.Sound ∧
      Registered (Compiler.start predefined).declarations.vars out c.declarations.vars)
    (fun c out ts r ⟨hs, hr⟩ hok => ⟨Compiler.sound_compile hs ts, registered_compile hs hr hok⟩)
    ⟨Compiler.sound_start predefined, .initial _⟩ h
  exact hrun.2

/-- The variables a run begins with are predefined. -/
theorem not_mem_start {v : Variable} (hp : v.predefined = none) (predefined : Bool) :
    v ∉ (Compiler.start predefined).declarations.vars := by
  have hall : ∀ b, ∀ v ∈ (Compiler.start b).declarations.vars, v.predefined ≠ none := by decide
  exact fun hm => hall predefined v hm hp

/-- A run without faults declares the variables that are not predefined. -/
theorem mem_declaredIn_output {predefined : Bool} {ss : List Statement}
    (h : (Compiler.start predefined).Clean ss) (v : Variable) :
    v ∈ declaredIn ((Compiler.start predefined).output ss) ↔
      v ∈ ((Compiler.start predefined).steps ss).2.declarations.vars ∧ v.predefined = none := by
  have hr := registered_output h
  constructor
  · intro hm
    exact ⟨((hr.mem_iff v).mp hm).1, hr.script v hm⟩
  · rintro ⟨hm, hp⟩
    exact (hr.mem_iff v).mpr ⟨hm, not_mem_start hp predefined⟩

/-- In a run without faults the lines declare exactly the registered variables that are not
predefined, none of them twice, and each of them above every line that uses it. -/
theorem declared_once_before_use (predefined : Bool) (sources : List String)
    (h : (Compiler.start predefined).Clean (program sources)) :
    let out := (Compiler.start predefined).output (program sources)
    let vars := ((Compiler.start predefined).steps (program sources)).2.declarations.vars
    (declaredIn out).Nodup ∧
    (∀ v, v ∈ declaredIn out ↔ v ∈ vars ∧ v.predefined = none) ∧
    ∀ above l below, out = above ++ l :: below → ∀ v ∈ l.instr.vars, v.predefined = none →
      v ∈ declaredIn above := by
  have hr := registered_output h
  refine ⟨hr.nodup, mem_declaredIn_output h, fun above l below he v hv hp => ?_⟩
  exact hr.uses above l below he v hv (not_mem_start hp predefined)

/-- Parameters, a generated variable, the return register and the variable for unwanted results are
all declared where they are first needed. -/
theorem declared_once_before_use_of_file_open :
    let sources := ["Function add(a, b)\nReturn a & b\nFunctionEnd\nx = add(GetParameters(), \"1\")\n" ++
      "FileOpen(x, \"r\")"]
    let out := (Compiler.start true).output (program sources)
    let vars := ((Compiler.start true).steps (program sources)).2.declarations.vars
    ((Compiler.start true).Clean (program sources) ∧ (declaredIn out).map Variable.target =
      ["add.a", "add.b", "bridle_return", "x", "bridle_1", "bridle_nullvar"]) ∧
    (declaredIn out).Nodup ∧
    (∀ v, v ∈ declaredIn out ↔ v ∈ vars ∧ v.predefined = none) ∧
    ∀ above l below, out = above ++ l :: below → ∀ v ∈ l.instr.vars, v.predefined = none →
      v ∈ declaredIn above := by
  intro sources out vars
  have h : (Compiler.start true).Clean (program sources) ∧ (declaredIn out).map Variable.target =
      ["add.a", "add.b", "bridle_return", "x", "bridle_1", "bridle_nullvar"] := by decide +kernel
  exact ⟨h, declared_once_before_use true sources h.1⟩

end InstallScript
