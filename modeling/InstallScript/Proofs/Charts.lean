import InstallScript.Proofs.Courses

/-!
Builds along their courses. `Completes` and `Halts` say what a build has done when it has taken a course
to its end, and when it has stopped at a statement: to which files has been written, what the compiler
has been given, which inclusions have been dealt with, and how much has been counted. Every part of a
build that does not fail at a file takes a course (`Charted`); from single statements this goes on to
the statements of a file and, by the depth of inclusion, to files (`charted_file`).
-/

namespace InstallScript

open Build

theorem Compiler.steps_append (c : Compiler) (ss ss' : List Statement) :
    (c.steps (ss ++ ss')).2 = ((c.steps ss).2.steps ss').2 := by
  induction ss generalizing c with
  | nil => rfl
  | cons s ss ih => exact ih (c.step s).2

/-- The inclusions among events that have been dealt with, and what has become of each. -/
def fatesOf (es : List Event) : List (String × Fate) :=
  es.filterMap fun
    | .met _ name _ (.ok fate) => some (name, fate)
    | _ => none

theorem fatesOf_append (es es' : List Event) : fatesOf (es ++ es') = fatesOf es ++ fatesOf es' :=
  List.filterMap_append

/-- The number of lines of all the sources. -/
def lineTotal : List String → Nat
  | [] => 0
  | source :: sources => (Text.lines source).length + lineTotal sources

theorem lineTotal_append (ss ss' : List String) :
    lineTotal (ss ++ ss') = lineTotal ss + lineTotal ss' := by
  induction ss with
  | nil => exact (Nat.zero_add _).symm
  | cons s ss ih => rw [List.cons_append, lineTotal, lineTotal, ih, Nat.add_assoc]

/-- The reason for a fault of a statement: the compiler reports it, or the statement includes a file that
is on the way to it. -/
def Blames (o : Options) (t : Tree) (c : Compiler) (s : Statement) (way : Place → Prop) (f : Fault) :
    Prop :=
  (c.step s).1.result = .error f ∨
    ∃ name z, f = .recursiveInclude name ∧ (c.step s).1.result = .ok (.inclusion name) ∧
      isExcluded o name (sourceOf o name) = false ∧ t.place? (sourceOf o name) = some z ∧ way z

theorem Blames.mono {o : Options} {t : Tree} {c : Compiler} {s : Statement} {way way' : Place → Prop}
    {f : Fault} (h : Blames o t c s way f) (hway : ∀ z, way z → way' z) : Blames o t c s way' f := by
  refine h.imp_right ?_
  rintro ⟨name, z, hf, hr, hx, hz, hmem⟩
  exact ⟨name, z, hf, hr, hx, hz, hway z hmem⟩

namespace Recorded

/-! ## What a build has done -/

section

variable (o : Options) (t : Tree) (W : Place → Prop)

/-- From a state to another one, a build has taken a course to its end and has compiled files with the
given sources. -/
structure Completes (sources : List String) (c : Course) (σ σ' : Session × List Event) : Prop where
  inside : t.Grows W σ'.1.files
  files : σ.1.files.Grows (c.Wrote o t) σ'.1.files
  active : σ'.1.active = σ.1.active
  compiler : σ'.1.compiler = (σ.1.compiler.steps c.compiled).2
  fates : fatesOf σ'.2 = fatesOf σ.2 ++ c.fates
  fileCount : σ'.1.fileCount = σ.1.fileCount + sources.length
  lineCount : σ'.1.lineCount = σ.1.lineCount + lineTotal sources

/-- From a state to another one, a build has taken a course up to a statement that is at fault, to which
the files of `chain` lead from those that were being compiled before. -/
structure Halts (chain : List Path) (c : Course) (s : Statement) (f : Fault)
    (σ σ' : Session × List Event) : Prop where
  files : σ.1.files.Grows (c.Wrote o t) σ'.1.files
  fates : fatesOf σ'.2 = fatesOf σ.2 ++ c.fates
  cause : Blames o t (σ.1.compiler.steps c.compiled).2 s
    (fun z => z ∈ σ.1.active ∨ ∃ path ∈ chain, t.place? path = some z) f

/-- What comes of statements of the file at a path is told by a course. -/
structure Charted (path : Path) (ss : List Statement) (σ : Session × List Event)
    (r : Except BuildFault α) (σ' : Session × List Event) : Prop where
  ok : ∀ a, r = .ok a → ∃ c, Goes o t path ss c none ∧ Completes o t W c.sources c σ σ'
  error : ∀ p l f, r = .error (.source p l f) → ∃ c s, Goes o t path ss c (some (p, s)) ∧ l = s.line ∧
    Halts o t (c.chain.map (sourceOf o)) c s f σ σ'

/-- What comes of the file at a path is told by a course of its statements. -/
structure ChartedFile (path : Path) (σ : Session × List Event) (r : Except BuildFault α)
    (σ' : Session × List Event) : Prop where
  ok : ∀ a, r = .ok a → ∃ source c, t.HasSource o path source ∧
    Goes o t path (InstallScript.statements source) c none ∧
    Completes o t W (source :: c.sources) c σ σ'
  error : ∀ p l f, r = .error (.source p l f) → ∃ source c s, t.HasSource o path source ∧
    Goes o t path (InstallScript.statements source) c (some (p, s)) ∧ l = s.line ∧
    Halts o t (path :: c.chain.map (sourceOf o)) c s f σ σ'

end

variable {o : Options} {t : Tree} {S W : Place → Prop} {path : Path} {s s' : Statement}
  {ss : List Statement} {sources sources' : List String} {chain : List Path} {c d : Course} {f : Fault}
  {σ σ' σ'' : Session × List Event} {way : List Place} {name : String}

theorem wrote_append (h : Goes o t path ss c none) {z : Place} :
    (c.append d).Wrote o t z ↔ c.Wrote o t z ∨ d.Wrote o t z := by
  obtain ⟨-, -, hwritten, -, -⟩ := h.append_eq d
  unfold Course.Wrote
  rw [hwritten]
  simp only [List.mem_append, or_and_right, exists_or]

theorem Completes.trans (hgoes : Goes o t path ss c none) (h : Completes o t W sources c σ σ')
    (h' : Completes o t W sources' d σ' σ'') :
    Completes o t W (sources ++ sources') (c.append d) σ σ'' := by
  obtain ⟨-, hfates, -, hcompiled, -⟩ := hgoes.append_eq d
  refine ⟨h'.inside, ?_, h'.active.trans h.active, ?_, ?_, ?_, ?_⟩
  · exact (h.files.mono fun z hz => (wrote_append hgoes).mpr (.inl hz)).trans
      (h'.files.mono fun z hz => (wrote_append hgoes).mpr (.inr hz))
  · rw [h'.compiler, h.compiler, hcompiled, Compiler.steps_append]
  · rw [h'.fates, h.fates, hfates, List.append_assoc]
  · rw [h'.fileCount, h.fileCount, List.length_append, Nat.add_assoc]
  · rw [h'.lineCount, h.lineCount, lineTotal_append, Nat.add_assoc]

theorem Completes.halts (hgoes : Goes o t path ss c none) (h : Completes o t W sources c σ σ')
    (h' : Halts o t chain d s f σ' σ'') : Halts o t chain (c.append d) s f σ σ'' := by
  obtain ⟨-, hfates, -, hcompiled, -⟩ := hgoes.append_eq d
  refine ⟨?_, ?_, ?_⟩
  · exact (h.files.mono fun z hz => (wrote_append hgoes).mpr (.inl hz)).trans
      (h'.files.mono fun z hz => (wrote_append hgoes).mpr (.inr hz))
  · rw [h'.fates, h.fates, hfates, List.append_assoc]
  · have hcause := h'.cause
    rwa [h.active, h.compiler, ← Compiler.steps_append, ← hcompiled] at hcause

theorem Charted.of_fault {g : BuildFault} (h : ∀ p l f, g = .source p l f → ∃ c s,
    Goes o t path ss c (some (p, s)) ∧ l = s.line ∧
      Halts o t (c.chain.map (sourceOf o)) c s f σ σ') :
    Charted o t W path ss σ (.error g : Except _ α) σ' where
  ok _ he := by cases he
  error p l f he := h p l f (Except.error.inj he)

/-- Failing at a file tells nothing about statements. -/
theorem Charted.of_file {p : Path} {g : FileFault} :
    Charted o t W path ss σ (.error (.file p g) : Except _ α) σ' :=
  .of_fault fun _ _ _ h => BuildFault.noConfusion h

theorem Charted.of_ok {a : α} (hgoes : Goes o t path ss c none)
    (h : Completes o t W c.sources c σ σ') : Charted o t W path ss σ (.ok a) σ' where
  ok _ _ := ⟨c, hgoes, h⟩
  error _ _ _ h := by cases h

theorem Charted.of_error (hgoes : Goes o t path ss c (some (path, s)))
    (h : Halts o t (c.chain.map (sourceOf o)) c s f σ σ') :
    Charted o t W path ss σ (.error (.source path s.line f) : Except _ α) σ' := by
  refine .of_fault ?_
  rintro _ _ _ ⟨⟩
  exact ⟨c, s, hgoes, rfl, h⟩

/-! ## Single statements -/

/-- A statement that includes no file. -/
theorem charted_own {compileFile : Path → Recorded (List Passage)} (hinside : t.Grows W σ.1.files)
    (hs : included? s = none) : Charted o t W path [s] σ
      (exec (statement o compileFile way path s) σ).1
      (exec (statement o compileFile way path s) σ).2 := by
  rw [statement, exec_get_bind, exec_bind, exec_lift, run_compiled]
  cases hr : (σ.1.compiler.step s).1.result with
  | error f =>
    exact .of_error .halted ⟨.refl _, (List.append_nil _).symm, .inl hr⟩
  | ok out =>
    cases out with
    | inclusion name => cases hs.symm.trans (included?_of_step hr)
    | text text =>
      refine .of_ok (.own hs .ended) ⟨hinside, .refl _, rfl, rfl, ?_, rfl, rfl⟩
      exact (fatesOf_append _ _).trans rfl

theorem steps_of_included? (hs : included? s = some name) (c : Compiler) (ss : List Statement) :
    (c.steps (s :: ss)).2 = (c.steps ss).2 := by
  rw [Compiler.steps_cons, step_of_included? hs]

theorem Halts.haltedIn {source : String} {log : List Entry} {es : List Event}
    (h : Halts o t (sourceOf o name :: c.chain.map (sourceOf o)) c s' f ({ σ.1 with log }, es) σ')
    (hs : included? s = some name) (hes : fatesOf es = fatesOf σ.2 ++ [(name, .followed)]) :
    Halts o t ((Course.haltedIn s name source c).chain.map (sourceOf o)) (.haltedIn s name source c)
      s' f σ σ' where
  files := h.files
  fates := by
    rw [h.fates, hes, List.append_assoc]
    rfl
  cause := by
    rw [Course.compiled, steps_of_included? hs]
    exact h.cause

theorem Completes.followed {source : String} {log : List Entry} {es : List Event} {files : Tree}
    {content : List Passage}
    (h : Completes o t W (source :: c.sources) c ({ σ.1 with log }, es) σ')
    (hs : included? s = some name) (hes : fatesOf es = fatesOf σ.2 ++ [(name, .followed)])
    (hgrows : σ'.1.files.Grows (fun z => t.place? (targetOf o name) = some z) files)
    (hW : ∀ z, t.place? (targetOf o name) = some z → W z) :
    Completes o t W (Course.followed s name source c .ended).sources
      (.followed s name source c .ended) σ
      ({ σ'.1 with files }, σ'.2 ++ [.wrote (targetOf o name) content]) := by
  have hsources : (Course.followed s name source c .ended).sources = source :: c.sources :=
    List.append_nil _
  rw [hsources]
  refine ⟨h.inside.trans (hgrows.mono hW), ?_, h.active, ?_, ?_, h.fileCount, h.lineCount⟩
  · refine (h.files.mono ?_).trans (hgrows.mono fun z hz => ?_)
    · rintro z ⟨n, hn, hz⟩
      exact ⟨n, List.mem_append_left _ hn, hz⟩
    · exact ⟨name, List.mem_append_right _ List.mem_cons_self, hz⟩
  · rw [Course.compiled, Course.compiled, List.append_nil, steps_of_included? hs]
    exact h.compiler
  · rw [fatesOf_append, h.fates, hes, List.append_assoc, List.append_assoc]
    rfl

section

variable (L : Layout o t S W) (hinside : t.Grows W σ.1.files) (hs : included? s = some name)
  (hname : ∃ z, S z ∧ name ∈ t.namesAt o z)
include L hinside hs hname

theorem charted_copied {compileFile : Path → Recorded (List Passage)}
    (hx : isExcluded o name (sourceOf o name) = true) : Charted o t W path [s] σ
      (exec (inclusion o compileFile way path s name) σ).1
      (exec (inclusion o compileFile way path s name) σ).2 := by
  cases hrun : σ.1.run (fate o path s name) with
  | mk r b =>
    rw [inclusion, exec_bind, exec_meet hrun]
    cases r with
    | error g =>
      obtain ⟨p, g, rfl⟩ := fails_fate_of_isExcluded hx path s σ.1 g (by rw [hrun])
      exact .of_file
    | ok r =>
      obtain ⟨rfl, files, log, hgrows, rfl⟩ := run_fate_copied hx s hrun
      rw [Tree.place?_congr hinside.workDir] at hgrows
      obtain ⟨z, hz, hmem⟩ := hname
      refine .of_ok (.copied hs hx .ended) ⟨?_, ?_, rfl, ?_, fatesOf_append _ _, rfl, rfl⟩
      · exact hinside.trans (hgrows.mono fun z' hz' => L.written z name z' hz hmem hz' (.inl hx))
      · exact hgrows.mono fun z' hz' => ⟨name, List.mem_cons_self, hz'⟩
      · exact (steps_of_included? hs σ.1.compiler []).symm

/-- A file that is not being compiled is compiled, and its compiled form is written. -/
theorem charted_followed {compileFile : Path → Recorded (List Passage)}
    (hx : isExcluded o name (sourceOf o name) = false)
    (hfile : ∀ path σ, t.Grows W σ.1.files → (∀ z, t.place? path = some z → S z) →
      ChartedFile o t W path σ (exec (compileFile path) σ).1 (exec (compileFile path) σ).2)
    {log : List Entry} (hrun : σ.1.run (fate o path s name) = (.ok .followed, { σ.1 with log })) :
    Charted o t W path [s] σ (exec (inclusion o compileFile way path s name) σ).1
      (exec (inclusion o compileFile way path s name) σ).2 := by
  obtain ⟨z, hz, hmem⟩ := hname
  rw [inclusion, exec_bind, exec_meet hrun]
  dsimp only
  generalize hmet : σ.2 ++ [Event.met way name _ _] = es
  have hfates : fatesOf es = fatesOf σ.2 ++ [(name, .followed)] := by
    rw [← hmet]
    exact fatesOf_append _ _
  have hchart := hfile (sourceOf o name) ({ σ.1 with log }, es) hinside
    fun z' hz' => L.included z name z' hz hmem hx hz'
  cases hcontent : exec (compileFile (sourceOf o name)) ({ σ.1 with log }, es) with
  | mk r σ' =>
    rw [hcontent] at hchart
    cases r with
    | error g =>
      rw [exec_bind_error hcontent]
      refine .of_fault fun p l f hg => ?_
      obtain ⟨source, inner, s', hsource, hgoes, hl, hhalts⟩ := hchart.error p l f (congrArg _ hg)
      exact ⟨_, s', .haltedIn hs hx hsource hgoes, hl, hhalts.haltedIn hs hfates⟩
    | ok content =>
      obtain ⟨source, inner, hsource, hgoes, hcompletes⟩ := hchart.ok content rfl
      rw [exec_bind_ok hcontent, exec_bind, exec_lift]
      cases hwrite : σ'.1.run (writeFile o (targetOf o name) (Passage.writeAll content)) with
      | mk r b =>
        cases r with
        | error g =>
          obtain ⟨p, g, rfl⟩ := FailsAtFiles.writeFile o (targetOf o name)
            (Passage.writeAll content) σ'.1 g (by rw [hwrite])
          exact .of_file
        | ok _ =>
          obtain ⟨files, hgrows, -, rfl⟩ := of_run_writeFile hwrite
          rw [Tree.place?_congr hcompletes.inside.workDir] at hgrows
          refine .of_ok (.followed hs hx hsource hgoes .ended)
            (hcompletes.followed hs hfates hgrows fun z' hz' => ?_)
          exact L.written z name z' hz hmem hz' (.inr hsource.hasFile)

theorem charted_inclusion {compileFile : Path → Recorded (List Passage)}
    (hfile : ∀ path σ, t.Grows W σ.1.files → (∀ z, t.place? path = some z → S z) →
      ChartedFile o t W path σ (exec (compileFile path) σ).1 (exec (compileFile path) σ).2) :
    Charted o t W path [s] σ (exec (inclusion o compileFile way path s name) σ).1
      (exec (inclusion o compileFile way path s name) σ).2 := by
  cases hx : isExcluded o name (sourceOf o name) with
  | true => exact charted_copied L hinside hs hname hx
  | false =>
    obtain ⟨z, hz, hmem⟩ := hname
    have hS : ∀ z', t.place? (sourceOf o name) = some z' → S z' :=
      fun z' hz' => L.included z name z' hz hmem hx hz'
    obtain ⟨g, log, hl, hrun⟩ | ⟨z', hl, hactive, hrun⟩ | ⟨z', log, hl, hactive, hrun⟩ :=
      run_fate (b := σ.1) path s hx
    · rw [inclusion, exec_bind, exec_meet hrun]
      refine .of_ok (.absent hs hx (fun z' => L.not_located hinside hS hl) .ended)
        ⟨hinside, .refl _, rfl, (steps_of_included? hs σ.1.compiler []).symm, ?_, rfl, rfl⟩
      refine (fatesOf_append _ _).trans ?_
      rw [fatesOf_append]
      simp [fatesOf, Course.fates]
    · rw [inclusion, exec_bind, exec_meet hrun]
      refine .of_error .halted ⟨.refl _, fatesOf_append _ _, .inr ⟨name, z', rfl, ?_, hx, ?_, .inl hactive⟩⟩
      · exact congrArg (·.1.result) (step_of_included? hs _)
      · rw [← Tree.place?_congr hinside.workDir, Tree.place?_of_locate hl]
    · exact charted_followed L hinside hs ⟨z, hz, hmem⟩ hx hfile hrun

end

/-! ## Statements and files -/

section

variable (L : Layout o t S W) {compileFile : Path → Recorded (List Passage)}
  (hfile : ∀ path σ, t.Grows W σ.1.files → (∀ z, t.place? path = some z → S z) →
    ChartedFile o t W path σ (exec (compileFile path) σ).1 (exec (compileFile path) σ).2)
include L hfile

theorem charted_statement (way : List Place) (path : Path) (hinside : t.Grows W σ.1.files)
    (hname : ∀ name, included? s = some name → ∃ z, S z ∧ name ∈ t.namesAt o z) :
    Charted o t W path [s] σ (exec (statement o compileFile way path s) σ).1
      (exec (statement o compileFile way path s) σ).2 := by
  cases hs : included? s with
  | none => exact charted_own hinside hs
  | some name =>
    rw [exec_statement_of_included? hs]
    exact charted_inclusion L hinside hs (hname name hs) hfile

theorem charted_statements (way : List Place) (path : Path) (hinside : t.Grows W σ.1.files)
    (hnames : ∀ s ∈ ss, ∀ name, included? s = some name → ∃ z, S z ∧ name ∈ t.namesAt o z) :
    Charted o t W path ss σ (exec (statements o compileFile way path ss) σ).1
      (exec (statements o compileFile way path ss) σ).2 := by
  induction ss generalizing σ with
  | nil =>
    exact .of_ok .ended ⟨hinside, .refl _, rfl, rfl, (List.append_nil _).symm, rfl, rfl⟩
  | cons s ss ih =>
    obtain ⟨hname, hnames⟩ := List.forall_mem_cons.mp hnames
    have hstatement := charted_statement L hfile way path hinside hname
    rw [statements]
    cases hfirst : exec (statement o compileFile way path s) σ with
    | mk r σ₁ =>
      rw [hfirst] at hstatement
      cases r with
      | error g =>
        rw [exec_bind_error hfirst]
        refine .of_fault fun p l f hg => ?_
        obtain ⟨c, s', hgoes, hl, hhalts⟩ := hstatement.error p l f (congrArg _ hg)
        exact ⟨c, s', hgoes.extend ss, hl, hhalts⟩
      | ok passage =>
        obtain ⟨c, hgoes, hcompletes⟩ := hstatement.ok passage rfl
        have hrest := ih hcompletes.inside hnames
        rw [exec_bind_ok hfirst]
        cases hsecond : exec (statements o compileFile way path ss) σ₁ with
        | mk r σ₂ =>
          rw [hsecond] at hrest
          cases r with
          | error g =>
            rw [exec_bind_error hsecond]
            refine .of_fault fun p l f hg => ?_
            obtain ⟨d, s', hgoes', hl, hhalts⟩ := hrest.error p l f (congrArg _ hg)
            obtain ⟨-, -, -, -, hchain⟩ := hgoes.append_eq d
            refine ⟨c.append d, s', hgoes.append hgoes', hl, ?_⟩
            rw [hchain]
            exact hcompletes.halts hgoes hhalts
          | ok passages =>
            obtain ⟨d, hgoes', hcompletes'⟩ := hrest.ok passages rfl
            obtain ⟨hsources, -⟩ := hgoes.append_eq d
            rw [exec_bind_ok hsecond]
            refine .of_ok (hgoes.append hgoes') ?_
            rw [hsources]
            exact hcompletes.trans hgoes hcompletes'

end

/-- Only a fault of a statement tells something about the statements of a file. -/
theorem ChartedFile.of_fault {g : BuildFault} (h : ∀ p l f, g = .source p l f → ∃ source c s,
    t.HasSource o path source ∧ Goes o t path (InstallScript.statements source) c (some (p, s)) ∧
      l = s.line ∧ Halts o t (path :: c.chain.map (sourceOf o)) c s f σ σ') :
    ChartedFile o t W path σ (.error g : Except _ α) σ' where
  ok _ he := by cases he
  error p l f he := h p l f (Except.error.inj he)

/-- The state in which the statements of a file are compiled. -/
def entered (σ : Session × List Event) (z : Place) : Session × List Event :=
  ({ σ.1 with fileCount := σ.1.fileCount + 1, active := σ.1.active ++ [z] },
    σ.2 ++ [.moved (σ.1.active ++ [z])])

theorem exec_within_entered (z : Place) (act : Recorded α) (σ : Session × List Event) :
    exec (within z act) ({ σ.1 with fileCount := σ.1.fileCount + 1 }, σ.2) =
      let e := exec act (entered σ z)
      (e.1, ({ e.2.1 with active := e.2.1.active.dropLast },
        e.2.2 ++ [.moved e.2.1.active.dropLast])) := rfl

theorem fatesOf_moved (es : List Event) (active : List Place) :
    fatesOf (es ++ [.moved active]) = fatesOf es := by
  rw [fatesOf_append]
  exact List.append_nil _

theorem Completes.left {z : Place} {source : String} {log : List Entry}
    (h : Completes o t W sources c (entered σ z) σ') : Completes o t W (source :: sources) c σ
      ({ σ'.1 with
        active := σ'.1.active.dropLast
        lineCount := σ'.1.lineCount + linesRead (InstallScript.statements source)
        log }, σ'.2 ++ [.moved σ'.1.active.dropLast]) where
  inside := h.inside
  files := h.files
  active := by
    dsimp only
    rw [h.active]
    exact List.dropLast_concat
  compiler := h.compiler
  fates := by
    rw [fatesOf_moved, h.fates]
    exact congrArg (· ++ c.fates) (fatesOf_moved _ _)
  fileCount := by
    rw [List.length_cons, Nat.add_comm sources.length, ← Nat.add_assoc]
    exact h.fileCount
  lineCount := by
    rw [linesRead_statements, lineTotal, Nat.add_comm (Text.lines source).length, ← Nat.add_assoc]
    exact congrArg (· + (Text.lines source).length) h.lineCount

/-- The file that is left is on the way to the statement at fault. -/
theorem Halts.left {z : Place} (hz : t.place? path = some z)
    (h : Halts o t chain c s f (entered σ z) σ') : Halts o t (path :: chain) c s f σ
      ({ σ'.1 with active := σ'.1.active.dropLast }, σ'.2 ++ [.moved σ'.1.active.dropLast]) where
  files := h.files
  fates := by
    rw [fatesOf_moved, h.fates]
    exact congrArg (· ++ c.fates) (fatesOf_moved _ _)
  cause := by
    refine h.cause.mono fun z' hz' => ?_
    rcases hz' with hactive | ⟨path', hpath', hz'⟩
    · rcases List.mem_append.mp hactive with hactive | hlast
      · exact .inl hactive
      · cases List.mem_singleton.mp hlast
        exact .inr ⟨path, List.mem_cons_self, hz⟩
    · exact .inr ⟨path', List.mem_cons_of_mem _ hpath', hz'⟩

/-- A file takes the course of its statements. -/
theorem charted_file (L : Layout o t S W) (n : Nat) (way : List Place) (hinside : t.Grows W σ.1.files)
    (hS : ∀ z, t.place? path = some z → S z) :
    ChartedFile o t W path σ (exec (file o n way path) σ).1 (exec (file o n way path) σ).2 := by
  induction n generalizing σ way path with
  | zero => exact .of_fault fun _ _ _ h => BuildFault.noConfusion h
  | succ n ih =>
    rw [file, exec_bind, exec_lift]
    cases hopen : σ.1.run (opening o path) with
    | mk r b =>
      cases r with
      | error g =>
        obtain ⟨p, g, rfl⟩ := FailsAtFiles.opening o path σ.1 g (by rw [hopen])
        exact .of_fault fun _ _ _ h => BuildFault.noConfusion h
      | ok opened =>
        obtain ⟨source, z⟩ := opened
        obtain ⟨hs, hl, rfl⟩ := of_run_opening_counted hopen
        obtain ⟨hz, hsource, hnames⟩ := L.hasSource hinside hS hs hl
        have hbody := charted_statements (σ := entered σ z) L
          (fun path' σ' hinside' hS' => ih (way ++ [z]) hinside' hS') (way ++ [z]) path hinside
          fun s hs name hname => ⟨z, hS z hz, hnames s hs name hname⟩
        dsimp only
        rw [exec_within_entered]
        dsimp only
        cases hstatements : exec (statements o (file o n (way ++ [z])) (way ++ [z]) path
            (InstallScript.statements source)) (entered σ z) with
        | mk r σ' =>
          rw [hstatements] at hbody
          cases r with
          | error g =>
            rw [exec_bind_error hstatements]
            refine .of_fault fun p l f hg => ?_
            obtain ⟨c, s, hgoes, hline, hhalts⟩ := hbody.error p l f (congrArg _ hg)
            exact ⟨source, c, s, hsource, hgoes, hline, hhalts.left hz⟩
          | ok content =>
            rw [exec_bind_ok hstatements]
            refine ⟨fun _ _ => ?_, fun _ _ _ h => by cases h⟩
            obtain ⟨c, hgoes, hcompletes⟩ := hbody.ok content rfl
            exact ⟨source, c, hsource, hgoes, hcompletes.left⟩

/-! ## Scripts -/

/-- Writes the script, once its main file is compiled. -/
def scriptEnd (o : Options) (target : Path) (content : List Passage) : Recorded Unit := do
  lift (info s!"Output file: {target.text}")
  lift (writeFile o target (Passage.writeAll (.own Line.prelude :: content)))
  record (.wrote target (.own Line.prelude :: content))

/-- A script ends where its main file fails, or goes on to be written. -/
theorem exec_script (name : String) (target : Path) (σ : Session × List Event) : ∃ log σ',
    (∃ g, exec (file o (depth σ.1.files) [] (sourceOf o name)) ({ σ.1 with log }, σ.2) = (.error g, σ') ∧
      exec (script o name target) σ = (.error g, σ')) ∨
    ∃ content,
      exec (file o (depth σ.1.files) [] (sourceOf o name)) ({ σ.1 with log }, σ.2) = (.ok content, σ') ∧
      exec (script o name target) σ = exec (scriptEnd o target content) σ' := by
  let log := σ.1.log ++ [⟨.info, .build, s!"Begin compiling file: {(sourceOf o name).text}"⟩]
  have hscript : exec (script o name target) σ = exec (file o (depth σ.1.files) [] (sourceOf o name) >>=
      scriptEnd o target) ({ σ.1 with log }, σ.2) :=
    (exec_info_bind _ _ σ).trans (exec_get_bind (fun b =>
      file o (depth b.files) [] (sourceOf o name) >>= scriptEnd o target) _)
  cases hfile : exec (file o (depth σ.1.files) [] (sourceOf o name)) ({ σ.1 with log }, σ.2) with
  | mk r σ' =>
    cases r with
    | error g => exact ⟨log, σ', .inl ⟨g, hfile, hscript.trans (exec_bind_error hfile)⟩⟩
    | ok content => exact ⟨log, σ', .inr ⟨content, hfile, hscript.trans (exec_bind_ok hfile)⟩⟩

theorem exec_scriptEnd (target : Path) (content : List Passage) (σ : Session × List Event) :
    (∃ p g, (exec (scriptEnd o target content) σ).1 = .error (.file p g)) ∨
      ∃ files log, σ.1.files.Grows (fun z => σ.1.files.place? target = some z) files ∧
        exec (scriptEnd o target content) σ = (.ok (), ({ σ.1 with files, log },
          σ.2 ++ [.wrote target (.own Line.prelude :: content)])) := by
  rw [scriptEnd, exec_info_bind, exec_bind, exec_lift]
  cases hwrite : Session.run _ (writeFile o target _) with
  | mk r b =>
    cases r with
    | error g =>
      obtain ⟨p, g, rfl⟩ := FailsAtFiles.writeFile o target _ _ g (congrArg Prod.fst hwrite)
      exact .inl ⟨p, g, rfl⟩
    | ok _ =>
      obtain ⟨files, hgrows, -, rfl⟩ := of_run_writeFile hwrite
      exact .inr ⟨files, _, hgrows, rfl⟩

section

variable (L : Layout o t S W) (hinside : t.Grows W σ.1.files)
  (hS : ∀ z, t.place? (sourceOf o name) = some z → S z) {target : Path}
include L hinside hS

/-- A script that ends with a fault of a statement has taken the course of its main file up to there. -/
theorem halts_script {p : Path} {l : Nat}
    (h : exec (script o name target) σ = (.error (.source p l f), σ')) :
    ∃ source c s, t.HasSource o (sourceOf o name) source ∧
      Goes o t (sourceOf o name) (InstallScript.statements source) c (some (p, s)) ∧ l = s.line ∧
      Halts o t (sourceOf o name :: c.chain.map (sourceOf o)) c s f σ σ' := by
  obtain ⟨log, σ₁, ⟨g, hfile, hscript⟩ | ⟨content, -, hscript⟩⟩ := exec_script (o := o) name target σ
  · cases h.symm.trans hscript
    have hchart := charted_file (σ := ({ σ.1 with log }, σ.2)) L (depth σ.1.files) [] hinside hS
    rw [hfile] at hchart
    obtain ⟨source, c, s, hsource, hgoes, hl, hhalts⟩ := hchart.error p l f rfl
    exact ⟨source, c, s, hsource, hgoes, hl, hhalts.files, hhalts.fates, hhalts.cause⟩
  · rw [hscript] at h
    obtain ⟨p', g, hend⟩ | ⟨files, log, -, hend⟩ := exec_scriptEnd (o := o) target content σ₁
    · rw [h] at hend
      cases hend
    · cases h.symm.trans hend

/-- A script that is compiled has taken a course of its main file to the end. -/
theorem completes_script (hW : ∀ z, t.place? target = some z → W z)
    (h : exec (script o name target) σ = (.ok (), σ')) :
    ∃ source c, t.HasSource o (sourceOf o name) source ∧
      Goes o t (sourceOf o name) (InstallScript.statements source) c none ∧
      t.Grows W σ'.1.files ∧ fatesOf σ'.2 = fatesOf σ.2 ++ c.fates ∧
      σ'.1.fileCount = σ.1.fileCount + (source :: c.sources).length ∧
      σ'.1.lineCount = σ.1.lineCount + lineTotal (source :: c.sources) := by
  obtain ⟨log, σ₁, ⟨g, -, hscript⟩ | ⟨content, hfile, hscript⟩⟩ := exec_script (o := o) name target σ
  · cases h.symm.trans hscript
  · have hchart := charted_file (σ := ({ σ.1 with log }, σ.2)) L (depth σ.1.files) [] hinside hS
    rw [hfile] at hchart
    obtain ⟨source, c, hsource, hgoes, hcompletes⟩ := hchart.ok content rfl
    rw [hscript] at h
    obtain ⟨p', g, hend⟩ | ⟨files, log, hgrows, hend⟩ := exec_scriptEnd (o := o) target content σ₁
    · rw [h] at hend
      cases hend
    · cases h.symm.trans hend
      rw [Tree.place?_congr hcompletes.inside.workDir] at hgrows
      refine ⟨source, c, hsource, hgoes, hcompletes.inside.trans (hgrows.mono hW), ?_,
        hcompletes.fileCount, hcompletes.lineCount⟩
      rw [fatesOf_append, hcompletes.fates]
      exact List.append_nil _

end

end Recorded

end InstallScript
