import InstallScript.Proofs.BuildParts
import InstallScript.Proofs.Progress
import InstallScript.Proofs.Runs

/-!
Builds that record what happens. A build leaves nothing behind of the order in which files were
entered, met and written. Here an event is recorded for each of these, and for each statement that is
compiled; an inclusion is recorded with the files that lead to it, which are handed down from file to
file and are not taken from the state of the build. But for the record the build is the same
(`Recorded.erases_script`).
-/

namespace InstallScript

/-- What stands in a compiled file for one statement: a text, or the line that includes the compiled
file of another name. -/
inductive Passage
  | own (text : String)
  | brought (indent name : String)
deriving DecidableEq

namespace Passage

def text : Passage → String
  | own t => t
  | brought indent name => Line.writeInclude indent (⟨name⟩ : Path).compiled.text

/-- The text of a compiled file. -/
def writeAll : List Passage → String
  | [] => ""
  | p :: ps => p.text ++ Text.newline ++ writeAll ps

end Passage

/-- Something that happens in a build. -/
inductive Event
  /-- A file is begun or ended, after which these files are being compiled. -/
  | moved (active : List Place)
  /-- A statement of the last of the files `way`, each of which is included by the one before, includes
  the file of a name. This is where it has been found, and what has come of it. -/
  | met (way : List Place) (name : String) (found : Except FileFault Place)
      (outcome : Except BuildFault Fate)
  /-- A statement has been compiled. -/
  | made (text : String) (lines : List Line)
  /-- A compiled file has been written. -/
  | wrote (path : Path) (content : List Passage)

/-- The texts of the statements, in the order in which they have been compiled. The line that stands for
a file which is compiled on its own is not among them. -/
def madeIn (es : List Event) : List String :=
  es.filterMap fun
    | .made text _ => some text
    | _ => none

@[simp] theorem madeIn_append (es es' : List Event) : madeIn (es ++ es') = madeIn es ++ madeIn es' :=
  List.filterMap_append

theorem madeIn_concat {es : List Event} {e : Event} (h : madeIn [e] = []) :
    madeIn (es ++ [e]) = madeIn es := by
  rw [madeIn_append, h, List.append_nil]

/-- A build together with the events so far. -/
abbrev Recorded := ExceptT BuildFault (StateM (Session × List Event))

namespace Recorded

/-- What an action gives, and the state it leaves. -/
def exec (act : Recorded α) (σ : Session × List Event) :
    Except BuildFault α × (Session × List Event) :=
  (ExceptT.run act).run σ

/-- A part of a build in which nothing is recorded. -/
def lift (act : Build α) : Recorded α :=
  ExceptT.mk fun σ => ((σ.1.run act).1, ((σ.1.run act).2, σ.2))

def record (e : Event) : Recorded Unit := modify fun σ => (σ.1, σ.2 ++ [e])

open Build

/-- Deals with an inclusion, up to the compilation of the file, and records what has come of it. -/
def meet (o : Options) (way : List Place) (source : Path) (s : Statement) (name : String) :
    Recorded Fate :=
  ExceptT.mk fun σ => ((σ.1.run (fate o source s name)).1, ((σ.1.run (fate o source s name)).2,
    σ.2 ++ [.met way name (σ.1.files.locate (sourceOf o name)) (σ.1.run (fate o source s name)).1]))

/-- What stands for an inclusion. -/
def inclusion (o : Options) (compileFile : Path → Recorded (List Passage)) (way : List Place)
    (source : Path) (s : Statement) (name : String) : Recorded Passage := do
  match ← meet o way source s name with
  | .copied => return .brought s.indent name
  | .absent =>
    record (.made s.text [])
    return .own s.text
  | .followed =>
    let content ← compileFile (sourceOf o name)
    lift (writeFile o (targetOf o name) (Passage.writeAll content))
    record (.wrote (targetOf o name) content)
    return .brought s.indent name

/-- What stands for a statement of a source file. -/
def statement (o : Options) (compileFile : Path → Recorded (List Passage)) (way : List Place)
    (source : Path) (s : Statement) : Recorded Passage := do
  let lines := (← lift get).compiler.emitted s
  match ← lift (compiled source s) with
  | .text t =>
    record (.made t lines)
    return .own t
  | .inclusion name => inclusion o compileFile way source s name

def statements (o : Options) (compileFile : Path → Recorded (List Passage)) (way : List Place)
    (source : Path) : List Statement → Recorded (List Passage)
  | [] => return []
  | s :: ss => do
    let p ← statement o compileFile way source s
    let ps ← statements o compileFile way source ss
    return p :: ps

/-- Changes the files that are being compiled. -/
def move (change : List Place → List Place) : StateM (Session × List Event) Unit :=
  modify fun σ => ({ σ.1 with active := change σ.1.active }, σ.2 ++ [.moved (change σ.1.active)])

/-- Marks a file as being compiled for the time of `act`, however it ends. -/
def within (place : Place) (act : Recorded α) : Recorded α := do
  move (· ++ [place])
  ExceptT.mk do
    let r ← act.run
    move List.dropLast
    return r

/-- The content of the compiled file, for a file that the files `way` lead to. -/
def file (o : Options) : Nat → List Place → Path → Recorded (List Passage)
  | 0, _, path => lift (fail (.includeDepth path))
  | n + 1, way, path => do
    let (source, place) ← lift (opening o path)
    within place do
      let content ← statements o (file o n (way ++ [place])) (way ++ [place]) path
        (InstallScript.statements source)
      lift (closing path source)
      return content

def script (o : Options) (name : String) (target : Path) : Recorded Unit := do
  let path := o.sourceDir.join ⟨name⟩
  lift (info s!"Begin compiling file: {path.text}")
  let content ← file o (depth (← lift get).files) [] path
  lift (info s!"Output file: {target.text}")
  lift (writeFile o target (Passage.writeAll (.own Line.prelude :: content)))
  record (.wrote target (.own Line.prelude :: content))

/-! ## Running -/

variable {α β γ : Type} {act : Recorded α} {k : α → Recorded β} {σ σ' : Session × List Event}

theorem exec_bind (act : Recorded α) (k : α → Recorded β) (σ : Session × List Event) :
    exec (act >>= k) σ = match exec act σ with
      | (.ok a, σ') => exec (k a) σ'
      | (.error f, σ') => (.error f, σ') := by
  show (ExceptT.bindCont k (exec act σ).1 : StateM _ _) (exec act σ).2 = _
  rcases exec act σ with ⟨_ | _, _⟩ <;> rfl

theorem exec_bind_ok {a : α} (h : exec act σ = (.ok a, σ')) : exec (act >>= k) σ = exec (k a) σ' := by
  rw [exec_bind, h]

theorem exec_bind_error {f : BuildFault} (h : exec act σ = (.error f, σ')) :
    exec (act >>= k) σ = (.error f, σ') := by
  rw [exec_bind, h]

theorem exec_lift (act : Build α) (σ : Session × List Event) :
    exec (lift act) σ = ((σ.1.run act).1, ((σ.1.run act).2, σ.2)) := rfl

theorem of_exec_lift {act : Build α} {a : α} {b : Session} {es : List Event}
    (h : exec (lift act) σ = (.ok a, (b, es))) : σ.1.run act = (.ok a, b) ∧ es = σ.2 := by
  rw [exec_lift] at h
  obtain ⟨hr, hσ⟩ := Prod.mk.inj h
  obtain ⟨hb, hes⟩ := Prod.mk.inj hσ
  exact ⟨Prod.ext hr hb, hes.symm⟩

theorem exec_get_bind (k : Session → Recorded α) (σ : Session × List Event) :
    exec (lift get >>= k) σ = exec (k σ.1) σ :=
  exec_bind_ok rfl

theorem exec_info_bind (message : String) (k : Unit → Recorded α) (σ : Session × List Event) :
    exec (lift (info message) >>= k) σ =
      exec (k ()) ({ σ.1 with log := σ.1.log ++ [⟨.info, .build, message⟩] }, σ.2) :=
  exec_bind_ok rfl

theorem exec_meet {o : Options} {way : List Place} {path : Path} {s : Statement} {name : String}
    {r : Except BuildFault Fate} {b : Session} (h : σ.1.run (fate o path s name) = (r, b)) :
    exec (meet o way path s name) σ =
      (r, (b, σ.2 ++ [.met way name (σ.1.files.locate (sourceOf o name)) r])) := by
  show ((σ.1.run (fate o path s name)).1, ((σ.1.run (fate o path s name)).2, σ.2 ++ [.met way name
    (σ.1.files.locate (sourceOf o name)) (σ.1.run (fate o path s name)).1])) = _
  rw [h]

/-- A statement that includes a file leaves the compiler as it is. -/
theorem exec_statement_of_included? {o : Options} {compileFile : Path → Recorded (List Passage)}
    {way : List Place} {path : Path} {s : Statement} {name : String} (hs : included? s = some name) :
    exec (statement o compileFile way path s) σ =
      exec (inclusion o compileFile way path s name) σ := by
  rw [statement, exec_get_bind, exec_bind, exec_lift, run_compiled, step_of_included? hs]
  simp only [List.map_nil, List.append_nil]

theorem exec_within (place : Place) (act : Recorded α) (σ : Session × List Event) :
    exec (within place act) σ =
      let active := σ.1.active ++ [place]
      let e := exec act ({ σ.1 with active }, σ.2 ++ [.moved active])
      (e.1, ({ e.2.1 with active := e.2.1.active.dropLast },
        e.2.2 ++ [.moved e.2.1.active.dropLast])) := rfl

/-! ## The same build -/

/-- But for the events, the action does what the build does, where results correspond by `f`. -/
def Erases (f : α → γ) (act : Recorded α) (act' : Build γ) : Prop :=
  ∀ σ, ((exec act σ).1.map f, (exec act σ).2.1) = σ.1.run act'

namespace Erases

variable {f : α → γ} {act' : Build γ}

theorem lift (act : Build α) : Erases id (lift act) act := by
  intro σ
  rw [exec_lift]
  rcases σ.1.run act with ⟨_ | _, _⟩ <;> rfl

theorem pure (f : α → γ) (a : α) : Erases f (pure a) (pure (f a)) := fun _ => rfl

theorem bind {g : β → γ} {δ : Type} {f : α → δ} {act' : Build δ} {k' : δ → Build γ}
    (h : Erases f act act') (hk : ∀ a, Erases g (k a) (k' (f a))) :
    Erases g (act >>= k) (act' >>= k') := by
  intro σ
  have hσ := h σ
  rw [exec_bind, Session.run_bind, ← hσ]
  match hact : exec act σ with
  | (.ok a, σ') => exact hk a σ'
  | (.error f, σ') => rfl

theorem record (e : Event) (h : Erases f act act') :
    Erases f (record e >>= fun _ => act) act' := by
  intro σ
  rw [exec_bind]
  exact h (σ.1, σ.2 ++ [e])

/-- What is recorded last leaves the result as it is. -/
theorem lift_record (act : Build Unit) (e : Event) :
    Erases id (Recorded.lift act >>= fun _ => Recorded.record e) act := by
  intro σ
  rw [exec_bind, exec_lift]
  rcases σ.1.run act with ⟨_ | _, _⟩ <;> rfl

theorem within (place : Place) (h : Erases f act act') :
    Erases f (within place act) (Build.within place act') := by
  intro σ
  have hσ := h ({ σ.1 with active := σ.1.active ++ [place] }, σ.2 ++ [.moved (σ.1.active ++ [place])])
  have hrun : σ.1.run (Build.within place act') =
      let (r, b) := { σ.1 with active := σ.1.active ++ [place] }.run act'
      (r, { b with active := b.active.dropLast }) := rfl
  rw [exec_within, hrun, ← hσ]

end Erases

variable {o : Options} {way : List Place} {compileFile : Path → Recorded (List Passage)}
  {compileFile' : Path → Build String}

theorem erases_meet (source : Path) (s : Statement) (name : String) :
    Erases id (meet o way source s name) (fate o source s name) := by
  intro σ
  show ((σ.1.run (fate o source s name)).1.map id, (σ.1.run (fate o source s name)).2) = _
  rcases σ.1.run (fate o source s name) with ⟨_ | _, _⟩ <;> rfl

theorem erases_inclusion
    (h : ∀ path, Erases Passage.writeAll (compileFile path) (compileFile' path)) (source : Path)
    (s : Statement) (name : String) : Erases Passage.text (inclusion o compileFile way source s name)
      (Build.inclusion o compileFile' source s name) := by
  rw [Build.inclusion_eq]
  refine .bind (erases_meet source s name) fun fate => ?_
  match fate with
  | .copied => exact .pure _ _
  | .absent => exact .record _ (.pure _ _)
  | .followed =>
    exact .bind (h _) fun content => .bind (.lift _) fun _ => .record _ (.pure _ _)

theorem erases_statement
    (h : ∀ path, Erases Passage.writeAll (compileFile path) (compileFile' path)) (source : Path)
    (s : Statement) : Erases Passage.text (statement o compileFile way source s)
      (Build.statement o compileFile' source s) := by
  have hrest : ∀ lines, Erases Passage.text (do
      match ← Recorded.lift (compiled source s) with
      | .text t =>
        Recorded.record (.made t lines)
        return .own t
      | .inclusion name => inclusion o compileFile way source s name)
      (Build.statement o compileFile' source s) := by
    intro lines
    rw [Build.statement_eq]
    refine .bind (.lift _) fun out => ?_
    match out with
    | .text t => exact .record _ (.pure _ _)
    | .inclusion name => exact erases_inclusion h source s name
  exact fun σ => hrest (σ.1.compiler.emitted s) σ

theorem erases_statements
    (h : ∀ path, Erases Passage.writeAll (compileFile path) (compileFile' path)) (source : Path)
    (ss : List Statement) : Erases Passage.writeAll (statements o compileFile way source ss)
      (Build.statements o compileFile' source ss) := by
  induction ss with
  | nil => exact .pure _ _
  | cons s ss ih =>
    exact .bind (erases_statement h source s) fun p => .bind ih fun ps => .pure Passage.writeAll _

theorem erases_file (n : Nat) (way : List Place) (path : Path) :
    Erases Passage.writeAll (file o n way path) (Build.file o n path) := by
  induction n generalizing way path with
  | zero => exact fun _ => rfl
  | succ n ih =>
    rw [Build.file_succ]
    refine .bind (.lift _) fun opened => .within _ ?_
    exact .bind (erases_statements (ih _) path _) fun content => .bind (.lift _) fun _ => .pure _ _

theorem erases_script (name : String) (target : Path) :
    Erases id (script o name target) (Build.script o name target) :=
  .bind (.lift _) fun _ => .bind (.lift _) fun _ => .bind (erases_file _ _ _) fun _ =>
    .bind (.lift _) fun _ => .lift_record _ _

/-- What a build with a record gives and leaves is what the build does. -/
theorem run_script {b b' : Session} {es es' : List Event} {r : Except BuildFault Unit} {name : String}
    {target : Path} (h : exec (script o name target) (b, es) = (r, b', es')) :
    b.run (Build.script o name target) = (r, b') := by
  rw [← erases_script name target (b, es), h, Except.map_id]
  rfl

end Recorded

end InstallScript
