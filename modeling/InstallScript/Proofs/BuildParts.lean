import InstallScript.Build
import InstallScript.Proofs.Resemblance

/-!
The parts of a build. An inclusion is dealt with in two steps, of which the first decides what becomes of
the file (`Build.fate`); a file is opened, compiled and closed. Where no file is at fault (`FilesFine`),
each part does one thing to the state of the build.
-/

namespace InstallScript

/-! ## The parts -/

/-- What becomes of a file that is included. -/
inductive Fate
  | copied
  | absent
  | followed
deriving DecidableEq

namespace Build

/-- Where the file of a name is found. -/
def sourceOf (o : Options) (name : String) : Path := o.sourceDir.join ⟨name⟩

/-- Where the compiled file of a name goes. -/
def targetOf (o : Options) (name : String) : Path := o.targetDir.join (⟨name⟩ : Path).compiled

/-- The line that includes the compiled file. -/
def rewritten (s : Statement) (name : String) : String :=
  Line.writeInclude s.indent (⟨name⟩ : Path).compiled.text

/-- Compiles a statement of a source file, up to the inclusion of another one. -/
def compiled (source : Path) (s : Statement) : Build Output := do
  let (step, c) := (← get).compiler.step s
  modify fun b => { b with compiler := c }
  log (step.notes.map (·.entry source.text s.line))
  match step.result with
  | .error f => fail (.source source s.line f)
  | .ok out => return out

/-- Deals with an inclusion, up to the compilation of the file. -/
def fate (o : Options) (source : Path) (s : Statement) (name : String) : Build Fate := do
  let path := sourceOf o name
  if isExcluded o name path then
    info s!"Include file '{name}' is excluded, copying it to {(targetOf o name).text}"
    copyFile path (targetOf o name)
    return .copied
  else if !(← get).files.contains path then
    info s!"Include file '{name}' not found, assuming the target compiler finds it"
    return .absent
  else
    let place ← ofFile path ((← get).files.locate path)
    if (← get).active.contains place then fail (.source source s.line (.recursiveInclude name))
    info s!"Follow include: {path.text}"
    return .followed

/-- Reads a source file and finds its place. -/
def opening (o : Options) (path : Path) : Build (String × Place) := do
  let bytes ← ofFile path ((← get).files.read path)
  let source ← ofFile path ((o.encoding.decode bytes).mapError .notText)
  modify fun s => { s with fileCount := s.fileCount + 1 }
  let place ← ofFile path ((← get).files.locate path)
  return (source, place)

/-- Counts the lines of a file that has been compiled. -/
def closing (path : Path) (source : String) : Build Unit := do
  let count := linesRead (InstallScript.statements source)
  info s!"End compiling {count} lines in file {path.text}"
  modify fun s => { s with lineCount := s.lineCount + count }

variable {o : Options} {compileFile : Path → Build String} {source path : Path} {s : Statement}

theorem inclusion_eq (name : String) : inclusion o compileFile source s name = (do
    match ← fate o source s name with
    | .copied => return rewritten s name
    | .absent => return s.text
    | .followed =>
      let text ← compileFile (sourceOf o name)
      writeFile o (targetOf o name) text
      return rewritten s name) := by
  unfold inclusion fate
  dsimp only [sourceOf, targetOf, rewritten]
  split
  · simp only [bind_assoc, pure_bind]
  rw [bind_assoc]
  refine bind_congr fun b => ?_
  split
  · simp only [bind_assoc, pure_bind]
  simp only [bind_assoc]
  refine bind_congr fun b' => bind_congr fun place => bind_congr fun b'' => ?_
  split <;> simp only [bind_assoc, pure_bind]

theorem statement_eq : statement o compileFile source s = (do
    match ← compiled source s with
    | .text t => return t
    | .inclusion name => inclusion o compileFile source s name) := by
  unfold statement compiled
  simp only [bind_assoc]
  refine bind_congr fun b => bind_congr fun _ => bind_congr fun _ => ?_
  match (b.compiler.step s).1.result with
  | .error f => rfl
  | .ok (.text t) => rfl
  | .ok (.inclusion name) => rfl

theorem file_succ (n : Nat) : file o (n + 1) path = (do
    let (source, place) ← opening o path
    within place do
      let text ← statements o (file o n) path (InstallScript.statements source)
      closing path source
      return text) := by
  unfold file opening closing
  simp only [bind_assoc, pure_bind]

end Build

theorem Session.run_bind (b : Session) (act : Build α) (k : α → Build β) :
    b.run (act >>= k) = match b.run act with
      | (.ok a, b') => b'.run (k a)
      | (.error f, b') => (.error f, b') := by
  show (ExceptT.bindCont k (b.run act).1 : StateM _ _) (b.run act).2 = _
  rcases b.run act with ⟨_ | _, _⟩ <;> rfl

/-! ## Sources -/

namespace Tree

/-- The text of a source file, if it can be read and decoded. -/
def source? (t : Tree) (o : Options) (path : Path) : Option String :=
  match t.read path with
  | .ok bytes => (o.encoding.decode bytes).toOption
  | .error _ => none

variable {t : Tree} {o : Options} {path : Path} {source : String}

theorem source?_eq_some : t.source? o path = some source ↔
    ∃ p bytes, t.locate path = .ok p ∧ t.node? p = some (.file bytes) ∧
      o.encoding.decode bytes = .ok source := by
  have hdecode : ∀ r : Except DecodeFault String, r.toOption = some source ↔ r = .ok source := by
    rintro (f | s) <;> simp [Except.toOption]
  unfold source?
  cases hr : t.read path with
  | error f =>
    refine iff_of_false (fun h => nomatch h) ?_
    rintro ⟨p, bytes, hl, hn, _⟩
    cases hr.symm.trans (read_eq_ok.mpr ⟨p, hl, hn⟩)
  | ok bytes =>
    refine (hdecode _).trans ⟨fun hd => ?_, ?_⟩
    · obtain ⟨p, hl, hn⟩ := read_eq_ok.mp hr
      exact ⟨p, bytes, hl, hn, hd⟩
    · rintro ⟨p, bytes', hl, hn, hd⟩
      cases hr.symm.trans (read_eq_ok.mpr ⟨p, hl, hn⟩)
      exact hd

theorem mem_entries_of_file {p : Place} {bytes : Bytes} (h : t.node? p = some (.file bytes)) :
    p ∈ t.entries.map Prod.fst := by
  unfold node? at h
  split at h
  · cases h
  · obtain ⟨before, behind, heq, _⟩ := List.lookup_eq_some_iff.mp h
    rw [heq]
    simp

end Tree

/-! ## What the parts do -/

namespace Build

/-- No file has been at fault. -/
def FilesFine (r : Except BuildFault α) : Prop := ∀ path f, r ≠ .error (.file path f)

variable {o : Options} {b : Session} {path : Path}

theorem FilesFine.of_ok {act : Build α} {a : α} {b' : Session} (h : b.run act = (.ok a, b')) :
    FilesFine (b.run act).1 := by
  rw [h]
  exact fun _ _ hr => nomatch hr

theorem FilesFine.of_bind {act : Build α} {k : α → Build β} (h : FilesFine (b.run (act >>= k)).1) :
    FilesFine (b.run act).1 := by
  rw [Session.run_bind] at h
  match hact : b.run act with
  | (.ok a, b') => exact fun _ _ hr => nomatch hr
  | (.error f, b') =>
    rw [hact] at h
    rintro path f' ⟨⟩
    exact h path f' rfl

theorem run_get_bind (k : Session → Build α) : b.run (get >>= k) = b.run (k b) := rfl

theorem run_info_bind (message : String) (k : Unit → Build α) : b.run (info message >>= k) =
    ({ b with log := b.log ++ [⟨.info, .build, message⟩] } : Session).run (k ()) := rfl

theorem run_setFiles_bind (files : Tree) (k : Unit → Build α) :
    b.run (setFiles files >>= k) = ({ b with files } : Session).run (k ()) := rfl

theorem run_ofFile_bind {r : Except FileFault α} {k : α → Build β}
    (hfine : FilesFine (b.run (ofFile path r >>= k)).1) :
    ∃ a, r = .ok a ∧ b.run (ofFile path r >>= k) = b.run (k a) := by
  cases r with
  | error f => exact absurd rfl (hfine path f)
  | ok a => exact ⟨a, rfl, rfl⟩

theorem run_compiled (source : Path) (s : Statement) : b.run (compiled source s) =
    (match (b.compiler.step s).1.result with
      | .error f => .error (.source source s.line f)
      | .ok out => .ok out,
    { b with
      compiler := (b.compiler.step s).2
      log := b.log ++ (b.compiler.step s).1.notes.map (·.entry source.text s.line) }) := by
  have hrun : b.run (compiled source s) = ({ b with
      compiler := (b.compiler.step s).2
      log := b.log ++ (b.compiler.step s).1.notes.map (·.entry source.text s.line) } : Session).run
        (match (b.compiler.step s).1.result with
        | .error f => fail (.source source s.line f)
        | .ok out => pure out) := rfl
  rw [hrun]
  cases (b.compiler.step s).1.result <;> rfl

theorem run_fate (source : Path) (s : Statement) {name : String}
    (hx : isExcluded o name (sourceOf o name) = false) :
    (∃ f log, b.files.locate (sourceOf o name) = .error f ∧
      b.run (fate o source s name) = (.ok .absent, { b with log })) ∨
    (∃ z, b.files.locate (sourceOf o name) = .ok z ∧ z ∈ b.active ∧
      b.run (fate o source s name) = (.error (.source source s.line (.recursiveInclude name)), b)) ∨
    ∃ z log, b.files.locate (sourceOf o name) = .ok z ∧ z ∉ b.active ∧
      b.run (fate o source s name) = (.ok .followed, { b with log }) := by
  unfold fate
  rw [if_neg (by simp [hx]), run_get_bind, Tree.contains]
  cases hl : b.files.locate (sourceOf o name) with
  | error f => exact .inl ⟨f, _, rfl, rfl⟩
  | ok z =>
    rw [if_neg (by simp [Except.isOk, Except.toBool]), run_get_bind, hl]
    refine .inr ?_
    show (∃ _, _ ∧ _ ∧ b.run (get >>= _) = _) ∨ ∃ _ _, _ ∧ _ ∧ b.run (get >>= _) = _
    simp only [run_get_bind]
    by_cases hz : z ∈ b.active
    · simp only [if_pos (List.contains_iff_mem.mpr hz)]
      exact .inl ⟨z, rfl, hz, rfl⟩
    · simp only [if_neg (fun h => hz (List.contains_iff_mem.mp h))]
      exact .inr ⟨z, _, rfl, hz, rfl⟩

theorem run_opening (hfine : FilesFine (b.run (opening o path)).1) :
    ∃ source z fileCount, b.files.source? o path = some source ∧ b.files.locate path = .ok z ∧
      b.run (opening o path) = (.ok (source, z), { b with fileCount }) := by
  unfold opening at hfine ⊢
  rw [run_get_bind] at hfine ⊢
  obtain ⟨bytes, hread, hrun⟩ := run_ofFile_bind hfine
  rw [hrun] at hfine ⊢
  obtain ⟨source, hdecode, hrun⟩ := run_ofFile_bind hfine
  rw [hrun]
  obtain ⟨z, hl, hn⟩ := Tree.read_eq_ok.mp hread
  have hdecode : o.encoding.decode bytes = .ok source := by
    cases hd : o.encoding.decode bytes with
    | error f =>
      rw [hd] at hdecode
      cases hdecode
    | ok s =>
      rw [hd] at hdecode
      cases hdecode
      rfl
  refine ⟨source, z, b.fileCount + 1, Tree.source?_eq_some.mpr ⟨z, bytes, hl, hn, hdecode⟩, hl, ?_⟩
  show ({ b with fileCount := b.fileCount + 1 } : Session).run
    (ofFile path (b.files.locate path) >>= fun place => pure (source, place)) = _
  rw [hl]
  rfl

theorem run_prepareDir (hfine : FilesFine (b.run (prepareDir path)).1) :
    (b.files.prepare path).1 = .ok () ∧
      b.run (prepareDir path) = (.ok (), { b with files := (b.files.prepare path).2 }) := by
  unfold prepareDir at hfine ⊢
  unfold Tree.prepare
  generalize path.parent? = parent at hfine ⊢
  cases parent with
  | none => exact ⟨rfl, rfl⟩
  | some dir =>
    dsimp only at hfine ⊢
    by_cases hdir : dir.text ≠ ""
    · simp only [if_pos hdir, run_get_bind, run_setFiles_bind] at hfine ⊢
      cases hr : (b.files.makeDirs dir.ancestors).1 with
      | error f =>
        rw [hr] at hfine
        exact absurd rfl (hfine dir f)
      | ok _ => exact ⟨rfl, rfl⟩
    · rw [if_neg hdir, if_neg hdir]
      exact ⟨rfl, rfl⟩

/-- A file is written once its directory has been made. -/
theorem run_writeFile_eq {text : String} (hfine : FilesFine (b.run (writeFile o path text)).1) :
    ∃ files, (b.files.prepare path).1 = .ok () ∧
      (b.files.prepare path).2.write path (o.encoding.encode text) = .ok files ∧
      b.run (writeFile o path text) = (.ok (), { b with files }) := by
  unfold writeFile at hfine ⊢
  obtain ⟨hprepare, hrun⟩ := run_prepareDir hfine.of_bind
  rw [Session.run_bind, hrun] at hfine ⊢
  dsimp only at hfine ⊢
  rw [run_get_bind] at hfine ⊢
  obtain ⟨files, hwrite, hrun'⟩ := run_ofFile_bind hfine
  exact ⟨files, hprepare, hwrite, hrun'⟩

theorem run_writeFile {text : String} (hfine : FilesFine (b.run (writeFile o path text)).1) :
    ∃ files, b.files.Grows (fun z => b.files.place? path = some z) files ∧
      files.read path = .ok (o.encoding.encode text) ∧
      b.run (writeFile o path text) = (.ok (), { b with files }) := by
  obtain ⟨files, -, hwrite, hrun⟩ := run_writeFile_eq hfine
  have hgrows : b.files.Grows (fun z => b.files.place? path = some z) (b.files.prepare path).2 :=
    Tree.grows_prepare b.files path
  refine ⟨files, hgrows.trans ?_, Tree.read_write hwrite, hrun⟩
  rw [← Tree.place?_congr hgrows.workDir path]
  exact Tree.grows_write hwrite

end Build

theorem exists_depth_eq (t : Tree) : ∃ n, Build.depth t = n + 1 ∧ t.entries.length ≤ n :=
  ⟨t.entries.length + 999, rfl, by omega⟩

/-- Compiled files go to a directory of their own. -/
def intoOut : Options := { targetDir := ⟨"out"⟩ }

end InstallScript
