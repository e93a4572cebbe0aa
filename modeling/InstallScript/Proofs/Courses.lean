import InstallScript.Proofs.InclusionDepth

/-!
The course of a build. A build goes through the statements of a file and, where one of them includes
another file, through the statements of that file. A `Course` has what has become of each of them, up to
the end or up to the statement that is at fault; `Goes` says which courses are possible in a tree of
files. A course tells which files have been compiled, what the compiler has been given, and to which
files has been written. `Layout` says that no file is written where sources are looked for: a source
that is read in the course of a build is then the one that was there at the beginning.
-/

namespace InstallScript

open Build

/-! ## Courses -/

/-- What has become of the statements of a file, from the first one on. -/
inductive Course
  /-- There are no further statements. -/
  | ended
  /-- The statement includes no file. -/
  | own (s : Statement) (rest : Course)
  /-- The file of the name has been copied. -/
  | copied (s : Statement) (name : String) (rest : Course)
  /-- There is no file of the name. -/
  | absent (s : Statement) (name : String) (rest : Course)
  /-- The file of the name, which has the source, has been compiled. -/
  | followed (s : Statement) (name source : String) (inner rest : Course)
  /-- The statement is at fault. -/
  | halted (s : Statement)
  /-- A statement of the file of the name is at fault. -/
  | haltedIn (s : Statement) (name source : String) (inner : Course)

namespace Course

/-- One course behind the other, unless the first one does not come to the end. -/
def append : Course → Course → Course
  | ended, d => d
  | own s rest, d => own s (rest.append d)
  | copied s name rest, d => copied s name (rest.append d)
  | absent s name rest, d => absent s name (rest.append d)
  | followed s name source inner rest, d => followed s name source inner (rest.append d)
  | halted s, _ => halted s
  | haltedIn s name source inner, _ => haltedIn s name source inner

/-- The sources of the included files that have been compiled, one for each time. -/
def sources : Course → List String
  | ended | halted _ => []
  | own _ rest | copied _ _ rest | absent _ _ rest => rest.sources
  | followed _ _ source inner rest => source :: inner.sources ++ rest.sources
  | haltedIn _ _ _ inner => inner.sources

/-- The inclusions that have been dealt with, and what has become of each. -/
def fates : Course → List (String × Fate)
  | ended | halted _ => []
  | own _ rest => rest.fates
  | copied _ name rest => (name, .copied) :: rest.fates
  | absent _ name rest => (name, .absent) :: rest.fates
  | followed _ name _ inner rest => (name, .followed) :: inner.fates ++ rest.fates
  | haltedIn _ name _ inner => (name, .followed) :: inner.fates

/-- The names of the included files that are finished, compiled or copied: a file of each of these has
been written. -/
def written : Course → List String
  | ended | halted _ => []
  | own _ rest | absent _ _ rest => rest.written
  | copied _ name rest => name :: rest.written
  | followed _ name _ inner rest => inner.written ++ name :: rest.written
  | haltedIn _ _ _ inner => inner.written

/-- The statements that have been compiled, without the one that is at fault. -/
def compiled : Course → List Statement
  | ended | halted _ => []
  | own s rest | copied s _ rest | absent s _ rest => s :: rest.compiled
  | followed s _ _ inner rest => s :: inner.compiled ++ rest.compiled
  | haltedIn s _ _ inner => s :: inner.compiled

/-- The names of the included files that lead to the statement at fault. -/
def chain : Course → List String
  | ended | halted _ => []
  | own _ rest | copied _ _ rest | absent _ _ rest | followed _ _ _ _ rest => rest.chain
  | haltedIn _ name _ inner => name :: inner.chain

/-- A file that is finished has been written to the place. -/
def Wrote (o : Options) (t : Tree) (c : Course) (z : Place) : Prop :=
  ∃ name ∈ c.written, t.place? (targetOf o name) = some z

end Course

/-- The file at the place of a path has the source. -/
def Tree.HasSource (t : Tree) (o : Options) (path : Path) (source : String) : Prop :=
  ∃ z bytes, t.place? path = some z ∧ t.node? z = some (.file bytes) ∧
    o.encoding.decode bytes = .ok source

/-- The courses that the statements of the file at a path can take. If a course stops at a statement that
is at fault, then this is the statement, with the path of its file. -/
inductive Goes (o : Options) (t : Tree) :
    Path → List Statement → Course → Option (Path × Statement) → Prop
  | ended {path : Path} : Goes o t path [] .ended none
  | own {path : Path} {s : Statement} {ss : List Statement} {rest : Course}
      {stop : Option (Path × Statement)} : included? s = none →
      Goes o t path ss rest stop → Goes o t path (s :: ss) (.own s rest) stop
  | copied {path : Path} {s : Statement} {ss : List Statement} {name : String} {rest : Course}
      {stop : Option (Path × Statement)} : included? s = some name →
      isExcluded o name (sourceOf o name) = true →
      Goes o t path ss rest stop → Goes o t path (s :: ss) (.copied s name rest) stop
  | absent {path : Path} {s : Statement} {ss : List Statement} {name : String} {rest : Course}
      {stop : Option (Path × Statement)} : included? s = some name →
      isExcluded o name (sourceOf o name) = false → (∀ z, t.locate (sourceOf o name) ≠ .ok z) →
      Goes o t path ss rest stop → Goes o t path (s :: ss) (.absent s name rest) stop
  | followed {path : Path} {s : Statement} {ss : List Statement} {name source : String}
      {inner rest : Course} {stop : Option (Path × Statement)} : included? s = some name →
      isExcluded o name (sourceOf o name) = false → t.HasSource o (sourceOf o name) source →
      Goes o t (sourceOf o name) (statements source) inner none →
      Goes o t path ss rest stop → Goes o t path (s :: ss) (.followed s name source inner rest) stop
  | halted {path : Path} {s : Statement} {ss : List Statement} :
      Goes o t path (s :: ss) (.halted s) (some (path, s))
  | haltedIn {path : Path} {s : Statement} {ss : List Statement} {name source : String}
      {inner : Course} {stop : Path × Statement} : included? s = some name →
      isExcluded o name (sourceOf o name) = false → t.HasSource o (sourceOf o name) source →
      Goes o t (sourceOf o name) (statements source) inner (some stop) →
      Goes o t path (s :: ss) (.haltedIn s name source inner) (some stop)

namespace Goes

variable {o : Options} {t : Tree} {path : Path} {ss ss' : List Statement} {c d : Course}
  {stop : Option (Path × Statement)}

theorem append (h : Goes o t path ss c none) (h' : Goes o t path ss' d stop) :
    Goes o t path (ss ++ ss') (c.append d) stop := by
  generalize hstop : none = none' at h
  induction h with
  | ended => exact h'
  | own hs _ ih => exact .own hs (ih h' hstop)
  | copied hs hx _ ih => exact .copied hs hx (ih h' hstop)
  | absent hs hx hl _ ih => exact .absent hs hx hl (ih h' hstop)
  | followed hs hx hsource hinner _ _ ih => exact .followed hs hx hsource hinner (ih h' hstop)
  | halted => cases hstop
  | haltedIn => cases hstop

/-- What comes behind the statement at fault makes no difference. -/
theorem extend {x : Path × Statement} (h : Goes o t path ss c (some x)) (ss' : List Statement) :
    Goes o t path (ss ++ ss') c (some x) := by
  generalize hstop : some x = stop at h
  induction h with
  | ended => cases hstop
  | own hs _ ih => exact hstop ▸ .own hs (hstop ▸ ih hstop)
  | copied hs hx _ ih => exact .copied hs hx (ih hstop)
  | absent hs hx hl _ ih => exact .absent hs hx hl (ih hstop)
  | followed hs hx hsource hinner _ _ ih => exact .followed hs hx hsource hinner (ih hstop)
  | halted => exact .halted
  | haltedIn hs hx hsource hinner _ => exact .haltedIn hs hx hsource hinner

/-- A statement at fault belongs to the source at its path. -/
theorem mem_statements {source : String} {x : Path × Statement}
    (h : Goes o t path ss c (some x)) (hsource : t.HasSource o path source)
    (hss : ∀ s ∈ ss, s ∈ statements source) :
    ∃ source', t.HasSource o x.1 source' ∧ x.2 ∈ statements source' := by
  generalize hstop : some x = stop at h
  induction h generalizing source with
  | ended => cases hstop
  | own _ _ ih => exact ih hsource (List.forall_mem_cons.mp hss).2 hstop
  | copied _ _ _ ih => exact ih hsource (List.forall_mem_cons.mp hss).2 hstop
  | absent _ _ _ _ ih => exact ih hsource (List.forall_mem_cons.mp hss).2 hstop
  | followed _ _ _ _ _ _ ih => exact ih hsource (List.forall_mem_cons.mp hss).2 hstop
  | halted =>
    cases hstop
    exact ⟨source, hsource, hss _ List.mem_cons_self⟩
  | haltedIn _ _ hsource' _ ih => exact ih hsource' (fun _ hs => hs) hstop

/-- A course that comes to its end is continued by the other one in every respect. -/
theorem append_eq (h : Goes o t path ss c none) (d : Course) :
    (c.append d).sources = c.sources ++ d.sources ∧ (c.append d).fates = c.fates ++ d.fates ∧
      (c.append d).written = c.written ++ d.written ∧
      (c.append d).compiled = c.compiled ++ d.compiled ∧ (c.append d).chain = d.chain := by
  generalize hstop : none = stop at h
  induction h with
  | ended => exact ⟨rfl, rfl, rfl, rfl, rfl⟩
  | own _ _ ih =>
    obtain ⟨hsources, hfates, hwritten, hcompiled, hchain⟩ := ih hstop
    exact ⟨hsources, hfates, hwritten, congrArg _ hcompiled, hchain⟩
  | copied _ _ _ ih =>
    obtain ⟨hsources, hfates, hwritten, hcompiled, hchain⟩ := ih hstop
    exact ⟨hsources, congrArg _ hfates, congrArg _ hwritten, congrArg _ hcompiled, hchain⟩
  | absent _ _ _ _ ih =>
    obtain ⟨hsources, hfates, hwritten, hcompiled, hchain⟩ := ih hstop
    exact ⟨hsources, congrArg _ hfates, hwritten, congrArg _ hcompiled, hchain⟩
  | followed _ _ _ _ _ _ ih =>
    obtain ⟨hsources, hfates, hwritten, hcompiled, hchain⟩ := ih hstop
    simp only [Course.append, Course.sources, Course.fates, Course.written, Course.compiled,
      Course.chain, hsources, hfates, hwritten, hcompiled, hchain, List.append_assoc,
      List.cons_append, and_self]
  | halted => cases hstop
  | haltedIn => cases hstop

end Goes

/-! ## Files that are read and written -/

namespace Build

/-- If the action fails, then at a file. -/
def FailsAtFiles (act : Build α) : Prop :=
  ∀ (b : Session) f, (b.run act).1 = .error f → ∃ path g, f = .file path g

namespace FailsAtFiles

variable {act : Build α} {k : α → Build β}

theorem of_ok (h : ∀ b : Session, ∃ a, (b.run act).1 = .ok a) : FailsAtFiles act := by
  intro b f hf
  obtain ⟨a, ha⟩ := h b
  cases ha.symm.trans hf

protected theorem bind (h : FailsAtFiles act) (hk : ∀ a, FailsAtFiles (k a)) :
    FailsAtFiles (act >>= k) := by
  intro b f hf
  rw [Session.run_bind] at hf
  cases hact : b.run act with
  | mk r b' =>
    rw [hact] at hf
    cases r with
    | ok a => exact hk a b' f hf
    | error g =>
      cases hf
      exact h b f (by rw [hact])

theorem get : FailsAtFiles (get : Build Session) := of_ok fun b => ⟨b, rfl⟩

theorem modify (change : Session → Session) : FailsAtFiles (modify change : Build Unit) :=
  of_ok fun _ => ⟨(), rfl⟩

theorem ofFile (path : Path) (r : Except FileFault α) : FailsAtFiles (ofFile path r) := by
  cases r with
  | ok a => exact of_ok fun _ => ⟨a, rfl⟩
  | error g =>
    intro b f hf
    cases hf
    exact ⟨path, g, rfl⟩

theorem prepareDir (path : Path) : FailsAtFiles (prepareDir path) := by
  unfold Build.prepareDir
  split
  · exact of_ok fun _ => ⟨(), rfl⟩
  · split
    · exact .bind .get fun b => .bind (.modify _) fun _ => .ofFile _ _
    · exact of_ok fun _ => ⟨(), rfl⟩

theorem writeFile (o : Options) (path : Path) (text : String) : FailsAtFiles (writeFile o path text) :=
  .bind (.prepareDir path) fun _ => .bind .get fun _ => .bind (.ofFile _ _) fun _ => .modify _

theorem copyFile (source target : Path) : FailsAtFiles (copyFile source target) :=
  .bind (.prepareDir target) fun _ => .bind .get fun _ => .bind (.ofFile _ _) fun _ => .modify _

theorem opening (o : Options) (path : Path) : FailsAtFiles (opening o path) :=
  .bind .get fun _ => .bind (.ofFile _ _) fun _ => .bind (.ofFile _ _) fun _ =>
    .bind (.modify _) fun _ => .bind .get fun _ => .bind (.ofFile _ _) fun _ => of_ok fun _ => ⟨_, rfl⟩

end FailsAtFiles

variable {o : Options} {b b' : Session} {path source : Path} {name : String}

/-- A file that is opened is a source that is found, and is counted. -/
theorem of_run_opening_counted {text : String} {z : Place}
    (h : b.run (opening o path) = (.ok (text, z), b')) :
    b.files.source? o path = some text ∧ b.files.locate path = .ok z ∧
      b' = { b with fileCount := b.fileCount + 1 } := by
  obtain ⟨hs, hl, -⟩ := of_run_opening h
  refine ⟨hs, hl, ?_⟩
  unfold opening at h
  rw [run_get_bind] at h
  have hfine := FilesFine.of_ok h
  obtain ⟨bytes, -, hread⟩ := run_ofFile_bind hfine
  rw [hread] at hfine h
  obtain ⟨text', -, hdecode⟩ := run_ofFile_bind hfine
  rw [hdecode] at h
  have hlocate : ({ b with fileCount := b.fileCount + 1 } : Session).run
      (ofFile path (b.files.locate path) >>= fun place => pure (text', place)) = (.ok (text, z), b') := h
  obtain ⟨place, -, hplace⟩ := run_ofFile_bind (.of_ok hlocate)
  cases hlocate.symm.trans hplace
  rfl

/-- An excluded file is copied to the place of its compiled form. -/
theorem run_fate_copied (hx : isExcluded o name (sourceOf o name) = true) (s : Statement) {r : Fate}
    (h : b.run (fate o source s name) = (.ok r, b')) :
    r = .copied ∧ ∃ files log, b.files.Grows (fun z => b.files.place? (targetOf o name) = some z) files ∧
      b' = { b with files, log } := by
  unfold fate at h
  rw [if_pos hx, run_info_bind, Session.run_bind] at h
  split at h
  · next b'' hcopy =>
    cases h
    obtain ⟨files, hgrows, rfl⟩ := run_copyFile hcopy
    exact ⟨rfl, files, _, hgrows, rfl⟩
  · cases h

theorem fails_fate_of_isExcluded (hx : isExcluded o name (sourceOf o name) = true) (source : Path)
    (s : Statement) : FailsAtFiles (fate o source s name) := by
  unfold fate
  rw [if_pos hx]
  exact .bind (.modify _) fun _ => .bind (.copyFile _ _) fun _ => .of_ok fun _ => ⟨_, rfl⟩

end Build

/-- Sources are looked for at the places `S`, and files are written to the places `W` at most. -/
structure Layout (o : Options) (t : Tree) (S W : Place → Prop) : Prop where
  apart : ∀ z, S z → ¬W z
  included : ∀ z name z', S z → name ∈ t.namesAt o z → isExcluded o name (sourceOf o name) = false →
    t.place? (sourceOf o name) = some z' → S z'
  written : ∀ z name z', S z → name ∈ t.namesAt o z → t.place? (targetOf o name) = some z' →
    isExcluded o name (sourceOf o name) = true ∨ t.HasFile (sourceOf o name) → W z'

namespace Layout

variable {o : Options} {t files : Tree} {S W : Place → Prop} {path : Path} {source name : String}
  {z : Place}

/-- A source that is read is the one that was there at the beginning. -/
theorem hasSource (h : Layout o t S W) (hgrows : t.Grows W files)
    (hS : ∀ z, t.place? path = some z → S z) (hs : files.source? o path = some source)
    (hl : files.locate path = .ok z) :
    t.place? path = some z ∧ t.HasSource o path source ∧
      ∀ s ∈ statements source, ∀ name, included? s = some name → name ∈ t.namesAt o z := by
  have hz : t.place? path = some z := by
    rw [← Tree.place?_congr hgrows.workDir, Tree.place?_of_locate hl]
  obtain ⟨z', bytes, hl', hn, hd⟩ := Tree.source?_eq_some.mp hs
  cases hl.symm.trans hl'
  have hnode := (hgrows.ofFile z bytes hn).resolve_right (h.apart z (hS z hz))
  refine ⟨hz, ⟨z, bytes, hz, hnode, hd⟩, fun s hs name hname => ?_⟩
  rw [Tree.namesAt, hnode]
  dsimp only
  rw [hd]
  exact List.mem_filterMap.mpr ⟨s, hs, hname⟩

/-- A file that is not found was not there at the beginning. -/
theorem not_located (h : Layout o t S W) (hgrows : t.Grows W files)
    (hS : ∀ z, t.place? path = some z → S z) {f : FileFault} (hl : files.locate path = .error f) :
    t.locate path ≠ .ok z := by
  intro hz
  cases hl.symm.trans (hgrows.locate hz (h.apart z (hS z (Tree.place?_of_locate hz))))

end Layout

theorem Tree.HasSource.hasFile {t : Tree} {o : Options} {path : Path} {source : String}
    (h : t.HasSource o path source) : t.HasFile path := by
  obtain ⟨z, bytes, hz, hn, -⟩ := h
  exact ⟨z, bytes, hz, hn⟩

end InstallScript
