import InstallScript.Proofs.Recording

/-!
The files that are being compiled. A file is entered only if it is not one of them, and is left however
its compilation ends (`Recorded.orders_within`). The files that lead to an inclusion are thus those that
the state of the build has, and no file is among them twice, which is what decides whether an inclusion
is refused (`Recorded.orders_meet`).
-/

namespace InstallScript

/-! ## Parts that enter no file -/

namespace Build

/-- However the action ends, the files that are being compiled are the same afterwards, and it is not
the depth of inclusion that ends it. -/
def Stays (act : Build α) : Prop := ∀ b : Session, (b.run act).2.active = b.active ∧
  ∀ path, (b.run act).1 ≠ .error (.includeDepth path)

namespace Stays

variable {act : Build α} {k : α → Build β}

theorem modify {change : Session → Session} (h : ∀ b, (change b).active = b.active) :
    Stays (modify change) := fun b => ⟨h b, fun _ hr => nomatch hr⟩

protected theorem pure (a : α) : Stays (pure a) := fun _ => ⟨rfl, fun _ hr => nomatch hr⟩

theorem get : Stays get := fun _ => ⟨rfl, fun _ hr => nomatch hr⟩

protected theorem fail {f : BuildFault} (h : ∀ path, f ≠ .includeDepth path) :
    Stays (fail f : Build α) :=
  fun _ => ⟨rfl, fun path hr => h path (Except.error.inj hr)⟩

protected theorem bind (h : Stays act) (hk : ∀ a, Stays (k a)) : Stays (act >>= k) := by
  intro b
  obtain ⟨hactive, hdepth⟩ := h b
  rw [Session.run_bind]
  match hact : b.run act with
  | (.ok a, b') =>
    rw [hact] at hactive
    obtain ⟨hactive', hdepth'⟩ := hk a b'
    exact ⟨hactive'.trans hactive, hdepth'⟩
  | (.error f, b') =>
    rw [hact] at hactive hdepth
    refine ⟨hactive, fun path hr => hdepth path ?_⟩
    cases hr
    rfl

theorem ofFile (path : Path) (r : Except FileFault α) : Stays (ofFile path r) := by
  cases r with
  | ok a => exact .pure a
  | error f => exact .fail fun _ hr => nomatch hr

theorem info (message : String) : Stays (info message) := .modify fun _ => rfl

theorem setFiles (t : Tree) : Stays (setFiles t) := .modify fun _ => rfl

theorem prepareDir (path : Path) : Stays (prepareDir path) := by
  unfold Build.prepareDir
  split
  · exact .pure ()
  · split
    · exact .bind .get fun b => .bind (.setFiles _) fun _ => .ofFile _ _
    · exact .pure ()

theorem writeFile (o : Options) (path : Path) (text : String) : Stays (writeFile o path text) :=
  .bind (.prepareDir path) fun _ => .bind .get fun _ => .bind (.ofFile _ _) fun _ => .setFiles _

theorem copyFile (source target : Path) : Stays (copyFile source target) :=
  .bind (.prepareDir target) fun _ => .bind .get fun _ => .bind (.ofFile _ _) fun _ => .setFiles _

theorem fate (o : Options) (source : Path) (s : Statement) (name : String) :
    Stays (fate o source s name) := by
  unfold Build.fate
  dsimp only
  split
  · exact .bind (.info _) fun _ => .bind (.copyFile _ _) fun _ => .pure _
  · refine .bind .get fun b => ?_
    split
    · exact .bind (.info _) fun _ => .pure _
    · refine .bind .get fun b => .bind (.ofFile _ _) fun place => .bind .get fun b => ?_
      split
      · exact .bind (.fail fun _ hr => nomatch hr) fun _ => .bind (.info _) fun _ => .pure _
      · exact .bind (.info _) fun _ => .pure _

theorem opening (o : Options) (path : Path) : Stays (opening o path) :=
  .bind .get fun _ => .bind (.ofFile _ _) fun _ => .bind (.ofFile _ _) fun _ =>
    .bind (.modify fun _ => rfl) fun _ => .bind .get fun _ => .bind (.ofFile _ _) fun _ => .pure _

theorem closing (path : Path) (source : String) : Stays (closing path source) :=
  .bind (.info _) fun _ => .modify fun _ => rfl

theorem compiled (source : Path) (s : Statement) : Stays (compiled source s) := by
  intro b
  rw [run_compiled]
  refine ⟨rfl, fun path hr => ?_⟩
  split at hr <;> cases hr

end Stays

/-! ## Files that are found and written -/

variable {o : Options} {b b' : Session} {path source : Path} {s : Statement} {name : String}

/-- What is followed is found, and is not being compiled. -/
theorem run_fate_followed (h : (b.run (fate o source s name)).1 = .ok .followed) :
    isExcluded o name (sourceOf o name) = false ∧ ∃ z log,
      b.files.locate (sourceOf o name) = .ok z ∧ z ∉ b.active ∧
        b.run (fate o source s name) = (.ok .followed, { b with log }) := by
  cases hx : isExcluded o name (sourceOf o name) with
  | true =>
    unfold fate at h
    rw [if_pos hx, run_info_bind, Session.run_bind] at h
    split at h <;> cases h
  | false =>
    refine ⟨rfl, ?_⟩
    obtain ⟨_, _, _, hrun⟩ | ⟨_, _, _, hrun⟩ | hfollowed := run_fate (b := b) source s hx
    · rw [hrun] at h
      cases h
    · rw [hrun] at h
      cases h
    · exact hfollowed

/-- A file that is opened is a source that is found. -/
theorem of_run_opening {text : String} {z : Place}
    (h : b.run (opening o path) = (.ok (text, z), b')) :
    b.files.source? o path = some text ∧ b.files.locate path = .ok z ∧
      ∃ fileCount, b' = { b with fileCount } := by
  obtain ⟨text', z', fileCount, hs, hl, hrun⟩ := run_opening (.of_ok h)
  cases h.symm.trans hrun
  exact ⟨hs, hl, fileCount, rfl⟩

/-- A file that is written changes the place of its path and is read afterwards. -/
theorem of_run_writeFile {text : String} (h : b.run (writeFile o path text) = (.ok (), b')) :
    ∃ files, b.files.Grows (fun z => b.files.place? path = some z) files ∧
      files.read path = .ok (o.encoding.encode text) ∧ b' = { b with files } := by
  obtain ⟨files, hgrows, hread, hrun⟩ := run_writeFile (.of_ok h)
  cases h.symm.trans hrun
  exact ⟨files, hgrows, hread, rfl⟩

end Build

/-! ## The order of events -/

theorem nodup_concat {ps : List Place} {z : Place} (h : ps.Nodup) (hz : z ∉ ps) :
    (ps ++ [z]).Nodup := by
  refine List.nodup_append.mpr ⟨h, by simp, ?_⟩
  rintro x hx _ hy rfl
  exact hz (List.mem_singleton.mp hy ▸ hx)

open Build in
/-- No file is being compiled twice. A file that is found and not excluded is refused if it is on the
way to the inclusion, and is compiled if it is not. -/
def Event.Orderly (o : Options) : Event → Prop
  | .moved active => active.Nodup
  | .met way name found outcome => isExcluded o name (sourceOf o name) = false → ∀ z, found = .ok z →
      ((∃ source line, outcome = .error (.source source line (.recursiveInclude name))) ↔ z ∈ way) ∧
        (outcome = .ok .followed ↔ z ∉ way)
  | .made _ _ | .wrote _ _ => True

namespace Recorded

/-- The files that are being compiled are the same again, and what has happened is in order. -/
def Keeps (o : Options) (σ σ' : Session × List Event) : Prop :=
  σ'.1.active = σ.1.active ∧ ∃ es, σ'.2 = σ.2 ++ es ∧ ∀ e ∈ es, e.Orderly o

/-- However the action ends, order is kept. -/
def Orders (o : Options) (act : Recorded α) (σ : Session × List Event) : Prop :=
  Keeps o σ (exec act σ).2

variable {o : Options} {act : Recorded α} {k : α → Recorded β} {σ σ' σ'' : Session × List Event}
  {way : List Place}

theorem Keeps.still {b : Session} (h : b.active = σ.1.active) : Keeps o σ (b, σ.2) :=
  ⟨h, [], (List.append_nil _).symm, fun _ he => absurd he List.not_mem_nil⟩

theorem Keeps.one {b : Session} {e : Event} (h : b.active = σ.1.active) (he : e.Orderly o) :
    Keeps o σ (b, σ.2 ++ [e]) := by
  refine ⟨h, [e], rfl, fun e' he' => ?_⟩
  rw [List.mem_singleton.mp he']
  exact he

theorem Keeps.trans (h : Keeps o σ σ') (h' : Keeps o σ' σ'') : Keeps o σ σ'' := by
  obtain ⟨ha, es, hes, horder⟩ := h
  obtain ⟨ha', es', hes', horder'⟩ := h'
  refine ⟨ha'.trans ha, es ++ es', by rw [hes', hes, List.append_assoc], fun e he => ?_⟩
  exact (List.mem_append.mp he).elim (horder e) (horder' e)

namespace Orders

protected theorem bind (h : Orders o act σ)
    (hk : ∀ a σ', exec act σ = (.ok a, σ') → Keeps o σ σ' → Orders o (k a) σ') :
    Orders o (act >>= k) σ := by
  unfold Orders at h ⊢
  match hact : exec act σ with
  | (.ok a, σ') =>
    rw [hact] at h
    rw [exec_bind_ok hact]
    exact h.trans (hk a σ' hact h)
  | (.error f, σ') =>
    rw [hact] at h
    rw [exec_bind_error hact]
    exact h

protected theorem pure (a : α) : Orders o (pure a) σ := .still rfl

theorem lift {act : Build α} (h : act.Stays) : Orders o (lift act) σ := .still (h σ.1).1

theorem record {e : Event} (he : e.Orderly o) : Orders o (record e) σ := .one rfl he

end Orders

/-- The way to an inclusion is all that decides whether a file that is found is refused. -/
theorem orders_meet (hway : σ.1.active = way) (source : Path) (s : Statement) (name : String) :
    Orders o (meet o way source s name) σ := by
  refine .one (Build.Stays.fate o source s name σ.1).1 fun hx z hz => ?_
  rw [← hway]
  obtain ⟨f, log, hl, -⟩ | ⟨z', hl, hmem, hrun⟩ | ⟨z', log, hl, hmem, hrun⟩ :=
    Build.run_fate (b := σ.1) source s hx
  · cases hl.symm.trans hz
  · cases hl.symm.trans hz
    rw [hrun]
    exact ⟨iff_of_true ⟨source, s.line, rfl⟩ hmem,
      iff_of_false (fun h => nomatch h) (Classical.not_not.mpr hmem)⟩
  · cases hl.symm.trans hz
    rw [hrun]
    exact ⟨iff_of_false (fun ⟨_, _, h⟩ => nomatch h) hmem, iff_of_true rfl hmem⟩

/-- The path leads to no file that is being compiled. -/
def Apart (σ : Session × List Event) (path : Path) : Prop :=
  ∀ z, σ.1.files.locate path = .ok z → z ∉ σ.1.active

/-- A file is followed only if it is not being compiled. -/
theorem apart_of_meet {source : Path} {s : Statement} {name : String}
    (h : exec (meet o way source s name) σ = (.ok .followed, σ')) :
    Apart σ' (Build.sourceOf o name) := by
  obtain ⟨hresult, rfl⟩ := Prod.mk.inj h
  obtain ⟨-, z, log, hl, hmem, hrun⟩ := Build.run_fate_followed hresult
  intro z' hz'
  rw [hrun] at hz' ⊢
  cases hl.symm.trans hz'
  exact hmem

section

variable {compileFile : Path → Recorded (List Passage)}
  (hfile : ∀ path σ, σ.1.active = way → Apart σ path → Orders o (compileFile path) σ)
include hfile

theorem orders_inclusion (hway : σ.1.active = way) (source : Path) (s : Statement) (name : String) :
    Orders o (inclusion o compileFile way source s name) σ := by
  refine .bind (orders_meet hway source s name) fun fate σ' hmeet hkeeps => ?_
  match fate with
  | .copied => exact .pure _
  | .absent => exact .bind (.record trivial) fun _ _ _ _ => .pure _
  | .followed =>
    refine .bind (hfile _ _ (hkeeps.1.trans hway) (apart_of_meet hmeet)) fun content _ _ _ => ?_
    refine .bind (.lift (Build.Stays.writeFile _ _ _)) fun _ _ _ _ => ?_
    exact .bind (.record trivial) fun _ _ _ _ => .pure _

theorem orders_statement (hway : σ.1.active = way) (source : Path) (s : Statement) :
    Orders o (statement o compileFile way source s) σ := by
  refine .bind (.lift .get) fun _ σ₁ _ h₁ => ?_
  refine .bind (.lift (Build.Stays.compiled source s)) fun out σ₂ _ h₂ => ?_
  match out with
  | .text t => exact .bind (.record trivial) fun _ _ _ _ => .pure _
  | .inclusion name =>
    exact orders_inclusion hfile (h₂.1.trans (h₁.1.trans hway)) source s name

theorem orders_statements (hway : σ.1.active = way) (source : Path) (ss : List Statement) :
    Orders o (statements o compileFile way source ss) σ := by
  induction ss generalizing σ with
  | nil => exact .pure _
  | cons s ss ih =>
    refine .bind (orders_statement hfile hway source s) fun p σ' _ hkeeps => ?_
    exact .bind (ih (hkeeps.1.trans hway)) fun ps _ _ _ => .pure _

end

/-- A file that is begun is not among those that are being compiled, and is ended in every case. -/
theorem orders_within {z : Place} (hnodup : (σ.1.active ++ [z]).Nodup)
    (h : ∀ σ', σ'.1.active = σ.1.active ++ [z] → Orders o act σ') : Orders o (within z act) σ := by
  obtain ⟨hactive, es, hes, horder⟩ :=
    h ({ σ.1 with active := σ.1.active ++ [z] }, σ.2 ++ [.moved (σ.1.active ++ [z])]) rfl
  unfold Orders
  rw [exec_within]
  dsimp only
  rw [hactive, hes, List.dropLast_concat]
  refine ⟨rfl, .moved (σ.1.active ++ [z]) :: es ++ [.moved σ.1.active], by simp, fun e he => ?_⟩
  simp only [List.mem_append, List.mem_cons, List.not_mem_nil, or_false] at he
  rcases he with (rfl | he) | rfl
  · exact hnodup
  · exact horder e he
  · exact (List.nodup_append.mp hnodup).1

theorem orders_file (n : Nat) {path : Path} (hnodup : way.Nodup) (hway : σ.1.active = way)
    (hapart : Apart σ path) : Orders o (file o n way path) σ := by
  induction n generalizing way σ path with
  | zero => exact .still rfl
  | succ n ih =>
    refine .bind (.lift (Build.Stays.opening o path)) ?_
    rintro ⟨source, z⟩ ⟨b, es⟩ hopen -
    obtain ⟨hrun, rfl⟩ := of_exec_lift hopen
    obtain ⟨-, hl, fileCount, rfl⟩ := Build.of_run_opening hrun
    have hnodup' : (way ++ [z]).Nodup := nodup_concat hnodup (hway ▸ hapart z hl)
    refine orders_within (by rw [hway]; exact hnodup') fun σ' hσ' => ?_
    refine .bind (orders_statements (fun path' σ'' hway' => ih hnodup' hway') ?_ path _) ?_
    · rw [hσ', hway]
    · exact fun content _ _ _ => .bind (.lift (Build.Stays.closing path source)) fun _ _ _ _ => .pure _

theorem orders_script (name : String) (target : Path) (hactive : σ.1.active = []) :
    Orders o (script o name target) σ := by
  refine .bind (.lift (.info _)) fun _ σ₁ _ h₁ => .bind (.lift .get) fun b σ₂ _ h₂ => ?_
  have hnone : σ₂.1.active = [] := h₂.1.trans (h₁.1.trans hactive)
  refine .bind (orders_file _ List.nodup_nil hnone fun z _ hz => ?_) fun content _ _ _ => ?_
  · rw [hnone] at hz
    cases hz
  · refine .bind (.lift (.info _)) fun _ _ _ _ => ?_
    exact .bind (.lift (Build.Stays.writeFile _ _ _)) fun _ _ _ _ => .record trivial

end Recorded

end InstallScript
