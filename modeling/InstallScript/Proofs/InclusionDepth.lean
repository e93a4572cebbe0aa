import Mathlib.Data.List.Perm.Subperm
import InstallScript.Proofs.ActiveFiles

/-!
How deep inclusions nest. Files that include each other in a circle, or one file over and over, do not
keep a build from ending: a file that is being compiled is not entered again, so that there are never
more files being compiled than the tree had at the beginning, provided that the build does not make
itself the files that it includes (`Reached` and `Receives`). The bound on the depth then makes no
difference (`settles_file`). Together with the order of events this is `inclusions_nest_and_end`.
-/

namespace InstallScript

open Build

/-! ## Places of sources and of compiled files -/

/-- The names that the file at a place includes. -/
def Tree.namesAt (t : Tree) (o : Options) (z : Place) : List String :=
  match t.node? z with
  | some (.file bytes) =>
    match o.encoding.decode bytes with
    | .ok source => (statements source).filterMap included?
    | .error _ => []
  | _ => []

/-- The places at which sources are looked for: of the main file, and of what is included at such a
place and is not excluded. -/
inductive Reached (o : Options) (t : Tree) (main : Path) : Place → Prop
  | main {z : Place} : t.place? main = some z → Reached o t main z
  | included {z z' : Place} {name : String} : Reached o t main z → name ∈ t.namesAt o z →
      isExcluded o name (sourceOf o name) = false → t.place? (sourceOf o name) = some z' →
      Reached o t main z'

/-- A source that is looked for includes the name. -/
def Meets (o : Options) (t : Tree) (main : Path) (name : String) : Prop :=
  ∃ z, Reached o t main z ∧ name ∈ t.namesAt o z

/-- The path names the place of a file. -/
def Tree.HasFile (t : Tree) (path : Path) : Prop :=
  ∃ z bytes, t.place? path = some z ∧ t.node? z = some (.file bytes)

/-- The compiled form or the copy of an included file goes to the place. -/
def Receives (o : Options) (t : Tree) (main : Path) (z : Place) : Prop :=
  ∃ name, Meets o t main name ∧ t.place? (targetOf o name) = some z ∧
    (isExcluded o name (sourceOf o name) = true ∨ t.HasFile (sourceOf o name))

theorem Meets.reached {o : Options} {t : Tree} {main : Path} {name : String} {z : Place}
    (h : Meets o t main name) (hx : isExcluded o name (sourceOf o name) = false)
    (hz : t.place? (sourceOf o name) = some z) : Reached o t main z := by
  obtain ⟨z₀, hreached, hname⟩ := h
  exact .included hreached hname hx hz

theorem grows_copy {t t' : Tree} {source target : Path} (h : t.copy source target = .ok t') :
    t.Grows (fun z => t.place? target = some z) t' := by
  unfold Tree.copy at h
  cases hl : t.locate source with
  | error f =>
    rw [hl] at h
    cases h
  | ok z =>
    rw [hl] at h
    dsimp only [bind, Except.bind] at h
    split at h
    · exact Tree.grows_write h
    · cases h
    · cases h

/-- A file is copied to the place of its target, and nothing else of the build changes. -/
theorem run_copyFile {b b' : Session} {source target : Path}
    (h : b.run (copyFile source target) = (.ok (), b')) :
    ∃ files, b.files.Grows (fun z => b.files.place? target = some z) files ∧
      b' = { b with files } := by
  have hfine := FilesFine.of_ok h
  unfold copyFile at hfine h
  obtain ⟨-, hrun⟩ := run_prepareDir hfine.of_bind
  have hgrows : b.files.Grows (fun z => b.files.place? target = some z) (b.files.prepare target).2 :=
    Tree.grows_prepare b.files target
  rw [Session.run_bind, hrun] at hfine h
  dsimp only at hfine h
  rw [run_get_bind] at hfine h
  obtain ⟨files', hcopy, hrun'⟩ := run_ofFile_bind hfine
  cases h.symm.trans hrun'
  refine ⟨files', hgrows.trans ?_, rfl⟩
  rw [← Tree.place?_congr hgrows.workDir target]
  exact grows_copy hcopy

/-! ## Builds with different bounds -/

section

variable (o : Options) (t : Tree) (main : Path)

/-- The two actions do the same, and not because of the depth of inclusion. If they give a result, then
files have changed at most where compiled ones go, and those that are being compiled are the same. -/
structure Settles (act act' : Build α) (b : Session) (Q : α → Session → Prop) : Prop where
  same : b.run act = b.run act'
  shallow : ∀ path, (b.run act).1 ≠ .error (.includeDepth path)
  keeps : ∀ a b', b.run act = (.ok a, b') →
    t.Grows (Receives o t main) b'.files ∧ b'.active = b.active ∧ Q a b'

/-- The files that are being compiled are different files of the tree, and it has changed only where
compiled files go. -/
structure Inside (b : Session) : Prop where
  files : t.Grows (Receives o t main) b.files
  nodup : b.active.Nodup
  reached : ∀ z ∈ b.active, Reached o t main z ∧ ∃ bytes, t.node? z = some (.file bytes)

end

variable {o : Options} {t : Tree} {main : Path} {b b' : Session}

theorem Inside.length_le (h : Inside o t main b) : b.active.length ≤ t.entries.length := by
  have hsubset : b.active ⊆ t.entries.map Prod.fst := by
    intro z hz
    obtain ⟨-, bytes, hfile⟩ := h.reached z hz
    exact Tree.mem_entries_of_file hfile
  have hlength := (List.subperm_of_subset h.nodup hsubset).length_le
  rwa [List.length_map] at hlength

theorem Inside.congr (h : Inside o t main b) (hfiles : t.Grows (Receives o t main) b'.files)
    (hactive : b'.active = b.active) : Inside o t main b' :=
  ⟨hfiles, hactive ▸ h.nodup, hactive ▸ h.reached⟩

namespace Settles

variable {act act' : Build α} {k k' : α → Build β} {P : α → Session → Prop} {Q : β → Session → Prop}

protected theorem bind (h : Settles o t main act act' b P)
    (hk : ∀ a b', t.Grows (Receives o t main) b'.files → b'.active = b.active → P a b' →
      Settles o t main (k a) (k' a) b' Q) : Settles o t main (act >>= k) (act' >>= k') b Q := by
  obtain ⟨hsame, hshallow, hkeeps⟩ := h
  match hact : b.run act with
  | (.error f, b₁) =>
    have hrun : b.run (act >>= k) = (.error f, b₁) := by rw [Session.run_bind, hact]
    have hrun' : b.run (act' >>= k') = (.error f, b₁) := by rw [Session.run_bind, ← hsame, hact]
    rw [hact] at hshallow
    refine ⟨hrun.trans hrun'.symm, ?_, ?_⟩ <;> rw [hrun]
    · exact fun path hr => hshallow path (by cases hr; rfl)
    · exact fun _ _ hr => nomatch hr
  | (.ok a, b₁) =>
    have hrun : b.run (act >>= k) = b₁.run (k a) := by rw [Session.run_bind, hact]
    have hrun' : b.run (act' >>= k') = b₁.run (k' a) := by rw [Session.run_bind, ← hsame, hact]
    obtain ⟨hgrows, hactive, hP⟩ := hkeeps a b₁ hact
    obtain ⟨hsame', hshallow', hkeeps'⟩ := hk a b₁ hgrows hactive hP
    refine ⟨?_, ?_, ?_⟩
    · rw [hrun, hrun', hsame']
    · rw [hrun]
      exact hshallow'
    · rw [hrun]
      intro c b₂ hc
      obtain ⟨hgrows', hactive', hQ⟩ := hkeeps' c b₂ hc
      exact ⟨hgrows', hactive'.trans hactive, hQ⟩

/-- A part that enters no file. -/
theorem of_stays (h : act.Stays) (hkeeps : ∀ a b', b.run act = (.ok a, b') →
    t.Grows (Receives o t main) b'.files ∧ P a b') : Settles o t main act act b P :=
  ⟨rfl, (h b).2, fun a b' hrun => ⟨(hkeeps a b' hrun).1, by rw [← (h b).1, hrun], (hkeeps a b' hrun).2⟩⟩

protected theorem pure (hfiles : t.Grows (Receives o t main) b.files) {a : α} (hP : P a b) :
    Settles o t main (pure a) (pure a) b P :=
  of_stays (.pure a) fun _ _ hrun => by cases hrun; exact ⟨hfiles, hP⟩

theorem within {z : Place} {p : Prop}
    (h : Settles o t main act act' { b with active := b.active ++ [z] } fun _ _ => p) :
    Settles o t main (within z act) (within z act') b fun _ _ => p := by
  have hrun : ∀ act : Build α, b.run (Build.within z act) =
      ((({ b with active := b.active ++ [z] } : Session).run act).1,
        { (({ b with active := b.active ++ [z] } : Session).run act).2 with
          active := (({ b with active := b.active ++ [z] } : Session).run act).2.active.dropLast }) :=
    fun _ => rfl
  refine ⟨?_, ?_, ?_⟩
  · rw [hrun, hrun, h.same]
  · rw [hrun]
    exact h.shallow
  · rw [hrun]
    intro a b' hb'
    obtain ⟨hr, rfl⟩ := Prod.mk.inj hb'
    obtain ⟨hgrows, hactive, hP⟩ := h.keeps a _ (Prod.ext hr rfl)
    refine ⟨hgrows, ?_, hP⟩
    show List.dropLast _ = _
    rw [hactive]
    exact List.dropLast_concat

end Settles

section

variable (hfiles : t.Grows (Receives o t main) b.files)
include hfiles

theorem settles_compiled (source : Path) (s : Statement) :
    Settles o t main (compiled source s) (compiled source s) b fun out _ =>
      ∀ name, out = .inclusion name → included? s = some name := by
  refine .of_stays (.compiled source s) fun out b' hrun => ?_
  rw [run_compiled] at hrun
  obtain ⟨hr, rfl⟩ := Prod.mk.inj hrun
  refine ⟨hfiles, ?_⟩
  rintro name rfl
  split at hr
  · cases hr
  · next hstep =>
    cases hr
    exact included?_of_step hstep

/-- A file that is followed is not being compiled; one that is excluded is written where compiled files
go. -/
theorem settles_fate {name : String} (hmeets : Meets o t main name) (source : Path) (s : Statement) :
    Settles o t main (fate o source s name) (fate o source s name) b fun r b' => r = .followed →
      isExcluded o name (sourceOf o name) = false ∧
        ∀ z, b'.files.locate (sourceOf o name) = .ok z → z ∉ b'.active := by
  refine .of_stays (.fate o source s name) fun r b' hrun => ?_
  cases hx : isExcluded o name (sourceOf o name) with
  | true =>
    unfold fate at hrun
    rw [if_pos hx, run_info_bind, Session.run_bind] at hrun
    split at hrun
    · next b'' hcopy =>
      cases hrun
      obtain ⟨files, hgrows, rfl⟩ := run_copyFile hcopy
      refine ⟨hfiles.trans (hgrows.mono fun z hz => ?_), fun h => nomatch h⟩
      exact ⟨name, hmeets, by rw [← Tree.place?_congr hfiles.workDir]; exact hz, .inl hx⟩
    · cases hrun
  | false =>
    obtain ⟨_, log, _, hfate⟩ | ⟨_, _, _, hfate⟩ | ⟨z, log, hl, hmem, hfate⟩ :=
      run_fate (b := b) source s hx
    · cases hrun.symm.trans hfate
      exact ⟨hfiles, fun h => nomatch h⟩
    · cases hrun.symm.trans hfate
    · cases hrun.symm.trans hfate
      refine ⟨hfiles, fun _ => ⟨rfl, fun z' hz' => ?_⟩⟩
      cases hl.symm.trans hz'
      exact hmem

theorem settles_writeFile {path : Path} (hpath : ∀ z, t.place? path = some z → Receives o t main z)
    (text : String) : Settles o t main (writeFile o path text) (writeFile o path text) b
      fun _ _ => True := by
  refine .of_stays (.writeFile o path text) fun _ b' hrun => ?_
  obtain ⟨files, hgrows, -, rfl⟩ := of_run_writeFile hrun
  refine ⟨hfiles.trans (hgrows.mono fun z hz => hpath z ?_), trivial⟩
  rw [← Tree.place?_congr hfiles.workDir, hz]

end

section

variable {f g : Path → Build String} {A : List Place} (hb : Inside o t main b) (hA : b.active = A)
  (hfile : ∀ path b, Inside o t main b → b.active = A →
    (∀ z, t.place? path = some z → Reached o t main z) →
    (∀ z, b.files.locate path = .ok z → z ∉ A) →
    Settles o t main (f path) (g path) b fun _ _ => t.HasFile path)
include hb hA hfile

theorem settles_inclusion {name : String} (hmeets : Meets o t main name) (source : Path)
    (s : Statement) : Settles o t main (inclusion o f source s name) (inclusion o g source s name) b
      fun _ _ => True := by
  rw [inclusion_eq, inclusion_eq]
  refine .bind (settles_fate hb.files hmeets source s) fun r b₁ hfiles₁ hactive₁ hfollowed => ?_
  match r with
  | .copied => exact .pure hfiles₁ trivial
  | .absent => exact .pure hfiles₁ trivial
  | .followed =>
    obtain ⟨hx, hapart⟩ := hfollowed rfl
    have hA₁ := hactive₁.trans hA
    rw [hA₁] at hapart
    refine .bind (hfile _ _ (hb.congr hfiles₁ hactive₁) hA₁ (fun z => hmeets.reached hx) hapart) ?_
    intro text b₂ hfiles₂ _ hthere
    refine .bind (settles_writeFile hfiles₂ (fun z hz => ⟨name, hmeets, hz, .inr hthere⟩) text) ?_
    exact fun _ _ hfiles₃ _ _ => .pure hfiles₃ trivial

theorem settles_statement (source : Path) {s : Statement}
    (hmeets : ∀ name, included? s = some name → Meets o t main name) :
    Settles o t main (statement o f source s) (statement o g source s) b fun _ _ => True := by
  rw [statement_eq, statement_eq]
  refine .bind (settles_compiled hb.files source s) fun out b₁ hfiles₁ hactive₁ hout => ?_
  match out with
  | .text text => exact .pure hfiles₁ trivial
  | .inclusion name =>
    exact settles_inclusion (hb.congr hfiles₁ hactive₁) (hactive₁.trans hA) hfile
      (hmeets name (hout name rfl)) source s

theorem settles_statements (source : Path) {ss : List Statement}
    (hmeets : ∀ s ∈ ss, ∀ name, included? s = some name → Meets o t main name) :
    Settles o t main (Build.statements o f source ss) (Build.statements o g source ss) b
      fun _ _ => True := by
  induction ss generalizing b with
  | nil => exact .pure hb.files trivial
  | cons s ss ih =>
    obtain ⟨hs, hss⟩ := List.forall_mem_cons.mp hmeets
    refine .bind (settles_statement hb hA hfile source hs) fun text b₁ hfiles₁ hactive₁ _ => ?_
    refine .bind (ih (hb.congr hfiles₁ hactive₁) (hactive₁.trans hA) hss) ?_
    exact fun rest b₂ hfiles₂ _ _ => .pure hfiles₂ trivial

end

theorem settles_opening (hfiles : t.Grows (Receives o t main) b.files) {path : Path} :
    Settles o t main (opening o path) (opening o path) b fun opened _ =>
      b.files.source? o path = some opened.1 ∧ b.files.locate path = .ok opened.2 := by
  refine .of_stays (.opening o path) ?_
  rintro ⟨source, z⟩ b' hrun
  obtain ⟨hs, hl, fileCount, rfl⟩ := of_run_opening hrun
  exact ⟨hfiles, hs, hl⟩

/-- A file that can be opened was there at the beginning, with the content that is read. -/
theorem file_of_opening (hapart : ∀ z, Reached o t main z → ¬Receives o t main z)
    (hfiles : t.Grows (Receives o t main) b.files) {path : Path} {source : String} {z : Place}
    (hreached : ∀ z, t.place? path = some z → Reached o t main z)
    (hs : b.files.source? o path = some source) (hl : b.files.locate path = .ok z) :
    Reached o t main z ∧ t.place? path = some z ∧ ∃ bytes, t.node? z = some (.file bytes) ∧
      o.encoding.decode bytes = .ok source := by
  have hz : t.place? path = some z := by
    rw [← Tree.place?_congr hfiles.workDir, Tree.place?_of_locate hl]
  obtain ⟨z', bytes, hl', hn, hd⟩ := Tree.source?_eq_some.mp hs
  cases hl.symm.trans hl'
  refine ⟨hreached z hz, hz, bytes, ?_, hd⟩
  exact (hfiles.ofFile z bytes hn).resolve_right (hapart z (hreached z hz))

/-- Where the bound is greater than what is left of the files, it makes no difference. -/
theorem settles_file (hapart : ∀ z, Reached o t main z → ¬Receives o t main z) (n m : Nat)
    (hn : t.entries.length < b.active.length + n) (hm : t.entries.length < b.active.length + m)
    (hb : Inside o t main b) {path : Path} (hreached : ∀ z, t.place? path = some z → Reached o t main z)
    (hfree : ∀ z, b.files.locate path = .ok z → z ∉ b.active) :
    Settles o t main (file o n path) (file o m path) b fun _ _ => t.HasFile path := by
  have hlength := hb.length_le
  induction n generalizing m b path with
  | zero => omega
  | succ n ih =>
    cases m with
    | zero => omega
    | succ m =>
      rw [file_succ, file_succ]
      refine .bind (settles_opening hb.files) ?_
      rintro ⟨source, z⟩ b₁ hfiles₁ hactive₁ ⟨hs, hl⟩
      obtain ⟨hz, hplace, bytes, hfile, hd⟩ := file_of_opening hapart hb.files hreached hs hl
      refine .within ?_
      have hb₂ : Inside o t main { b₁ with active := b₁.active ++ [z] } := by
        refine ⟨hfiles₁, ?_, fun z' hz' => ?_⟩
        · rw [hactive₁]
          exact nodup_concat hb.nodup (hfree z hl)
        · rw [hactive₁] at hz'
          rcases List.mem_append.mp hz' with hz' | hz'
          · exact hb.reached z' hz'
          · rw [List.mem_singleton.mp hz']
            exact ⟨hz, bytes, hfile⟩
      have hmeets : ∀ s ∈ statements source, ∀ name, included? s = some name → Meets o t main name := by
        intro s hs name hname
        refine ⟨z, hz, ?_⟩
        rw [Tree.namesAt, hfile]
        dsimp only
        rw [hd]
        exact List.mem_filterMap.mpr ⟨s, hs, hname⟩
      refine .bind (settles_statements hb₂ rfl ?_ path hmeets) ?_
      · intro path' b₃ hb₃ hA hreached' hfree'
        have hlength₃ : b₃.active.length = b.active.length + 1 := by
          rw [hA, hactive₁, List.length_append, List.length_singleton]
        refine ih m ?_ ?_ hb₃ hreached' (by rw [hA]; exact hfree') hb₃.length_le
        · omega
        · omega
      · intro text b₃ hfiles₃ _ _
        refine .bind (.of_stays (P := fun _ _ => True) (.closing path source) fun _ b₄ hrun => ?_)
          fun _ b₄ hfiles₄ _ _ => ?_
        · cases hrun
          exact ⟨hfiles₃, trivial⟩
        · exact .pure hfiles₄ ⟨z, bytes, hplace, hfile⟩

/-! ## Checking -/

/-- The list has the place of the main file, and with a place all those of the files included there. -/
def HasPlaces (o : Options) (t : Tree) (main : Path) (zs : List Place) : Prop :=
  (∀ z ∈ t.place? main, z ∈ zs) ∧ ∀ z ∈ zs, ∀ name ∈ t.namesAt o z,
    isExcluded o name (sourceOf o name) = false → ∀ z' ∈ t.place? (sourceOf o name), z' ∈ zs

instance (zs : List Place) : Decidable (HasPlaces o t main zs) :=
  inferInstanceAs (Decidable (_ ∧ _))

theorem HasPlaces.mem {zs : List Place} (h : HasPlaces o t main zs) {z : Place}
    (hz : Reached o t main z) : z ∈ zs := by
  induction hz with
  | main hz => exact h.1 _ hz
  | included _ hname hx hz ih => exact h.2 _ ih _ hname hx _ hz

/-- With the places at hand, it can be decided that no compiled file goes to one of them. -/
theorem HasPlaces.not_receives {zs : List Place} (h : HasPlaces o t main zs)
    (hapart : ∀ z₀ ∈ zs, ∀ name ∈ t.namesAt o z₀, ∀ z ∈ t.place? (targetOf o name), z ∉ zs) :
    ∀ z, Reached o t main z → ¬Receives o t main z := by
  rintro z hz ⟨name, ⟨z₀, hz₀, hname⟩, htarget, -⟩
  exact hapart z₀ (h.mem hz₀) name hname z htarget (h.mem hz)

/-! ## Scripts -/

theorem lt_depth (t : Tree) : t.entries.length < depth t := by
  unfold depth
  omega

/-- At the beginning nothing is being compiled. -/
theorem settles_main (hapart : ∀ z, Reached o b.files main z → ¬Receives o b.files main z)
    (hactive : b.active = []) {n m : Nat} (hn : b.files.entries.length < n)
    (hm : b.files.entries.length < m) :
    Settles o b.files main (file o n main) (file o m main) b fun _ _ => b.files.HasFile main := by
  have hb : Inside o b.files main b :=
    ⟨.refl _, hactive ▸ List.nodup_nil, fun z hz => absurd (hactive ▸ hz) List.not_mem_nil⟩
  refine settles_file hapart n m ?_ ?_ hb (fun z => .main) fun z _ hz => ?_
  · omega
  · omega
  · exact absurd (hactive ▸ hz) List.not_mem_nil

/-- Nor is a script ended by the depth of inclusion, as only its main file is compiled. -/
theorem script_shallow {name : String} (target : Path)
    (hapart : ∀ z, Reached o b.files (sourceOf o name) z → ¬Receives o b.files (sourceOf o name) z)
    (hactive : b.active = []) (path : Path) :
    (b.run (script o name target)).1 ≠ .error (.includeDepth path) := by
  unfold script
  rw [run_info_bind, run_get_bind, Session.run_bind]
  generalize hb : Session.mk .. = b₁
  have hmain := (settles_main (b := b₁) (by subst hb; exact hapart) (by subst hb; exact hactive)
    (lt_depth _) (lt_depth _)).shallow path
  split
  · exact (Stays.bind (.info _) (fun _ => .writeFile o target _) _).2 path
  · next f _ hrun =>
    intro hf
    rw [sourceOf, hrun] at hmain
    cases hf
    exact hmain rfl

/-- A build that begins when no file is being compiled ends so again, whatever comes of it. On the way no
file is being compiled twice, and a file that is found and not excluded is refused as recursive exactly
if it is one of those that lead to the inclusion; otherwise it is compiled, be it for the first time or
not. If the build does not write to places of sources, then it comes to an end by itself: it does the
same under every bound on the depth of inclusion that is greater than the number of files. -/
theorem inclusions_nest_and_end (o : Options) (name : String) (target : Path) {b : Session}
    (hactive : b.active = []) :
    ∃ r b' es, Recorded.exec (Recorded.script o name target) (b, []) = (r, b', es) ∧
      b.run (script o name target) = (r, b') ∧
      b'.active = [] ∧
      (∀ active, .moved active ∈ es → active.Nodup) ∧
      (∀ way included z outcome, .met way included (.ok z) outcome ∈ es →
        isExcluded o included (sourceOf o included) = false →
        ((∃ source line, outcome = .error (.source source line (.recursiveInclude included))) ↔
          z ∈ way) ∧ (outcome = .ok .followed ↔ z ∉ way)) ∧
      ((∀ z, Reached o b.files (sourceOf o name) z → ¬Receives o b.files (sourceOf o name) z) →
        (∀ path, r ≠ .error (.includeDepth path)) ∧
        ∀ n, b.files.entries.length < n →
          b.run (file o n (sourceOf o name)) = b.run (file o (depth b.files) (sourceOf o name))) := by
  have horders := Recorded.orders_script (o := o) (σ := (b, [])) name target hactive
  unfold Recorded.Orders at horders
  match hrun : Recorded.exec (Recorded.script o name target) (b, []) with
  | (r, b', es) =>
    have hsame := Recorded.run_script hrun
    rw [hrun] at horders
    obtain ⟨hkept, es', hes, horder⟩ := horders
    rw [List.nil_append] at hes
    subst hes
    refine ⟨r, b', es, rfl, hsame, hkept.trans hactive, ?_, ?_, fun hapart => ⟨?_, ?_⟩⟩
    · exact fun active hmoved => horder _ hmoved
    · exact fun way included z outcome hmet hx => horder _ hmet hx z rfl
    · intro path
      have hshallow := script_shallow target hapart hactive path
      rwa [hsame] at hshallow
    · exact fun n hn => (settles_main hapart hactive hn (lt_depth _)).same

/-- Two files that include a third one, which is included again by the script, and a circle in which the
script has another name. -/
def circle : Tree where
  entries := [
    (["main"], .file (Encoding.utf8.encode "!include a\n!include b\n!include d\n!include c\n")),
    (["a"], .file (Encoding.utf8.encode "!include d\n")),
    (["b"], .file (Encoding.utf8.encode "!include d\n")),
    (["c"], .file (Encoding.utf8.encode "y = 1\n!include \"./main\"\n")),
    (["d"], .file (Encoding.utf8.encode "x = 1\n"))]

/-- The inclusions that have been dealt with, each with the files that lead to it and what has come of
it. -/
def inclusionsOf (es : List Event) : List (List Place × String × Except BuildFault Fate) :=
  es.filterMap fun
    | .met way name _ outcome => some (way, name, outcome)
    | _ => none

theorem inclusions_nest_and_end_of_circle :
    (∀ z, Reached intoOut circle ⟨"main"⟩ z → ¬Receives intoOut circle ⟨"main"⟩ z) ∧
    ∃ r b es, Recorded.exec (Recorded.script intoOut "main" ⟨"out/main"⟩)
        ({ files := circle }, []) = (r, b, es) ∧
      r = .error (.source ⟨"c"⟩ 2 (.recursiveInclude "./main")) ∧ b.active = [] ∧
      inclusionsOf es = [
        ([["main"]], "a", .ok .followed), ([["main"], ["a"]], "d", .ok .followed),
        ([["main"]], "b", .ok .followed), ([["main"], ["b"]], "d", .ok .followed),
        ([["main"]], "d", .ok .followed), ([["main"]], "c", .ok .followed),
        ([["main"], ["c"]], "./main", .error (.source ⟨"c"⟩ 2 (.recursiveInclude "./main")))] ∧
      ∀ n, 5 < n → ({ files := circle } : Session).run (file intoOut n ⟨"main"⟩) =
        ({ files := circle } : Session).run (file intoOut (depth circle) ⟨"main"⟩) := by
  have hplaces : HasPlaces intoOut circle ⟨"main"⟩ [["main"], ["a"], ["b"], ["c"], ["d"]] := by
    decide +kernel
  have hapart := hplaces.not_receives (by decide +kernel)
  have hrun : (fun e => (e.1, inclusionsOf e.2.2))
      (Recorded.exec (Recorded.script intoOut "main" ⟨"out/main"⟩) ({ files := circle }, [])) =
        (.error (.source ⟨"c"⟩ 2 (.recursiveInclude "./main")), [
          ([["main"]], "a", .ok .followed), ([["main"], ["a"]], "d", .ok .followed),
          ([["main"]], "b", .ok .followed), ([["main"], ["b"]], "d", .ok .followed),
          ([["main"]], "d", .ok .followed), ([["main"]], "c", .ok .followed),
          ([["main"], ["c"]], "./main", .error (.source ⟨"c"⟩ 2 (.recursiveInclude "./main")))]) := by
    decide +kernel
  obtain ⟨r, b, es, hexec, -, hactive, -, -, hends⟩ :=
    inclusions_nest_and_end intoOut "main" ⟨"out/main"⟩ (b := { files := circle }) rfl
  rw [hexec] at hrun
  obtain ⟨hr, hes⟩ := Prod.mk.inj hrun
  exact ⟨hapart, r, b, es, hexec, hr, hactive, hes, (hends hapart).2⟩

end InstallScript
