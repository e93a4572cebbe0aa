import InstallScript.Proofs.Overwriting

/-!
Trees that have the same files and directories. What some of the files hold may differ, and this is
nothing that a path, or the making of a directory, can tell (`Resembles.locate`, `Resembles.makeDirs`).
So it does not matter what is written to a file, as far as other files are concerned: after
`Tree.receive` a tree resembles the one in which the file has been written (`Resembles.receive`).
-/

namespace InstallScript

def Node.isFile : Node → Bool
  | .file _ => true
  | .directory => false

namespace Tree

/-- Both trees have files and directories at the same places, and only at the places of `written` files
may differ. -/
structure Resembles (written : Place → Prop) (t t' : Tree) : Prop where
  workDir : t'.workDir = t.workDir
  kind : ∀ p, (t'.node? p).map Node.isFile = (t.node? p).map Node.isFile
  same : ∀ p, ¬written p → t'.node? p = t.node? p

namespace Resembles

variable {written : Place → Prop} {t t' : Tree} {p q : Place} {bs : List String} {path : Path}

protected theorem refl (t : Tree) : Resembles written t t := ⟨rfl, fun _ => rfl, fun _ _ => rfl⟩

theorem node?_cases (h : Resembles written t t') (p : Place) :
    (t.node? p = none ∧ t'.node? p = none) ∨
      (t.node? p = some .directory ∧ t'.node? p = some .directory) ∨
      ∃ content content', t.node? p = some (.file content) ∧ t'.node? p = some (.file content') := by
  have hkind := h.kind p
  rcases hn : t.node? p with _ | _ | content <;> rcases hn' : t'.node? p with _ | _ | content' <;>
    simp_all [Node.isFile]

theorem isNone (h : Resembles written t t') (p : Place) : (t'.node? p).isNone = (t.node? p).isNone := by
  rw [← Option.isNone_map (f := Node.isFile), h.kind, Option.isNone_map]

theorem isSome (h : Resembles written t t') (p : Place) : (t'.node? p).isSome = (t.node? p).isSome := by
  rw [← Option.isSome_map (f := Node.isFile), h.kind, Option.isSome_map]

theorem directory_iff (h : Resembles written t t') (p : Place) :
    t'.node? p = some .directory ↔ t.node? p = some .directory := by
  rcases h.node?_cases p with ⟨hn, hn'⟩ | ⟨hn, hn'⟩ | ⟨_, _, hn, hn'⟩ <;> simp [hn, hn']

/-- Pieces lead to the same place. -/
theorem follow (h : Resembles written t t') (p : Place) (bs : List String) :
    t'.follow p bs = t.follow p bs := by
  induction bs generalizing p with
  | nil => rfl
  | cons b bs ih =>
    rw [Tree.follow, Tree.follow]
    rcases h.node?_cases p with ⟨hn, hn'⟩ | ⟨hn, hn'⟩ | ⟨_, _, hn, hn'⟩
    · rw [hn, hn']
    · rw [hn, hn', h.isNone, ih, ih, ih]
    · rw [hn, hn']

theorem locate (h : Resembles written t t') (path : Path) : t'.locate path = t.locate path := by
  rw [Tree.locate, Tree.locate, start_congr h.workDir]
  exact bind_congr fun s => h.follow s.1 s.2

theorem locateLast (h : Resembles written t t') (path : Path) :
    t'.locateLast path = t.locateLast path := by
  rw [Tree.locateLast, Tree.locateLast, start_congr h.workDir]
  refine bind_congr fun s => ?_
  obtain ⟨p, bs⟩ := s
  dsimp only
  rw [h.follow]

theorem isDirectory (h : Resembles written t t') (path : Path) :
    t'.isDirectory path = t.isDirectory path := by
  rw [Tree.isDirectory, Tree.isDirectory, h.locate]
  split
  · exact decide_eq_decide.mpr (h.directory_iff _)
  · rfl

theorem orThere (h : Resembles written t t') (path : Path) (f : FileFault) :
    t'.orThere path f = t.orThere path f := by
  rw [Tree.orThere, Tree.orThere, h.isDirectory]

theorem put (h : Resembles written t t') (hp : p ≠ []) {n n' : Node} (hkind : n'.isFile = n.isFile)
    (hn : written p ∨ n' = n) : Resembles written (t.put p n) (t'.put p n') where
  workDir := h.workDir
  kind q := by
    rw [node?_put hp, node?_put hp]
    split
    · exact congrArg some hkind
    · exact h.kind q
  same q hq := by
    rw [node?_put hp, node?_put hp]
    split
    · next heq =>
      rcases hn with hn | rfl
      · exact absurd (heq ▸ hn) hq
      · rfl
    · exact h.same q hq

/-- A directory is made in both trees or in none. -/
theorem makeDir (h : Resembles written t t') (path : Path) :
    (∃ f, t.makeDir path = .error f ∧ t'.makeDir path = .error f) ∨
      ∃ u u', t.makeDir path = .ok u ∧ t'.makeDir path = .ok u' ∧ Resembles written u u' := by
  rw [Tree.makeDir, Tree.makeDir, h.locateLast]
  cases t.locateLast path with
  | error f => exact .inl ⟨f, rfl, rfl⟩
  | ok last =>
    obtain ⟨dir, _ | name, slash⟩ := last
    · exact .inl ⟨_, rfl, rfl⟩
    · dsimp only [bind, Except.bind]
      rw [h.isSome]
      split
      · exact .inl ⟨_, rfl, rfl⟩
      split
      · exact .inl ⟨_, rfl, rfl⟩
      · exact .inr ⟨_, _, rfl, rfl, h.put (by simp) rfl (.inr rfl)⟩

theorem makeDirs (h : Resembles written t t') (paths : List Path) :
    (t'.makeDirs paths).1 = (t.makeDirs paths).1 ∧
      Resembles written (t.makeDirs paths).2 (t'.makeDirs paths).2 := by
  induction paths generalizing t t' with
  | nil => exact ⟨rfl, h⟩
  | cons path above ih =>
    rw [Tree.makeDirs, Tree.makeDirs]
    rcases h.makeDir path with ⟨f, hf, hf'⟩ | ⟨u, u', hu, hu', hmade⟩
    · rw [hf, hf']
      cases f
      case notFound =>
        obtain ⟨hsame, habove⟩ := ih h
        dsimp only
        generalize t'.makeDirs above = e' at hsame habove
        generalize t.makeDirs above = e at hsame habove
        obtain ⟨r, u⟩ := e
        obtain ⟨_, u'⟩ := e'
        cases hsame
        cases r with
        | error f => exact ⟨rfl, habove⟩
        | ok _ =>
          dsimp only
          rcases habove.makeDir path with ⟨f, hf, hf'⟩ | ⟨v, v', hv, hv', hmade⟩
          · rw [hf, hf']
            exact ⟨habove.orThere path f, habove⟩
          · rw [hv, hv']
            exact ⟨rfl, hmade⟩
      all_goals exact ⟨h.orThere path _, h⟩
    · rw [hu, hu']
      exact ⟨rfl, hmade⟩

/-- A file is written in both trees or in none, whatever it is to hold. -/
theorem write (h : Resembles written t t') (hpath : ∀ p, t.place? path = some p → written p)
    (content content' : Bytes) :
    (∃ f, t.write path content = .error f ∧ t'.write path content' = .error f) ∨
      ∃ u u', t.write path content = .ok u ∧ t'.write path content' = .ok u' ∧
        Resembles written u u' := by
  rw [Tree.write, Tree.write, h.locateLast]
  cases hl : t.locateLast path with
  | error f => exact .inl ⟨f, rfl, rfl⟩
  | ok last =>
    obtain ⟨dir, _ | name, _ | _⟩ := last
    · exact .inl ⟨_, rfl, rfl⟩
    · exact .inl ⟨_, rfl, rfl⟩
    · dsimp only [bind, Except.bind]
      simp only [h.directory_iff]
      split
      · exact .inl ⟨_, rfl, rfl⟩
      split
      · exact .inl ⟨_, rfl, rfl⟩
      · exact .inr ⟨_, _, rfl, rfl, h.put (by simp) rfl (.inl (hpath _ (place?_of_locateLast hl)))⟩
    · exact .inl ⟨_, rfl, rfl⟩

end Resembles

/-! ## Files that are only there -/

variable {written : Place → Prop} {t t' : Tree} {path : Path}

/-- Makes the directory a file goes to. -/
def prepare (t : Tree) (path : Path) : Except FileFault Unit × Tree :=
  match path.parent? with
  | none => (.ok (), t)
  | some dir => if dir.text ≠ "" then t.makeDirs dir.ancestors else (.ok (), t)

/-- Writes a file that holds nothing, or leaves the file out if it cannot be written. -/
def receive (t : Tree) (path : Path) : Tree :=
  match (t.prepare path).1 with
  | .error _ => (t.prepare path).2
  | .ok _ => ((t.prepare path).2.write path []).toOption.getD (t.prepare path).2

theorem grows_prepare (t : Tree) (path : Path) : Grows written t (t.prepare path).2 := by
  unfold prepare
  split
  · exact .refl t
  · split
    · exact grows_makeDirs t _
    · exact .refl t

theorem grows_receive (hpath : ∀ p, t.place? path = some p → written p) :
    Grows written t (t.receive path) := by
  have hprepare : Grows written t (t.prepare path).2 := grows_prepare t path
  unfold receive
  split
  · exact hprepare
  · cases hw : (t.prepare path).2.write path [] with
    | error f => exact hprepare
    | ok u =>
      refine hprepare.trans ((grows_write hw).mono fun p hp => hpath p ?_)
      rw [← place?_congr hprepare.workDir, hp]

theorem Resembles.prepare (h : Resembles written t t') (path : Path) :
    (t'.prepare path).1 = (t.prepare path).1 ∧
      Resembles written (t.prepare path).2 (t'.prepare path).2 := by
  unfold Tree.prepare
  split
  · exact ⟨rfl, h⟩
  · split
    · exact h.makeDirs _
    · exact ⟨rfl, h⟩

/-- Once the file has been written, the trees still resemble each other. -/
theorem Resembles.receive (h : Resembles written t t') (hpath : ∀ p, t.place? path = some p → written p)
    {content : Bytes} {u : Tree} (hprepare : (t'.prepare path).1 = .ok ())
    (hwrite : (t'.prepare path).2.write path content = .ok u) : Resembles written (t.receive path) u := by
  obtain ⟨hsame, hprepared⟩ := h.prepare path
  have hgrows : Grows written t (t.prepare path).2 := grows_prepare t path
  have hplace : ∀ p, (t.prepare path).2.place? path = some p → written p := by
    rw [place?_congr hgrows.workDir]
    exact hpath
  rw [Tree.receive, ← hsame, hprepare]
  dsimp only
  rcases hprepared.write hplace [] content with ⟨f, -, hf⟩ | ⟨v, v', hv, hv', hresembles⟩
  · cases hwrite.symm.trans hf
  · cases hwrite.symm.trans hv'
    rw [hv]
    exact hresembles

end Tree

end InstallScript
