import InstallScript.Proofs.Charts

/-!
What is counted over several scripts. A session counts a file each time one is compiled, and the lines
of its source when this is done. Over scripts that are compiled one after the other the numbers are
those of all the files that the courses of the scripts have gone through
(`counts_of_followed_files`).
-/

namespace InstallScript

open Build

/-! ## Several scripts -/

/-- Compiles scripts one after the other, each to a path of its own. -/
def Build.scripts (o : Options) : List (String × Path) → Build Unit
  | [] => return
  | run :: runs => do
    script o run.1 run.2
    scripts o runs

namespace Recorded

def scripts (o : Options) : List (String × Path) → Recorded Unit
  | [] => return
  | run :: runs => do
    script o run.1 run.2
    scripts o runs

theorem erases_scripts (o : Options) (runs : List (String × Path)) :
    Erases id (scripts o runs) (Build.scripts o runs) := by
  induction runs with
  | nil => exact .pure id ()
  | cons run runs ih => exact .bind (erases_script run.1 run.2) fun _ => ih

theorem run_scripts {o : Options} {runs : List (String × Path)} {b b' : Session} {es es' : List Event}
    {r : Except BuildFault Unit} (h : exec (scripts o runs) (b, es) = (r, b', es')) :
    b.run (Build.scripts o runs) = (r, b') := by
  rw [← erases_scripts o runs (b, es), h, Except.map_id]
  rfl

end Recorded

/-- A file that has been compiled: its source, and the course of its statements. -/
structure FollowedFile where
  source : String
  course : Course

namespace FollowedFile

/-- The sources of the file and of those compiled for its inclusions, one for each time. -/
def sources (f : FollowedFile) : List String := f.source :: f.course.sources

/-- The file at the path has the source, and its statements go through the course to the end. -/
def At (o : Options) (t : Tree) (path : Path) (f : FollowedFile) : Prop :=
  t.HasSource o path f.source ∧ Goes o t path (statements f.source) f.course none

end FollowedFile

variable {o : Options} {t : Tree}

/-- A source of one of the scripts is looked for at the place. -/
def ReachedBy (o : Options) (t : Tree) (runs : List (String × Path)) (z : Place) : Prop :=
  ∃ run ∈ runs, Reached o t (sourceOf o run.1) z

/-- One of the scripts, or a file for one of them, is written to the place. -/
def WrittenBy (o : Options) (t : Tree) (runs : List (String × Path)) (z : Place) : Prop :=
  ∃ run ∈ runs, t.place? run.2 = some z ∨ Receives o t (sourceOf o run.1) z

theorem Layout.ofRuns {runs : List (String × Path)}
    (hapart : ∀ z, ReachedBy o t runs z → ¬WrittenBy o t runs z) :
    Layout o t (ReachedBy o t runs) (WrittenBy o t runs) where
  apart := hapart
  included z name z' := by
    rintro ⟨run, hrun, hz⟩ hname hx hplace
    exact ⟨run, hrun, .included hz hname hx hplace⟩
  written z name z' := by
    rintro ⟨run, hrun, hz⟩ hname hplace h
    exact ⟨run, hrun, .inr ⟨name, ⟨z, hz, hname⟩, hplace, h⟩⟩

/-- With the places of all the sources at hand, it can be decided that no file goes to one of them. -/
theorem not_writtenBy_of_hasPlaces {runs : List (String × Path)} (zs : List Place)
    (hplaces : ∀ run ∈ runs, HasPlaces o t (sourceOf o run.1) zs)
    (htargets : ∀ run ∈ runs, ∀ z ∈ t.place? run.2, z ∉ zs)
    (hapart : ∀ z₀ ∈ zs, ∀ name ∈ t.namesAt o z₀, ∀ z ∈ t.place? (targetOf o name), z ∉ zs) :
    ∀ z, ReachedBy o t runs z → ¬WrittenBy o t runs z := by
  rintro z ⟨run, hrun, hz⟩ ⟨run', hrun', hplace | ⟨name, ⟨z₀, hz₀, hname⟩, hplace, -⟩⟩
  · exact htargets run' hrun' z hplace ((hplaces run hrun).mem hz)
  · exact hapart z₀ ((hplaces run' hrun').mem hz₀) name hname z hplace ((hplaces run hrun).mem hz)

/-- The counts go up by the files of each script in turn. -/
theorem Recorded.completes_scripts {S W : Place → Prop} (L : Layout o t S W)
    {runs : List (String × Path)} {σ σ' : Session × List Event} (hinside : t.Grows W σ.1.files)
    (hS : ∀ run ∈ runs, ∀ z, t.place? (sourceOf o run.1) = some z → S z)
    (hW : ∀ run ∈ runs, ∀ z, t.place? run.2 = some z → W z)
    (h : exec (scripts o runs) σ = (.ok (), σ')) :
    ∃ fs, List.Forall₂ (fun run f => FollowedFile.At o t (sourceOf o run.1) f) runs fs ∧
      fatesOf σ'.2 = fatesOf σ.2 ++ fs.flatMap (·.course.fates) ∧
      σ'.1.fileCount = σ.1.fileCount + (fs.flatMap (·.sources)).length ∧
      σ'.1.lineCount = σ.1.lineCount + lineTotal (fs.flatMap (·.sources)) := by
  induction runs generalizing σ with
  | nil =>
    cases h
    exact ⟨[], .nil, (List.append_nil _).symm, rfl, rfl⟩
  | cons run runs ih =>
    obtain ⟨hrunS, hS⟩ := List.forall_mem_cons.mp hS
    obtain ⟨hrunW, hW⟩ := List.forall_mem_cons.mp hW
    rw [scripts] at h
    cases hexec : exec (script o run.1 run.2) σ with
    | mk r σ₁ =>
      cases r with
      | error g =>
        rw [exec_bind_error hexec] at h
        cases h
      | ok _ =>
        rw [exec_bind_ok hexec] at h
        obtain ⟨source, c, hsource, hgoes, hinside₁, hfates, hfiles, hlines⟩ :=
          completes_script L hinside hrunS hrunW hexec
        obtain ⟨fs, hfs, hfates', hfiles', hlines'⟩ := ih hinside₁ hS hW h
        refine ⟨⟨source, c⟩ :: fs, .cons ⟨hsource, hgoes⟩ hfs, ?_, ?_, ?_⟩
        · rw [hfates', hfates, List.append_assoc, List.flatMap_cons]
        · rw [hfiles', hfiles, Nat.add_assoc, List.flatMap_cons, List.length_append]
          rfl
        · rw [hlines', hlines, Nat.add_assoc, List.flatMap_cons, lineTotal_append]
          rfl

/-- Files and lines are counted once for each time that a file is compiled. If no file is written where
a source is looked for, and scripts are compiled one after the other, then for each of them there is a
course of its main file that goes through just the inclusions that the build has dealt with. The number of
files is that of the main files and of the included files on these courses that have been compiled, and
the number of lines is that of their sources: files that are copied and files that are not there are
not counted. -/
theorem counts_of_followed_files (o : Options) (runs : List (String × Path)) {t : Tree} {c : Compiler}
    {b : Session} (hapart : ∀ z, ReachedBy o t runs z → ¬WrittenBy o t runs z)
    (hruns : ({ files := t, compiler := c } : Session).run (Build.scripts o runs) = (.ok (), b)) :
    ∃ fs es, List.Forall₂ (fun run f => FollowedFile.At o t (sourceOf o run.1) f) runs fs ∧
      Recorded.exec (Recorded.scripts o runs) ({ files := t, compiler := c }, []) = (.ok (), b, es) ∧
      fatesOf es = fs.flatMap (·.course.fates) ∧
      b.fileCount = (fs.flatMap (·.sources)).length ∧
      b.lineCount = lineTotal (fs.flatMap (·.sources)) := by
  cases hexec : Recorded.exec (Recorded.scripts o runs) ({ files := t, compiler := c }, []) with
  | mk r σ' =>
    obtain ⟨b', es⟩ := σ'
    cases hruns.symm.trans (Recorded.run_scripts hexec)
    obtain ⟨fs, hfs, hfates, hfiles, hlines⟩ := Recorded.completes_scripts (.ofRuns hapart) (.refl _)
      (fun run hrun z hz => ⟨run, hrun, .main hz⟩) (fun run hrun z hz => ⟨run, hrun, .inl hz⟩) hexec
    exact ⟨fs, es, hfs, rfl, hfates, hfiles.trans (Nat.zero_add _), hlines.trans (Nat.zero_add _)⟩

/-- Two scripts that share a file, which one of them includes twice through another one. Of the further
files that it includes one is not there and one is to be copied. -/
def twoScripts : Tree where
  entries := [
    (["main"], .file (Encoding.utf8.encode
      "!include a\n!include gone\n!include plain\n!include a\nx = \\\n  1\n")),
    (["other"], .file (Encoding.utf8.encode "!include b\n")),
    (["a"], .file (Encoding.utf8.encode "!include b\n")),
    (["b"], .file (Encoding.utf8.encode "y = 1\n")),
    (["plain"], .file (Encoding.utf8.encode "Nop\nNop\n"))]

def exceptPlain : Options := { intoOut with exclude := [⟨"plain"⟩] }

theorem counts_of_followed_files_of_twoScripts :
    let runs := [("main", (⟨"out/main"⟩ : Path)), ("other", ⟨"out/other"⟩)]
    (∀ z, ReachedBy exceptPlain twoScripts runs z → ¬WrittenBy exceptPlain twoScripts runs z) ∧
    ∃ (b : Session) (fs : List FollowedFile),
      ({ files := twoScripts } : Session).run (Build.scripts exceptPlain runs) = (.ok (), b) ∧
      List.Forall₂ (fun run f => FollowedFile.At exceptPlain twoScripts (sourceOf exceptPlain run.1) f)
        runs fs ∧
      fs.flatMap (·.course.fates) = [("a", .followed), ("b", .followed), ("gone", .absent),
        ("plain", .copied), ("a", .followed), ("b", .followed), ("b", .followed)] ∧
      b.fileCount = 7 ∧ b.lineCount = 12 ∧
      (fs.flatMap (·.sources)).length = 7 ∧ lineTotal (fs.flatMap (·.sources)) = 12 := by
  intro runs
  have hapart : ∀ z, ReachedBy exceptPlain twoScripts runs z → ¬WrittenBy exceptPlain twoScripts runs z :=
    not_writtenBy_of_hasPlaces [["main"], ["other"], ["a"], ["b"], ["gone"]]
      (by decide +kernel) (by decide +kernel) (by decide +kernel)
  have hend : (fun e => (e.1, e.2.1.fileCount, e.2.1.lineCount, fatesOf e.2.2))
      (Recorded.exec (Recorded.scripts exceptPlain runs) ({ files := twoScripts }, [])) =
        (.ok (), 7, 12, [("a", .followed), ("b", .followed), ("gone", .absent),
          ("plain", .copied), ("a", .followed), ("b", .followed), ("b", .followed)]) := by
    decide +kernel
  cases hexec : Recorded.exec (Recorded.scripts exceptPlain runs) ({ files := twoScripts }, []) with
  | mk r σ' =>
    obtain ⟨b, es⟩ := σ'
    rw [hexec] at hend
    obtain ⟨rfl, hcounts⟩ := Prod.mk.inj hend
    obtain ⟨hfiles, hcounts⟩ := Prod.mk.inj hcounts
    obtain ⟨hlines, hes⟩ := Prod.mk.inj hcounts
    have hruns := Recorded.run_scripts hexec
    obtain ⟨fs, es', hfs, hexec', hfates, hfiles', hlines'⟩ :=
      counts_of_followed_files exceptPlain runs hapart hruns
    cases hexec.symm.trans hexec'
    exact ⟨hapart, b, fs, hruns, hfs, hfates.symm.trans hes, hfiles, hlines,
      hfiles'.symm.trans hfiles, hlines'.symm.trans hlines⟩

end InstallScript
