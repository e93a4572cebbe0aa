import InstallScript.Proofs.Charts
import InstallScript.Proofs.LineGroups

/-!
Where a fault is reported. If a build stops at a statement, then the path is that of the file in which the
statement is, however deep its inclusion, the line is the last one of the statement, and the fault is
what the compiler has said about the statement in the state in which the course has left it. Nothing has
been written but the files whose inclusion was finished before (`fault_names_innermost_statement`).
-/

namespace InstallScript

open Build

/-! ## Lines of statements -/

/-- The statement is a group of lines of the source, and the last line of the group has the number. -/
def Statement.EndsAt (s : Statement) (source : String) (line : Nat) : Prop :=
  ∃ before g after, Grouped (before ++ g :: after) ∧
    (before ++ g :: after).flatMap (·.lines) = Text.lines source ∧ s = g.draft.finish line ∧
    line = ((before ++ [g]).flatMap (·.lines)).length

theorem mem_groupStatements {s : Statement} {n : Nat} {gs : List LineGroup}
    (h : s ∈ groupStatements n gs) : ∃ before g after, gs = before ++ g :: after ∧
      s = g.draft.finish (n + ((before ++ [g]).flatMap (·.lines)).length) := by
  induction gs generalizing n with
  | nil => cases h
  | cons g gs ih =>
    rcases List.mem_cons.mp h with rfl | h
    · exact ⟨[], g, gs, rfl, by rw [List.nil_append, List.flatMap_singleton]⟩
    · obtain ⟨before, g', after, rfl, rfl⟩ := ih h
      refine ⟨g :: before, g', after, rfl, ?_⟩
      rw [List.cons_append, List.flatMap_cons, List.length_append, Nat.add_assoc]

theorem endsAt_of_mem {s : Statement} {source : String} (h : s ∈ statements source) :
    s.EndsAt source s.line := by
  obtain ⟨gs, hstatements, hflat, hgrouped⟩ := exists_groups 0 none (by simp) (Text.lines source)
  have hmem : s ∈ groupStatements 0 gs := hstatements ▸ h
  obtain ⟨before, g, after, rfl, rfl⟩ := mem_groupStatements hmem
  exact ⟨before, g, after, hgrouped, hflat, rfl, Nat.zero_add _⟩

/-! ## The place of a fault -/

/-- The path of the statement at fault is the last one of those that lead to it. -/
theorem Goes.getLast?_chain {o : Options} {t : Tree} {path : Path} {ss : List Statement} {c : Course}
    {x : Path × Statement} (h : Goes o t path ss c (some x)) :
    (path :: c.chain.map (sourceOf o)).getLast? = some x.1 := by
  generalize hstop : some x = stop at h
  induction h with
  | ended => cases hstop
  | own _ _ ih => exact ih hstop
  | copied _ _ _ ih => exact ih hstop
  | absent _ _ _ _ ih => exact ih hstop
  | followed _ _ _ _ _ _ ih => exact ih hstop
  | halted =>
    cases hstop
    rfl
  | haltedIn _ _ _ _ ih => exact ih hstop

/-- Sources are looked for where a file is included, and files are written for those that are. -/
theorem Layout.ofReached {o : Options} {t : Tree} {main : Path}
    (hapart : ∀ z, Reached o t main z → ¬Receives o t main z) :
    Layout o t (Reached o t main) (Receives o t main) where
  apart := hapart
  included _ _ _ hz hname hx hplace := .included hz hname hx hplace
  written z name _ hz hname hplace h := ⟨name, ⟨z, hz, hname⟩, hplace, h⟩

/-- A fault names the innermost statement. If no file is written where a source of the script is looked
for, and the script fails at a source, then a course of the main file leads through the included files to
a statement. The path is that of the last of these files, which has the statement, and the line is that
of its last line. The fault is the one the compiler finds in the statement after those compiled
before, or the statement includes one of the files on the way again. A file has changed only where one
whose inclusion was finished before is written: neither the script is written nor are the files on the
way, unless it is to the place of such a file. -/
theorem fault_names_innermost_statement (o : Options) {name : String} {target path : Path} {line : Nat}
    {f : Fault} {b b' : Session} (hactive : b.active = [])
    (hapart : ∀ z, Reached o b.files (sourceOf o name) z → ¬Receives o b.files (sourceOf o name) z)
    (hrun : b.run (script o name target) = (.error (.source path line f), b')) :
    ∃ source course s es, b.files.HasSource o (sourceOf o name) source ∧
      Goes o b.files (sourceOf o name) (statements source) course (some (path, s)) ∧
      Recorded.exec (Recorded.script o name target) (b, []) =
        (.error (.source path line f), b', es) ∧ fatesOf es = course.fates ∧
      (sourceOf o name :: course.chain.map (sourceOf o)).getLast? = some path ∧
      (∃ source', b.files.HasSource o path source' ∧ s ∈ statements source' ∧
        s.EndsAt source' line) ∧
      Blames o b.files (b.compiler.steps course.compiled).2 s
        (fun z => ∃ p ∈ sourceOf o name :: course.chain.map (sourceOf o), b.files.place? p = some z) f ∧
      ∀ z, ¬course.Wrote o b.files z → ∀ bytes,
        b'.files.node? z = some (.file bytes) ↔ b.files.node? z = some (.file bytes) := by
  cases hexec : Recorded.exec (Recorded.script o name target) (b, []) with
  | mk r σ' =>
    obtain ⟨b'', es⟩ := σ'
    cases hrun.symm.trans (Recorded.run_script hexec)
    obtain ⟨source, course, s, hsource, hgoes, rfl, hhalts⟩ :=
      Recorded.halts_script (.ofReached hapart) (.refl _) (fun _ hz => .main hz) hexec
    refine ⟨source, course, s, es, hsource, hgoes, rfl, hhalts.fates, hgoes.getLast?_chain, ?_, ?_, ?_⟩
    · obtain ⟨source', hsource', hmem⟩ := hgoes.mem_statements hsource fun _ hs => hs
      exact ⟨source', hsource', hmem, endsAt_of_mem hmem⟩
    · refine hhalts.cause.mono fun z hz => hz.resolve_left ?_
      rw [hactive]
      exact List.not_mem_nil
    · intro z hz bytes
      exact ⟨fun h => (hhalts.files.ofFile z bytes h).resolve_right hz,
        fun h => hhalts.files.file z bytes h hz⟩

/-- The script includes a file once by itself and once in a file that goes on with a statement of two lines,
which is at fault. -/
def brokenSecond : Tree where
  entries := [(["main"], .file (Encoding.utf8.encode "!include b\n!include a\nx = 1\n")),
    (["a"], .file (Encoding.utf8.encode "!include b\nx = \\\n  nope\n")),
    (["b"], .file (Encoding.utf8.encode "y = 1\n"))]

theorem fault_names_innermost_statement_of_brokenSecond :
    (∀ z, Reached intoOut brokenSecond ⟨"main"⟩ z → ¬Receives intoOut brokenSecond ⟨"main"⟩ z) ∧
    ∃ (b' : Session) (course : Course) (s : Statement),
      ({ files := brokenSecond } : Session).run (script intoOut "main" ⟨"out/main"⟩) =
        (.error (.source ⟨"a"⟩ 3 (.undefinedVariable "nope")), b') ∧
      course.fates = [("b", .followed), ("a", .followed), ("b", .followed)] ∧
      (∃ source, brokenSecond.HasSource intoOut ⟨"a"⟩ source ∧ s ∈ statements source ∧
        s.EndsAt source 3) ∧
      ((({} : Compiler).steps course.compiled).2.step s).1.result =
        .error (.undefinedVariable "nope") ∧
      ∀ z, ¬course.Wrote intoOut brokenSecond z → ∀ bytes,
        b'.files.node? z = some (.file bytes) ↔ brokenSecond.node? z = some (.file bytes) := by
  have hplaces : HasPlaces intoOut brokenSecond ⟨"main"⟩ [["main"], ["a"], ["b"]] := by
    decide +kernel
  have hapart := hplaces.not_receives (by decide +kernel)
  have hend : (fun e => (e.1, fatesOf e.2.2))
      (Recorded.exec (Recorded.script intoOut "main" ⟨"out/main"⟩) ({ files := brokenSecond }, [])) =
        (.error (.source ⟨"a"⟩ 3 (.undefinedVariable "nope")),
          [("b", .followed), ("a", .followed), ("b", .followed)]) := by
    decide +kernel
  cases hexec : Recorded.exec (Recorded.script intoOut "main" ⟨"out/main"⟩)
      ({ files := brokenSecond }, []) with
  | mk r σ' =>
    obtain ⟨b', es⟩ := σ'
    rw [hexec] at hend
    obtain ⟨rfl, hes⟩ := Prod.mk.inj hend
    have hrun := Recorded.run_script hexec
    obtain ⟨_, course, s, es', _, _, hexec', hfates, _, hstatement, hcause, hfiles⟩ :=
      fault_names_innermost_statement intoOut rfl hapart hrun
    cases hexec.symm.trans hexec'
    refine ⟨hapart, b', course, s, hrun, hfates.symm.trans hes, hstatement, ?_, hfiles⟩
    refine hcause.resolve_right ?_
    rintro ⟨_, _, ⟨⟩, _⟩

end InstallScript
