import InstallScript.Build
import InstallScript.Proofs.Reading
import InstallScript.Proofs.SourceLines

/-!
Compiling statements one after the other until one is wrong. How far this gets depends on the
statements but not on where they stand, and not on how they are divided among sources. A statement that
includes a file leaves the compiler as it is, and its words alone decide that it does.
-/

namespace InstallScript

/-- The text of a statement; one that includes a file is its own text. -/
def Output.own (s : Statement) : Output → String
  | .text t => t
  | .inclusion _ => s.text

/-- How far compiling has got: the texts of the statements before the first that is wrong, the fault of
that one, and the compiler it has left. -/
structure Progress where
  texts : List String := []
  fault : Option Fault := none
  compiler : Compiler
deriving DecidableEq

/-- Goes on from here, unless a statement has been wrong. -/
def Progress.andThen (p : Progress) (next : Compiler → Progress) : Progress :=
  match p.fault with
  | some _ => p
  | none => { next p.compiler with texts := p.texts ++ (next p.compiler).texts }

theorem Progress.andThen_of_fault {p : Progress} {f : Fault} (h : p.fault = some f)
    (next : Compiler → Progress) : p.andThen next = p := by
  rw [andThen, h]

theorem Progress.andThen_of_none {p : Progress} (h : p.fault = none) (next : Compiler → Progress) :
    p.andThen next = { next p.compiler with texts := p.texts ++ (next p.compiler).texts } := by
  rw [andThen, h]

theorem Progress.andThen_assoc (p : Progress) (f g : Compiler → Progress) :
    (p.andThen f).andThen g = p.andThen fun c => (f c).andThen g := by
  obtain ⟨texts, _ | _, c⟩ := p
  · simp only [andThen]
    split <;> simp [*]
  · rfl

namespace Compiler

/-- Compiles one statement. -/
def attempt (c : Compiler) (s : Statement) : Progress :=
  match (c.step s).1.result with
  | .error f => { fault := f, compiler := (c.step s).2 }
  | .ok out => { texts := [out.own s], compiler := (c.step s).2 }

/-- Compiles statements until one is wrong. -/
def advance (c : Compiler) : List Statement → Progress
  | [] => { compiler := c }
  | s :: ss => (c.attempt s).andThen (·.advance ss)

theorem andThen_advance_nil (p : Progress) : p.andThen (·.advance []) = p := by
  obtain ⟨texts, _ | _, c⟩ := p
  · simp [Progress.andThen, advance]
  · rfl

theorem advance_append (c : Compiler) (ss ts : List Statement) :
    c.advance (ss ++ ts) = (c.advance ss).andThen (·.advance ts) := by
  induction ss generalizing c with
  | nil => rfl
  | cons s ss ih =>
    rw [List.cons_append, advance, advance, Progress.andThen_assoc]
    simp only [ih]

theorem attempt_unnumbered (c : Compiler) (s : Statement) : c.attempt s.unnumbered = c.attempt s := by
  obtain ⟨line, indent, text, _ | ts⟩ := s <;> rfl

/-- Where the statements stand makes no difference. -/
theorem advance_congr {ss ts : List Statement}
    (h : ss.map Statement.unnumbered = ts.map Statement.unnumbered) (c : Compiler) :
    c.advance ss = c.advance ts := by
  induction ss generalizing c ts with
  | nil =>
    rw [List.map_eq_nil_iff.mp h.symm]
  | cons s ss ih =>
    obtain ⟨s', ts, rfl, hs, hts⟩ := List.map_eq_cons_iff.mp h.symm
    rw [advance, advance, ← attempt_unnumbered, ← hs, attempt_unnumbered]
    simp only [ih hts.symm]

/-- Compiles the statements that lines make up. -/
def advanceLines (c : Compiler) (ls : List String) : Progress := c.advance (statementsFrom 0 none ls)

theorem advanceLines_append {ls ms : List String} (h : endsClosed ls) (c : Compiler) :
    c.advanceLines (ls ++ ms) = (c.advanceLines ls).andThen (·.advanceLines ms) := by
  have hmoved : ∀ c : Compiler,
      c.advance (statementsFrom (0 + ls.length) none ms) = c.advanceLines ms :=
    advance_congr (unnumbered_statementsFrom _ _ _ _)
  rw [advanceLines, statementsFrom_append (Option.isNone_iff_eq_none.mp h), advance_append]
  simp only [hmoved]
  rfl

theorem advanceLines_of_whole {b : Block} (h : b.Whole) (c : Compiler) :
    c.advanceLines b.lines = c.attempt b.statement := by
  have hstatement : (statementsFrom 0 none b.lines).map Statement.unnumbered =
      [b.statement].map Statement.unnumbered := h.alone 0
  rw [advanceLines, advance_congr hstatement, advance, andThen_advance_nil]

/-- The statements of the text with the given lines are those of the lines. -/
theorem advance_unlines {ls : List String} (h : ∀ l ∈ ls, '\n' ∉ l.toList) (c : Compiler) :
    c.advance (statements (Text.unlines ls)) = c.advanceLines ls := by
  rw [statements, Text.lines_unlines h]
  rfl

end Compiler

/-! ## Inclusions -/

namespace Compile

/-- What becomes of a command is decided by its words, and the compiler stays as it is. -/
theorem exec_command (cursor : Cursor) : ∃ r cursor', ∀ c : Compiler,
    exec command { compiler := c, cursor } = (r, { compiler := c, cursor := cursor' }) := by
  obtain ⟨t, ts⟩ := cursor
  match ts with
  | [] => exact ⟨_, _, fun _ => rfl⟩
  | first :: rest =>
    have hread : ∀ c : Compiler, exec command { compiler := c, cursor := ⟨t, first :: rest⟩ } =
        exec (if first.word.name ≠ "include" then pure .verbatim
          else do
            let path ← nextWord
            if path.kind = .special || (← hasNext) then return .verbatim
            return .inclusion path.bare)
          { compiler := c, cursor := ⟨first.tail, rest⟩ } := by
      intro c
      rw [command, exec_bind_ok (exec_hasNext _)]
      exact exec_bind_ok (exec_nextWord rfl)
    simp only [hread]
    by_cases hn : first.word.name = "include"
    · simp only [hn, ne_eq, not_true_eq_false, if_false]
      match rest with
      | [] => exact ⟨_, _, fun _ => exec_bind_error (exec_nextWord_of_none rfl)⟩
      | path :: rest =>
        have hlast : ∀ c : Compiler, exec (do
              let path ← nextWord
              if path.kind = .special || (← hasNext) then return Compiled.verbatim
              return .inclusion path.bare)
            { compiler := c, cursor := ⟨first.tail, path :: rest⟩ } =
            exec (if path.word.kind = .special || !rest.isEmpty then pure .verbatim
              else pure (.inclusion path.word.bare))
              { compiler := c, cursor := ⟨path.tail, rest⟩ } := by
          intro c
          rw [exec_bind_ok (exec_nextWord rfl), exec_bind_ok (exec_hasNext _)]
          rfl
        simp only [hlast]
        split <;> exact ⟨_, _, fun _ => rfl⟩
    · simp only [ne_eq, hn, not_false_eq_true, if_true]
      exact ⟨_, _, fun _ => rfl⟩

/-- Only a command includes a file. -/
theorem gives_dispatch_inclusion {w : Work} (word : Word) (t : Tail) : Gives (dispatch word t) w
    fun r _ => ∀ name, r = .inclusion name → ¬t.assigns ∧ ¬t.opens ∧ t.command := by
  have hwritten : ∀ {act : Compile Unit} {P : Prop}, Gives (written act) w
      fun r _ => ∀ name, r = .inclusion name → P := by
    intro act P
    refine (gives_written (Q := fun _ => True) fun _ _ _ => trivial).mono ?_
    rintro _ _ ⟨rfl, _⟩ name h
    cases h
  unfold dispatch
  split
  · exact hwritten
  next hassigns =>
  split
  · exact hwritten
  next hopens =>
  split
  · next hcommand => exact fun _ _ _ _ _ => ⟨hassigns, hopens, hcommand⟩
  split
  all_goals try exact hwritten
  exact .pure fun name h => nomatch h

end Compile

/-- Words that include a file do so for every compiler, and leave it as it is. -/
theorem compile_inclusion {c : Compiler} {ts : List Token} {name : String}
    (h : (c.compile ts).result = .ok (.inclusion name)) :
    (∃ t rest, ts = t :: rest ∧ t.tail.command) ∧
      ∀ c' : Compiler, (c'.compile ts).result = .ok (.inclusion name) ∧
        (c'.compile ts).compiler = c' ∧ (c'.compile ts).notes = [] := by
  cases ts with
  | nil => cases h
  | cons t rest =>
    obtain ⟨w, he, _⟩ := Compile.exec_dispatch_of_compile h
    obtain ⟨hassigns, hopens, hcommand⟩ := Compile.gives_dispatch_inclusion _ _ _ _ he name rfl
    have hdispatch : Compile.dispatch t.word t.tail = Compile.command := by
      rw [Compile.dispatch, if_neg hassigns, if_neg hopens, if_pos hcommand]
    obtain ⟨r, cursor, hr⟩ := Compile.exec_command ⟨t.tail, rest⟩
    have hexec : ∀ c' : Compiler, Compile.exec Compile.statement (c'.work (t :: rest)) =
        (r, { compiler := c', cursor }) := by
      intro c'
      have hnext : (c'.work (t :: rest)).cursor.next? = some (t.word, ⟨t.tail, rest⟩) := rfl
      rw [Compile.exec_statement hnext, hdispatch]
      exact hr c'
    have hresult : r = .ok (.inclusion name) := (congrArg Prod.fst (hexec c)).symm.trans h
    refine ⟨⟨t, rest, rfl, hcommand⟩, fun c' => ⟨?_, ?_, ?_⟩⟩
    · exact (congrArg Prod.fst (hexec c')).trans hresult
    · exact congrArg (fun p => p.2.compiler) (hexec c')
    · exact congrArg (fun p => p.2.notes) (hexec c')

/-- The file that a statement includes, which its words alone decide. -/
def Build.included? (s : Statement) : Option String :=
  match s.tokens with
  | .ok (t :: ts) =>
    if t.tail.command then
      match (({} : Compiler).compile (t :: ts)).result with
      | .ok (.inclusion name) => some name
      | _ => none
    else none
  | _ => none

theorem included?_eq_some {s : Statement} {name : String} : Build.included? s = some name ↔
    ∃ ts, s.tokens = .ok ts ∧ (({} : Compiler).compile ts).result = .ok (.inclusion name) := by
  unfold Build.included?
  split
  · next t ts hts =>
    constructor
    · intro h
      split at h
      · split at h
        · next hr =>
          cases h
          exact ⟨_, hts, hr⟩
        · cases h
      · cases h
    · rintro ⟨_, hts', hr⟩
      cases hts.symm.trans hts'
      obtain ⟨⟨_, _, ⟨⟩, hcommand⟩, _⟩ := compile_inclusion hr
      rw [if_pos hcommand, hr]
  · next hne =>
    refine iff_of_false (fun h => nomatch h) ?_
    rintro ⟨ts, hts, hr⟩
    obtain ⟨⟨t, rest, rfl, _⟩, _⟩ := compile_inclusion hr
    exact hne t rest hts

theorem step_of_included? {s : Statement} {name : String} (h : Build.included? s = some name)
    (c : Compiler) : c.step s = (⟨.ok (.inclusion name), s.line, s.indent, []⟩, c) := by
  obtain ⟨ts, hts, hr⟩ := included?_eq_some.mp h
  obtain ⟨hresult, hcompiler, hnotes⟩ := (compile_inclusion hr).2 c
  rw [Compiler.step_of_tokens hts, hresult, hcompiler, hnotes]
  rfl

theorem included?_of_step {s : Statement} {name : String} {c : Compiler}
    (h : (c.step s).1.result = .ok (.inclusion name)) : Build.included? s = some name := by
  cases hts : s.tokens with
  | error f =>
    rw [Compiler.step_of_fault hts] at h
    cases h
  | ok ts =>
    rw [Compiler.step_of_tokens hts] at h
    refine included?_eq_some.mpr ⟨ts, hts, ?_⟩
    match hr : (c.compile ts).result with
    | .error f =>
      simp only [hr] at h
      cases h
    | .ok (.lines ls) =>
      simp only [hr] at h
      cases h
    | .ok .verbatim =>
      simp only [hr] at h
      cases h
    | .ok (.inclusion path) =>
      simp only [hr] at h
      cases h
      exact ((compile_inclusion hr).2 {}).1

/-- Compiling a statement that includes a file gives its own text and does nothing else. -/
theorem attempt_of_included? {s : Statement} {name : String} (h : Build.included? s = some name)
    (c : Compiler) : c.attempt s = { texts := [s.text], compiler := c } := by
  rw [Compiler.attempt, step_of_included? h]
  rfl

end InstallScript
