import InstallScript.Proofs.Resolving

/-!
Local variables stay in their function. A statement registers variables, and looks words up, globally
or in the function it stands in; and where nothing is wrong, the statements that stand in a function
are those from its beginning to its end.

* `Turn`: the statements that begin a function, return from it, or end it.
* `Compiler.scope_of_registered`: where a statement registers variables.
* `Compiler.turned`: in which function the compiler is after a statement that is right.
* `locals_stay_in_function`: all of it over every run.
-/

namespace InstallScript

/-! ## Turns -/

/-- What a statement does with the function it stands in. -/
inductive Turn
  | begins (name : String)
  | returns
  | ends
deriving DecidableEq, Repr

/-- The turn that a statement of these words takes. -/
def turn? : List Token → Option Turn
  | [] => none
  | t :: ts =>
    if t.isPlain then
      match t.word.name with
      | "function" => ts.head?.map fun u => .begins u.word.name
      | "return" => some .returns
      | "functionend" => some .ends
      | _ => none
    else none

def Statement.turn? (s : Statement) : Option Turn := s.tokens.toOption.bind InstallScript.turn?

/-- The turns of statements in order. -/
def turns (ss : List Statement) : List Turn := ss.filterMap Statement.turn?

/-- The functions that statements begin. -/
def Turn.opened? : Turn → Option String
  | begins name => some name
  | returns | ends => none

/-- Turns that begin and end functions by turns, and return from none that has not begun. The first
argument is the function that is open before; the last one may stay open. -/
inductive Alternate : Option String → List Turn → Prop
  | nil {f : Option String} : Alternate f []
  | begins {f : String} {ts : List Turn} : Alternate (some f) ts → Alternate none (.begins f :: ts)
  | returns {f : String} {ts : List Turn} : Alternate (some f) ts → Alternate (some f) (.returns :: ts)
  | ends {f : String} {ts : List Turn} : Alternate none ts → Alternate (some f) (.ends :: ts)

/-! ## Where variables are registered -/

namespace Compile

variable {p : Phase} {w w' : Work}

/-- A variable is registered globally or in the function at hand. -/
theorem Step.scope_of_registered (h : Step p w w') {v : Variable} (hv : v ∈ w'.declarations.vars) :
    v ∈ w.declarations.vars ∨ v.scope = .global ∨ v.scope = w.compiler.scope := by
  have hnew : ∀ {u}, v ∈ u :: w.declarations.vars → u.scope = .global ∨ u.scope = w.compiler.scope →
      v ∈ w.declarations.vars ∨ v.scope = .global ∨ v.scope = w.compiler.scope := by
    intro u hm hu
    rcases List.mem_cons.mp hm with rfl | hm
    · exact .inr hu
    · exact .inl hm
  cases h with
  | pass hc _ =>
    rw [Work.declarations, hc] at hv
    exact .inl hv
  | write | call | generate | introduce | ended | opened => exact .inl hv
  | temporary | named => exact hnew hv (.inr rfl)
  | register | discarded => exact hnew hv (.inl rfl)
  | record =>
    rw [Work.withDeclarations, Work.declarations, Declarations.vars_recordCall] at hv
    exact .inl hv
  | returns =>
    rw [Work.withDeclarations, Work.declarations, Declarations.vars_modifyFunction] at hv
    exact .inl hv
  | begun _ _ hd =>
    obtain ⟨_, -, rfl, -⟩ := Declarations.declareFunction_eq_ok hd
    exact .inl hv
  | param _ hc =>
    rw [Work.withDeclarations, Work.declarations, Declarations.vars_modifyFunction] at hv
    refine hnew hv (.inr ?_)
    rw [Compiler.scope, hc]
    rfl

/-- Of the function at hand only an end can be made, unless one is begun. -/
theorem Step.current_or (h : Step p w w') (hp : p = .body ∨ w.compiler.current.isSome) :
    w'.compiler.current = w.compiler.current ∨ p = .body ∧ w'.compiler.current = none := by
  cases h with
  | pass hc _ => exact .inl (by rw [hc])
  | write | call | generate | temporary | register | discarded | introduce | record | named | returns
  | param | opened => exact .inl rfl
  | ended hb => exact .inr ⟨hb, rfl⟩
  | begun hh hc =>
    rw [hh, hc] at hp
    simp at hp

theorem Reach.scope_of_registered (h : Reach p w w') (hp : p = .body ∨ w.compiler.current.isSome) :
    (w'.compiler.current = w.compiler.current ∨ p = .body ∧ w'.compiler.current = none) ∧
      ∀ v ∈ w'.declarations.vars,
        v ∈ w.declarations.vars ∨ v.scope = .global ∨ v.scope = w.compiler.scope := by
  induction h with
  | refl => exact ⟨.inl rfl, fun v hv => .inl hv⟩
  | @tail w₁ w₂ _ hstep ih =>
    obtain ⟨hcur, hvars⟩ := ih
    have hp₁ : p = .body ∨ w₁.compiler.current.isSome := by
      rcases hcur with hcur | ⟨hb, -⟩
      · rw [hcur]
        exact hp
      · exact .inl hb
    refine ⟨?_, fun v hv => ?_⟩
    · rcases hstep.current_or hp₁ with h | h
      · rw [h]
        exact hcur
      · exact .inr h
    · rcases hstep.scope_of_registered hv with h | h | h
      · exact hvars v h
      · exact .inr (.inl h)
      · rw [Compiler.scope] at h
        rcases hcur with hcur | ⟨-, hcur⟩
        · rw [hcur] at h
          exact .inr (.inr h)
        · rw [hcur] at h
          exact .inr (.inl h)

end Compile

namespace Compiler

variable {c : Compiler} {ts : List Token}

/-- The function that the statement stands in, or begins. -/
def during (c : Compiler) (ts : List Token) : Option String :=
  c.current.or (c.compile ts).compiler.current

theorem scope_of_registered (hs : c.Sound) {v : Variable}
    (hv : v ∈ (c.compile ts).compiler.declarations.vars) :
    v ∈ c.declarations.vars ∨ v.scope = .global ∨ v.scope = .ofFunction (c.during ts) := by
  rw [during, compiler_compile]
  rw [compiler_compile] at hv
  rcases Compile.reach_statement hs ts with h | ⟨_, _, f, _, -, hc, hf, h⟩
  · obtain ⟨hcur, hvars⟩ := h.scope_of_registered (.inl rfl)
    refine (hvars v hv).imp_right (Or.imp_right fun h => h.trans ?_)
    show Scope.ofFunction c.current = _
    have hcur' : (Compile.exec Compile.statement (c.work ts)).2.compiler.current = c.current ∨ _ := hcur
    rcases hcur' with hcur | ⟨-, hcur⟩ <;> rw [hcur] <;> cases c.current <;> rfl
  · obtain ⟨_, -, rfl, -⟩ := Declarations.declareFunction_eq_ok hf
    obtain ⟨hcur, hvars⟩ := h.scope_of_registered (.inr rfl)
    refine (hvars v hv).imp_right (Or.imp_right fun h => h.trans ?_)
    rcases hcur with hcur | ⟨hp, -⟩
    · rw [hc, hcur]
      rfl
    · cases hp

/-! ## Statements that are right -/

/-- How the function that is open changes by the turn that a statement takes. -/
inductive Turned (c next : Compiler) : Option Turn → Prop
  | stays (h : next.current = c.current) : Turned c next none
  | begins {name : String} (hc : c.current = none) (hn : next.current = some name)
      (hfree : ∀ f, c.declarations.callee? name ≠ some (.function f))
      (hf : ∃ f, next.declarations.callee? name = some (.function f)) :
      Turned c next (some (.begins name))
  | returns {name : String} (hc : c.current = some name) (hn : next.current = some name) :
      Turned c next (some .returns)
  | ends {name : String} (hc : c.current = some name) (hn : next.current = none) :
      Turned c next (some .ends)

end Compiler

namespace Compile

variable {w : Work}

theorem functionReturn_ok (h : (exec functionReturn w).1 = .ok ()) :
    ∃ name, w.compiler.current = some name := by
  cases hc : w.compiler.current with
  | some name => exact ⟨name, rfl⟩
  | none =>
    have he : exec functionReturn w = (.error .returnOutsideFunction, w) := by
      unfold functionReturn
      rw [exec_bind_ok (exec_current w), hc]
      rfl
    rw [he] at h
    cases h

theorem functionEnd_ok (h : (exec functionEnd w).1 = .ok ()) :
    (∃ name, w.compiler.current = some name) ∧ (exec functionEnd w).2.compiler.current = none := by
  cases hc : w.compiler.current with
  | none =>
    have he : exec functionEnd w = (.error .endOutsideFunction, w) := by
      unfold functionEnd
      rw [exec_bind_ok (exec_current w), hc]
      rfl
    rw [he] at h
    cases h
  | some name =>
    refine ⟨⟨name, rfl⟩, ?_⟩
    unfold functionEnd
    rw [exec_bind_ok (exec_current w), hc]
    rfl

/-- A header that is right opens the function of its name, which was none before. -/
theorem functionBegin_ok (hs : w.compiler.Sound) (h : (exec functionBegin w).1 = .ok ()) :
    ∃ word cursor, w.cursor.next? = some (word, cursor) ∧
      Compiler.Turned w.compiler (exec functionBegin w).2.compiler (some (.begins word.name)) := by
  rcases functionBegin_cases hs with ⟨e, cursor, he⟩ | ⟨word, cursor, f, d, hc, hnext, hd, hreach⟩
  · rw [he] at h
    cases h
  · obtain ⟨earlier, rfl, rfl, hfree⟩ := Declarations.declareFunction_eq_ok hd
    obtain ⟨hcur, params, hcal⟩ :=
      hreach.headed rfl (Declarations.callee?_putCallee.trans (if_pos rfl))
    refine ⟨word, cursor, hnext, .begins hc hcur (fun g hg => ?_) ⟨_, (hcal _).trans (if_pos rfl)⟩⟩
    rcases hfree with ⟨hn, -⟩ | ⟨q, hq, -⟩
    · rw [hn] at hg
      cases hg
    · rw [hq] at hg
      cases hg

/-- The construct that a turn is compiled by. -/
theorem dispatch_of_turn {t : Token} (hp : t.isPlain = true) :
    (t.word.name = "function" → dispatch t.word t.tail = written functionBegin) ∧
      (t.word.name = "return" → dispatch t.word t.tail = written functionReturn) ∧
      (t.word.name = "functionend" → dispatch t.word t.tail = written functionEnd) := by
  simp only [Token.isPlain, Bool.and_eq_true, Bool.not_eq_true'] at hp
  refine ⟨fun h => ?_, fun h => ?_, fun h => ?_⟩ <;> simp only [dispatch, hp, h] <;> rfl

theorem turned_dispatch {t : Token} {r : Compiled} (hs : w.compiler.Sound)
    (hr : (exec (dispatch t.word t.tail) w).1 = .ok r) :
    Compiler.Turned w.compiler (exec (dispatch t.word t.tail) w).2.compiler
      (turn? (t :: w.cursor.ahead)) := by
  have hwritten : ∀ {act : Compile Unit}, dispatch t.word t.tail = written act →
      (exec act w).1 = .ok () := by
    intro act hact
    rw [hact, exec_written] at hr
    cases he : (exec act w).1 with
    | ok => rfl
    | error e =>
      simp only [he] at hr
      cases hr
  have hstays : (t.isPlain = true → t.word.name ≠ "function" ∧ t.word.name ≠ "functionend") →
      (exec (dispatch t.word t.tail) w).2.compiler.current = w.compiler.current :=
    fun h => ((Resolving.follows_dispatch h).stays w).current
  have hturn : turn? (t :: w.cursor.ahead) = if t.isPlain then _ else none := rfl
  rw [hturn]
  by_cases hp : t.isPlain = true
  · obtain ⟨hbegin, hreturn, hend⟩ := dispatch_of_turn hp
    rw [if_pos hp]
    split
    · next hn =>
      obtain ⟨word, cursor, hnext, hturned⟩ := functionBegin_ok hs (hwritten (hbegin hn))
      rw [hbegin hn, exec_written]
      cases ha : w.cursor.ahead with
      | nil =>
        rw [Cursor.next?, ha] at hnext
        cases hnext
      | cons u us =>
        rw [Cursor.next?, ha] at hnext
        cases hnext
        exact hturned
    · next hn =>
      obtain ⟨name, hc⟩ := functionReturn_ok (hwritten (hreturn hn))
      exact .returns hc ((hstays fun _ => by simp [hn]).trans hc)
    · next hn =>
      obtain ⟨⟨name, hc⟩, hnone⟩ := functionEnd_ok (hwritten (hend hn))
      rw [hend hn, exec_written]
      exact .ends hc hnone
    · next hbegin' _ hend' => exact .stays (hstays fun _ => ⟨hbegin', hend'⟩)
  · rw [if_neg hp]
    exact .stays (hstays fun h => absurd h hp)

end Compile

namespace Compiler

variable {c : Compiler} {ts : List Token}

theorem turned (hs : c.Sound) {r : Compiled} (hr : (c.compile ts).result = .ok r) :
    Turned c (c.compile ts).compiler (turn? ts) := by
  have hok : (Compile.exec Compile.statement (c.work ts)).1 = .ok r := hr
  rw [compiler_compile]
  cases ts with
  | nil =>
    rw [Compile.exec_statement_of_none rfl]
    exact .stays rfl
  | cons t rest =>
    have hnext : (c.work (t :: rest)).cursor.next? = some (t.word, ⟨t.tail, rest⟩) := rfl
    rw [Compile.exec_statement hnext] at hok ⊢
    exact Compile.turned_dispatch (t := t) (w := { c.work (t :: rest) with cursor := ⟨t.tail, rest⟩ })
      hs hok

/-! ## Runs without a fault -/

variable {s : Statement} {ss : List Statement}

theorem sound_step (hs : c.Sound) (s : Statement) : (c.step s).2.Sound :=
  steps_induction (P := Sound) (fun _ ts h => sound_compile h ts) hs [s]

theorem turned_step (hs : c.Sound) (h : (c.step s).1.result.isOk) :
    Turned c (c.step s).2 s.turn? := by
  obtain ⟨ts, r, hts, hr⟩ := compiles_of_step h
  rw [step_of_tokens hts, Statement.turn?, hts]
  exact turned hs hr

theorem alternate_turns (hs : c.Sound) (hc : c.Clean ss) : Alternate c.current (turns ss) := by
  induction ss generalizing c with
  | nil => exact .nil
  | cons s ss ih =>
    obtain ⟨hok, hrest⟩ := clean_cons.mp hc
    have halt := ih (sound_step hs s) hrest
    have hturned := turned_step hs hok
    rw [turns, List.filterMap_cons]
    generalize s.turn? = turn at hturned
    cases hturned with
    | stays h =>
      rw [h] at halt
      exact halt
    | begins hc hn =>
      rw [hn] at halt
      rw [hc]
      exact .begins halt
    | returns hc hn =>
      rw [hn] at halt
      rw [hc]
      exact .returns halt
    | ends hc hn =>
      rw [hn] at halt
      rw [hc]
      exact .ends halt

/-- What is a function stays one. -/
theorem function_step (hs : c.Sound) {name : String} {f : Function}
    (hf : c.declarations.callee? name = some (.function f)) (s : Statement) :
    ∃ g, (c.step s).2.declarations.callee? name = some (.function g) := by
  cases hts : s.tokens with
  | error e =>
    rw [step_of_fault hts]
    exact ⟨f, hf⟩
  | ok ts =>
    rw [step_of_tokens hts]
    rcases callee?_compile hs ts name with h | ⟨-, g, hg, -⟩
    · rw [hf] at h
      generalize hcal : (c.compile ts).compiler.declarations.callee? name = callee at h
      cases h
      exact ⟨_, rfl⟩
    · exact ⟨g, hg⟩

theorem nodup_opened (hs : c.Sound) (hc : c.Clean ss) :
    ((turns ss).filterMap Turn.opened?).Nodup ∧
      ∀ name ∈ (turns ss).filterMap Turn.opened?, ∀ f,
        c.declarations.callee? name ≠ some (.function f) := by
  induction ss generalizing c with
  | nil => exact ⟨List.nodup_nil, fun name hn => absurd hn List.not_mem_nil⟩
  | cons s ss ih =>
    obtain ⟨hok, hrest⟩ := clean_cons.mp hc
    obtain ⟨hnodup, hfree⟩ := ih (sound_step hs s) hrest
    have hbefore : ∀ name ∈ (turns ss).filterMap Turn.opened?, ∀ f,
        c.declarations.callee? name ≠ some (.function f) := by
      intro name hn f hf
      obtain ⟨g, hg⟩ := function_step hs hf s
      exact hfree name hn g hg
    have hturned := turned_step hs hok
    rw [turns, List.filterMap_cons]
    generalize s.turn? = turn at hturned
    cases hturned with
    | stays | returns | ends => exact ⟨hnodup, hbefore⟩
    | @begins name _ _ hnone hf =>
      obtain ⟨f, hf⟩ := hf
      refine ⟨List.nodup_cons.mpr ⟨fun hn => hfree name hn f hf, hnodup⟩, fun other ho => ?_⟩
      rcases List.mem_cons.mp ho with rfl | ho
      · exact hnone
      · exact hbefore other ho

/-- A function that is open was open before, or has been begun, and has not been ended since. -/
theorem open_since (hs : c.Sound) (hc : c.Clean ss) {g : String}
    (h : (c.steps ss).2.current = some g) :
    (c.current = some g ∧ ∀ s ∈ ss, s.turn? ≠ some .ends) ∨
      ∃ earlier o later, ss = earlier ++ o :: later ∧ o.turn? = some (.begins g) ∧
        ∀ s ∈ later, s.turn? ≠ some .ends := by
  induction ss generalizing c with
  | nil => exact .inl ⟨h, fun s hs => absurd hs List.not_mem_nil⟩
  | cons s ss ih =>
    obtain ⟨hok, hrest⟩ := clean_cons.mp hc
    rcases ih (sound_step hs s) hrest h with ⟨hg, hno⟩ | ⟨earlier, o, later, rfl, ho, hno⟩
    · have hturned := turned_step hs hok
      generalize hturn : s.turn? = turn at hturned
      have hstill : turn ≠ some .ends → ∀ t ∈ s :: ss, t.turn? ≠ some .ends := by
        intro hne t ht
        rcases List.mem_cons.mp ht with rfl | ht
        · rw [hturn]
          exact hne
        · exact hno t ht
      cases hturned with
      | stays hn => exact .inl ⟨hn.symm.trans hg, hstill (by decide)⟩
      | begins _ hn =>
        cases hn.symm.trans hg
        exact .inr ⟨[], s, ss, rfl, hturn, hno⟩
      | returns hc hn => exact .inl ⟨hc.trans (hn.symm.trans hg), hstill (by decide)⟩
      | ends _ hn => cases hn.symm.trans hg
    · exact .inr ⟨s :: earlier, o, later, rfl, ho, hno⟩

end Compiler

/-! ## All runs -/

/-- What a name means in a function is the local variable of that name, if there is one. -/
theorem Declarations.eq_of_find? {d : Declarations} {name f : String} {u v : Variable}
    (hu : d.find? name (some f) = some u) (hv : d.declared? name (.function f) = some v) : u = v := by
  rw [find?, hv, Option.some_or] at hu
  exact (Option.some.inj hu).symm

/-- The statement, or one before it, begins the function, and none after that ends it. -/
def StandsIn (g : String) (before : List Statement) (s : Statement) : Prop :=
  s.turn? = some (.begins g) ∨
    ∃ earlier o later, before = earlier ++ o :: later ∧ o.turn? = some (.begins g) ∧
      ∀ t ∈ later, t.turn? ≠ some .ends

namespace Compiler

variable {c : Compiler} {ts : List Token}

/-- A word is looked up in the function at hand, in what is declared by then. -/
theorem resolved {r : Resolution} (hr : r ∈ c.resolutions ts) :
    r.inside = c.during ts ∧ r.among.find? r.name (c.during ts) = some r.var ∧
      c.declarations.Extends r.among ∧ r.among.Extends (c.compile ts).compiler.declarations := by
  obtain ⟨hstays, hin, hfound, hbefore, hafter⟩ := (c.exec_resolutions ts).2 r hr
  have hduring : c.during ts = r.inside := by
    rw [during, compiler_compile, hstays, hin]
    exact Option.or_self
  rw [hduring]
  exact ⟨rfl, hfound, hbefore, hafter⟩

/-- In a run without faults a statement stands in a function that has been begun and not been ended. -/
theorem standsIn_of_during {predefined : Bool} {before after : List Statement} {s : Statement}
    {g : String} (hs : s.tokens = .ok ts) (hc : (start predefined).Clean (before ++ s :: after))
    (hg : ((start predefined).steps before).2.during ts = some g) : StandsIn g before s := by
  obtain ⟨hbefore, hlast⟩ := clean_append.mp hc
  rcases Option.or_eq_some_iff.mp hg with hg | ⟨hnone, hg⟩
  · rcases open_since (sound_start predefined) hbefore hg with ⟨h, -⟩ | h
    · cases predefined <;> cases h
    · exact .inr h
  · have hturned := turned_step (sound_steps predefined before) (clean_cons.mp hlast).1
    rw [step_of_tokens hs] at hturned
    generalize hturn : s.turn? = turn at hturned
    cases hturned with
    | stays h => cases hnone.symm.trans (h.symm.trans hg)
    | begins _ hn =>
      cases hn.symm.trans hg
      exact .inl hturn
    | returns hc => cases hnone.symm.trans hc
    | ends hc => cases hnone.symm.trans hc

end Compiler

/-- Local variables never leak from function to function. Whether a statement is right or wrong, it
registers variables globally or in the function `f` at hand, and every word that it looks up means a
variable that is global or local to `f`, the local one if there is one. Where no statement is wrong,
functions begin and end by turns, with returns in between, though the last one may stay open; no
function begins twice; and variables of a function are registered and looked up only by statements
from its beginning to its end. -/
theorem locals_stay_in_function (predefined : Bool) (sources : List String) :
    let start := Compiler.start predefined
    (∀ before s after ts, program sources = before ++ s :: after → s.tokens = .ok ts →
      let c := (start.steps before).2
      let next := (c.compile ts).compiler
      let f := c.during ts
      Resolving.exec Resolving.statement (c.work ts, []) =
        ((Compile.exec Compile.statement (c.work ts)).1,
          ((Compile.exec Compile.statement (c.work ts)).2, c.resolutions ts)) ∧
      (∀ v ∈ next.declarations.vars, v ∉ c.declarations.vars →
        v.scope = .global ∨ v.scope = .ofFunction f) ∧
      ∀ r ∈ c.resolutions ts, r.inside = f ∧ r.among.find? r.name f = some r.var ∧
        c.declarations.Extends r.among ∧ r.among.Extends next.declarations ∧
        (r.var.scope = .global ∨ r.var.scope = .ofFunction f) ∧
        ∀ g v, f = some g → r.among.declared? r.name (.function g) = some v → r.var = v) ∧
    (start.Clean (program sources) →
      Alternate none (turns (program sources)) ∧
      ((turns (program sources)).filterMap Turn.opened?).Nodup ∧
      ∀ before s after ts g v, program sources = before ++ s :: after → s.tokens = .ok ts →
        v.scope = .function g →
        let c := (start.steps before).2
        (v ∈ (c.compile ts).compiler.declarations.vars ∧ v ∉ c.declarations.vars ∨
          ∃ r ∈ c.resolutions ts, r.var = v) → StandsIn g before s) := by
  intro start
  refine ⟨fun before s after ts _ hts => ⟨(Compiler.exec_resolutions _ ts).1, fun v hv hnew => ?_,
    fun r hr => ?_⟩, fun hclean => ?_⟩
  · have hs := Compiler.sound_steps predefined before
    exact (Compiler.scope_of_registered hs hv).resolve_left hnew
  · obtain ⟨hin, hfound, hbefore, hafter⟩ := Compiler.resolved hr
    refine ⟨hin, hfound, hbefore, hafter, (Declarations.mem_of_find? hfound).2.2, fun g v hg hv => ?_⟩
    rw [hg] at hfound
    exact Declarations.eq_of_find? hfound hv
  · have hs := Compiler.sound_start predefined
    have halt := Compiler.alternate_turns hs hclean
    rw [show start.current = none by cases predefined <;> rfl] at halt
    refine ⟨halt, (Compiler.nodup_opened hs hclean).1, ?_⟩
    intro before s after ts g v hprogram hts hv c hused
    have hscope : v.scope = .global ∨ v.scope = .ofFunction (c.during ts) := by
      rcases hused with ⟨hm, hnew⟩ | ⟨r, hr, rfl⟩
      · exact (Compiler.scope_of_registered (Compiler.sound_steps predefined before) hm).resolve_left hnew
      · exact (Declarations.mem_of_find? (Compiler.resolved hr).2.1).2.2
    have hduring : c.during ts = some g := by
      rw [hv] at hscope
      generalize c.during ts = f at hscope
      cases f <;> simp [Scope.ofFunction] at hscope ⊢
      exact hscope.symm
    rw [hprogram] at hclean
    exact Compiler.standsIn_of_during hts hclean hduring

/-- In a function `x` means the parameter and not the variable of the whole script. -/
theorem locals_stay_in_function_of_shadowing :
    let sources := ["x = 1\nFunction f(x)\ny = x\nReturn y\nFunctionEnd"]
    (Compiler.start true).Clean (program sources) ∧
    turns (program sources) = [.begins "f", .returns, .ends] ∧
    Alternate none (turns (program sources)) ∧
    ∃ before s after ts, program sources = before ++ s :: after ∧ s.tokens = .ok ts ∧
      let c := ((Compiler.start true).steps before).2
      (c.declarations.declared? "x" .global).isSome ∧
      (c.resolutions ts).map (·.var) = [⟨"x", .function "f", none⟩] ∧
      StandsIn "f" before s := by
  intro sources
  have hclean : (Compiler.start true).Clean (program sources) := by decide +kernel
  have hthird : (program sources)[2]?.map (·.tokens) =
      some (.ok ((Scan.statement "y = x".toList).toOption.getD [])) := by decide +kernel
  obtain ⟨s, hs, htokens⟩ := Option.map_eq_some_iff.mp hthird
  obtain ⟨hlen, rfl⟩ := List.getElem?_eq_some_iff.mp hs
  have hsplit : program sources =
      (program sources).take 2 ++ (program sources)[2] :: (program sources).drop 3 := by
    rw [← List.drop_eq_getElem_cons hlen, List.take_append_drop]
  have hvars : ((((Compiler.start true).steps ((program sources).take 2)).2.resolutions
      ((Scan.statement "y = x".toList).toOption.getD [])).map (·.var)) =
        [⟨"x", .function "f", none⟩] := by decide +kernel
  obtain ⟨r, hr, hvar⟩ := List.mem_map.mp (hvars ▸ List.mem_singleton.mpr rfl)
  obtain ⟨halt, -, hinside⟩ := (locals_stay_in_function true sources).2 hclean
  exact ⟨hclean, by decide +kernel, halt, _, _, _, _, hsplit, htokens, by decide +kernel, hvars,
    hinside _ _ _ _ "f" _ hsplit htokens rfl (.inr ⟨r, hr, hvar⟩)⟩

/-- A run without faults can leave a function open, so that nothing ends what a return stands in. -/
theorem return_without_end :
    let ss := program ["Function f()\nReturn"]
    (Compiler.start true).Clean ss ∧ turns ss = [.begins "f", .returns] ∧ Turn.ends ∉ turns ss := by
  decide +kernel

end InstallScript
