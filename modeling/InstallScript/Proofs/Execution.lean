import Mathlib.Algebra.Order.BigOperators.Group.List
import Mathlib.Algebra.Order.Group.Nat
import InstallScript.Proofs.Trees

/-!
Straight lines at work. Compiled statements without calls of functions, jumps and message boxes copy
values, clear the error flag and perform primitives, each of which makes of the values of its arguments
what it likes. `Platform.run?` executes such lines; what they do to a variable that an operand does not
read is of no account to the operand (`Operand.eval_congr`), and what they do to one that it reads is,
for some values (`Operand.eval_update_iff`).
-/

namespace InstallScript

/-! ## Platforms -/

/-- What a primitive makes of the values of its arguments. -/
structure Effect where
  result : String
  fails : Bool

/-- What the target language adds: how it reads a text inside of a string, and what primitives do. Only
a dollar sign makes a text mean anything but itself. -/
structure Platform where
  read : String → (Variable → String) → String
  read_of_not_mem : ∀ s σ, '$' ∉ s.toList → read s σ = s
  perform : Primitive → List String → Effect

/-- A platform that reads string by string what the compiler has put together, so that each text stands
for itself. -/
def Platform.literal (perform : Primitive → List String → Effect) : Platform where
  read s _ := s
  read_of_not_mem _ _ _ := rfl
  perform := perform

/-- The values of the variables, and the error flag. -/
structure Memory where
  values : Variable → String
  errors : Bool

def Memory.set (μ : Memory) (v : Variable) (s : String) : Memory :=
  { μ with values := Function.update μ.values v s }

def Piece.eval (m : Platform) (σ : Variable → String) : Piece → String
  | text s => m.read s σ
  | value v => σ v

/-- The value of an operand where the variables have the values `σ`. -/
def Operand.eval (m : Platform) (σ : Variable → String) (x : Operand) : String :=
  String.join (x.pieces.map (Piece.eval m σ))

/-! ### Primitives -/

/-- All primitives that can be called. -/
def Catalogue.commands : List Command := instructions ++ headers

/-- The place of the variable that a primitive writes to among its operands. -/
def Primitive.slot? (p : Primitive) : Option Nat :=
  ((Catalogue.commands.find? (·.primitive = p)).filter Command.hasSlot).map Command.slot

/-- The operands that a primitive reads, and the variable that it writes to. -/
def Primitive.split (p : Primitive) (ops : List Operand) : List Operand × Option Variable :=
  match p.slot? with
  | none => (ops, none)
  | some i =>
    match ops[i]? with
    | some (.var v) => (ops.take i ++ ops.drop (i + 1), some v)
    | _ => (ops, none)

/-! ### Lines -/

namespace Platform

/-- Performs a primitive. One that fails sets the error flag, and none clears it. -/
def performed (m : Platform) (p : Primitive) (ops : List Operand) (μ : Memory) : Memory :=
  let effect := m.perform p ((p.split ops).1.map (·.eval m μ.values))
  { values := (p.split ops).2.elim μ.values fun v => Function.update μ.values v effect.result
    errors := μ.errors || effect.fails }

/-- Executes an instruction, unless it leaves the straight line. -/
def exec? (m : Platform) : Instr → Memory → Option Memory
  | .declare _, μ => some μ
  | .copy v x, μ => some (μ.set v (x.eval m μ.values))
  | .copyUnlessErrors v x, μ => some (if μ.errors then μ else μ.set v (x.eval m μ.values))
  | .clearErrors, μ => some { μ with errors := false }
  | .perform p ops, μ => some (m.performed p ops μ)
  | _, _ => none

/-- Executes instructions one after the other. -/
def run? (m : Platform) : List Instr → Memory → Option Memory
  | [], μ => some μ
  | i :: is, μ => (m.exec? i μ).bind (m.run? is)

theorem run?_append (m : Platform) (is js : List Instr) (μ : Memory) :
    m.run? (is ++ js) μ = (m.run? is μ).bind (m.run? js) := by
  induction is generalizing μ with
  | nil => rfl
  | cons i is ih =>
    rw [List.cons_append, run?, run?, Option.bind_assoc]
    exact congrArg _ (funext ih)

end Platform

/-- Declarations do nothing. -/
theorem Platform.run?_actions (m : Platform) (ls : List Line) (μ : Memory) :
    m.run? (ls.map Line.instr) μ = m.run? (actions ls) μ := by
  unfold actions
  induction ls.map Line.instr generalizing μ with
  | nil => rfl
  | cons i is ih =>
    by_cases hi : i.declared?.isNone = true
    · rw [List.filter_cons, if_pos hi, run?, run?]
      exact congrArg _ (funext ih)
    · rw [List.filter_cons, if_neg hi, run?, ← ih]
      cases i with
      | declare v => rfl
      | _ => exact absurd rfl hi

/-! ## Values -/

namespace Operand

variable {m : Platform} {perform : Primitive → List String → Effect} {σ τ : Variable → String}
  {x y : Operand} {v : Variable}

theorem mem_vars : v ∈ x.vars ↔ .value v ∈ x.pieces := by
  rw [Compile.vars_eq_pieces, List.mem_filterMap]
  constructor
  · rintro ⟨_ | u, hp, he⟩
    · cases he
    · cases he
      exact hp
  · exact fun hp => ⟨_, hp, rfl⟩

theorem eval_var (v : Variable) : (var v).eval m σ = σ v :=
  String.join_cons.trans String.append_empty

theorem eval_join (x y : Operand) : (x.join y).eval m σ = x.eval m σ ++ y.eval m σ := by
  rw [eval, eval, eval, ← String.join_append, ← List.map_append]
  rfl

/-- A text in which nothing is read means itself. -/
theorem eval_literal {t : String} (h : '$' ∉ (Text.unquote t).toList) :
    (literal t).eval m σ = Text.unquote t :=
  String.join_cons.trans (String.append_empty.trans (m.read_of_not_mem _ σ h))

/-- Only the variables that an operand reads count. -/
theorem eval_congr (h : ∀ v ∈ x.vars, σ v = τ v) :
    x.eval (.literal perform) σ = x.eval (.literal perform) τ := by
  refine congrArg String.join (List.map_congr_left fun p hp => ?_)
  cases p with
  | text s => rfl
  | value v => exact h v (mem_vars.mpr hp)

/-- A variable that is read counts, for some values of the variables. -/
theorem eval_update_iff : (∀ σ, x.eval (.literal perform) (Function.update σ v "1") =
    x.eval (.literal perform) σ) ↔ v ∉ x.vars := by
  constructor
  · intro h hv
    -- where all variables are empty, the value gets longer by each time the variable is read
    have hlength : ∀ σ, (x.eval (.literal perform) σ).length =
        (x.pieces.map fun p => (p.eval (.literal perform) σ).length).sum := by
      intro σ
      rw [eval, ← String.length_toList, String.toList_join, List.length_flatMap, List.map_map]
      rfl
    have hlt : (x.eval (.literal perform) fun _ => "").length <
        (x.eval (.literal perform) (Function.update (fun _ => "") v "1")).length := by
      rw [hlength, hlength]
      refine List.sum_lt_sum _ _ (fun p _ => ?_) ⟨_, mem_vars.mp hv, ?_⟩
      · cases p with
        | text s => exact Nat.le_refl _
        | value u => exact Nat.zero_le _
      · rw [Piece.eval, Piece.eval, Function.update_self]
        decide
    rw [h] at hlt
    exact Nat.lt_irrefl _ hlt
  · intro hv σ
    refine eval_congr fun u hu => Function.update_of_ne ?_ _ _
    rintro rfl
    exact hv hu

end Operand

/-! ## Commands -/

namespace Catalogue

theorem slot?_of_mem {k : Command} (hk : k ∈ commands) :
    k.primitive.slot? = if k.hasSlot then some k.slot else none := by
  have hall : ∀ k ∈ commands, k.primitive.slot? = if k.hasSlot then some k.slot else none := by
    decide
  exact hall k hk

/-- The result of a command stands behind arguments that cannot be left out. -/
theorem slot_le_least {k : Command} (hk : k ∈ commands) : k.slot ≤ k.least := by
  have hall : ∀ k ∈ commands, k.slot ≤ k.least := by decide
  exact hall k hk

end Catalogue

namespace Command

variable {k : Command} {xs : List Operand} {v : Variable} {m : Platform}

/-- The result that a call of a command gives. -/
def result (k : Command) (e : Effect) : String :=
  if k.convention = .errorFlag then if e.fails then "1" else "0" else e.result

/-- A primitive with a place for its result reads the arguments and writes the variable in that
place. -/
theorem split_spliced (hk : k ∈ Catalogue.commands) (hs : k.hasSlot) (hx : k.slot ≤ xs.length) :
    k.primitive.split (xs.take k.slot ++ [.var v] ++ xs.drop k.slot) = (xs, some v) := by
  have hlen : (xs.take k.slot).length = k.slot := List.length_take_of_le hx
  have hget : (xs.take k.slot ++ [.var v] ++ xs.drop k.slot)[k.slot]? = some (.var v) := by
    rw [List.append_assoc, List.getElem?_append_right (Nat.le_of_eq hlen), hlen, Nat.sub_self]
    rfl
  unfold Primitive.split
  rw [Catalogue.slot?_of_mem hk, if_pos hs]
  dsimp only
  rw [hget]
  dsimp only
  rw [List.append_assoc, List.take_left' hlen, List.singleton_append]
  have hdrop : (xs.take k.slot ++ .var v :: xs.drop k.slot).drop (k.slot + 1) = xs.drop k.slot := by
    rw [← List.drop_drop, List.drop_left' hlen]
    rfl
  rw [hdrop, List.take_append_drop]

theorem split_of_not_hasSlot (hk : k ∈ Catalogue.commands) (hs : k.hasSlot = false) :
    k.primitive.split xs = (xs, none) := by
  unfold Primitive.split
  rw [Catalogue.slot?_of_mem hk, hs]
  rfl

theorem performed_spliced (hk : k ∈ Catalogue.commands) (hs : k.hasSlot) (hx : k.slot ≤ xs.length)
    (μ : Memory) : m.performed k.primitive (xs.take k.slot ++ [.var v] ++ xs.drop k.slot) μ =
      let e := m.perform k.primitive (xs.map (·.eval m μ.values))
      ⟨Function.update μ.values v e.result, μ.errors || e.fails⟩ := by
  unfold Platform.performed
  rw [split_spliced hk hs hx]
  rfl

/-- The lines of a call by error flag give the result that the primitive has where the variable for
the result is 1 already. -/
theorem run?_errorFlag (hk : k ∈ Catalogue.commands) (hc : k.convention = .errorFlag) (m : Platform)
    (xs : List Operand) (v : Variable) (μ : Memory) :
    let e := m.perform k.primitive (xs.map (·.eval m (Function.update μ.values v "1")))
    m.run? [.copy v (.ofInt 1), .clearErrors, .perform k.primitive xs, .copyUnlessErrors v (.ofInt 0)] μ =
      some ⟨Function.update μ.values v (k.result e), e.fails⟩ := by
  intro e
  have hslot : k.hasSlot = false := by simp [hasSlot, hc]
  have hone : ∀ σ, (Operand.ofInt 1).eval m σ = "1" := fun σ => Operand.eval_literal (by decide)
  have hzero : ∀ σ, (Operand.ofInt 0).eval m σ = "0" := fun σ => Operand.eval_literal (by decide)
  have hperformed : m.performed k.primitive xs ⟨Function.update μ.values v "1", false⟩ =
      ⟨Function.update μ.values v "1", e.fails⟩ := by
    unfold Platform.performed
    rw [split_of_not_hasSlot hk hslot]
    rfl
  simp only [Platform.run?, Platform.exec?, Option.bind_some, Memory.set, hone, hzero, hperformed,
    result, hc, if_true]
  cases he : e.fails with
  | true => rfl
  | false => simp [Function.update_idem]

/-- The lines of a call do what the primitive does, if a call by error flag does not read the variable
for its result. -/
theorem run?_block (perform : Primitive → List String → Effect) (hk : k ∈ Catalogue.commands)
    (hv : k.convention ≠ .void) (hx : k.slot ≤ xs.length) (hr : ∀ x ∈ xs, v ∉ x.vars) (μ : Memory) :
    ∃ errors, (Platform.literal perform).run? ((Callee.command k).block xs v) μ =
      some ⟨Function.update μ.values v
        (k.result (perform k.primitive (xs.map (·.eval (.literal perform) μ.values)))), errors⟩ := by
  by_cases hc : k.convention = .errorFlag
  · have hblock : (Callee.command k).block xs v = [.copy v (.ofInt 1), .clearErrors,
        .perform k.primitive xs, .copyUnlessErrors v (.ofInt 0)] := if_pos hc
    have hmet : xs.map (·.eval (.literal perform) (Function.update μ.values v "1")) =
        xs.map (·.eval (.literal perform) μ.values) :=
      List.map_congr_left fun x hx => Operand.eval_update_iff.mpr (hr x hx) _
    have hrun := run?_errorFlag hk hc (.literal perform) xs v μ
    rw [hmet] at hrun
    rw [hblock]
    exact ⟨_, hrun⟩
  · have hs : k.hasSlot := by
      unfold hasSlot
      cases h : k.convention with
      | void => exact absurd h hv
      | errorFlag => exact absurd h hc
      | optional | required => rfl
    have hblock : (Callee.command k).block xs v =
        [.perform k.primitive (xs.take k.slot ++ [.var v] ++ xs.drop k.slot)] := if_neg hc
    rw [hblock, Platform.run?, Platform.exec?, performed_spliced hk hs hx, result, if_neg hc]
    exact ⟨_, rfl⟩

end Command

end InstallScript
