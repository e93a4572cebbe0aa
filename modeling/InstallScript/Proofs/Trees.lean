import InstallScript.Proofs.DeclaredFirst

/-!
Expressions as trees, with what they should become. A tree is written as words with marks behind them,
and compiled to calls that are made one after the other: those of the arguments come before the call
itself, from left to right, and the result of each is held in a variable of its own.
-/

namespace InstallScript

mutual

/-- A word, or a call with its arguments. -/
inductive Item
  | word (w : Word)
  | call (f : Word) (args : Args)

/-- The arguments of a call. -/
inductive Args
  | none
  | cons (e : Expr) (more : Args)

/-- One item, or several that are joined. -/
inductive Expr
  | single (i : Item)
  | join (i : Item) (e : Expr)

end

def Args.isNone : Args → Bool
  | none => true
  | cons _ _ => false

def Args.length : Args → Nat
  | none => 0
  | cons _ more => more.length + 1

/-- How many items are joined. -/
def Expr.length : Expr → Nat
  | single _ => 1
  | join _ e => e.length + 1

mutual

/-- How many calls there are. -/
def Item.count : Item → Nat
  | .word _ => 0
  | .call _ args => args.count + 1

def Args.count : Args → Nat
  | .none => 0
  | .cons e more => e.count + more.count

def Expr.count : Expr → Nat
  | .single i => i.count
  | .join i e => i.count + e.count

end

/-! ## Words and marks -/

/-- The marks that call for another item. -/
def Tail.joining : Tail := { joins := true }

/-- The marks between two arguments. -/
def Tail.separating : Tail := { separates := true }

/-- The marks of a word that is called. A call without arguments is closed at once. -/
def Tail.calling (args : Args) (after : Tail) : Tail :=
  if args.isNone then { after with opens := true, closes := after.closes + 1 } else { opens := true }

/-- The marks with one more parenthesis in front. -/
def Tail.closing (after : Tail) : Tail := { after with closes := after.closes + 1 }

mutual

/-- The words of an item, the marks `after` behind the last of them. -/
def Item.tokens : Item → Tail → List Token
  | .word w, after => [⟨w, after⟩]
  | .call f args, after => ⟨f, .calling args after⟩ :: args.tokens after.closing

def Args.tokens : Args → Tail → List Token
  | .none, _ => []
  | .cons e more, after => e.tokens (if more.isNone then after else .separating) ++ more.tokens after

def Expr.tokens : Expr → Tail → List Token
  | .single i, after => i.tokens after
  | .join i e, after => i.tokens .joining ++ e.tokens after

end

namespace Item

/-- The first word. -/
def first : Item → Word
  | word w => w
  | call f _ => f

/-- The marks behind the first word. -/
def tail : Item → Tail → Tail
  | word _, after => after
  | call _ args, after => .calling args after

/-- The words behind the first one. -/
def rest : Item → Tail → List Token
  | word _, _ => []
  | call _ args, after => args.tokens after.closing

theorem tokens_eq (i : Item) (after : Tail) :
    i.tokens after = ⟨i.first, i.tail after⟩ :: i.rest after := by
  cases i with
  | word w => rw [tokens]; rfl
  | call f args => rw [tokens]; rfl

end Item

namespace Expr

def first : Expr → Word
  | single i => i.first
  | join i _ => i.first

def tail : Expr → Tail → Tail
  | single i, after => i.tail after
  | join i _, _ => i.tail .joining

def rest : Expr → Tail → List Token
  | single i, after => i.rest after
  | join i e, after => i.rest .joining ++ e.tokens after

theorem tokens_eq (e : Expr) (after : Tail) :
    e.tokens after = ⟨e.first, e.tail after⟩ :: e.rest after := by
  cases e with
  | single i => rw [tokens, i.tokens_eq]; rfl
  | join i e => rw [tokens, i.tokens_eq]; rfl

end Expr

theorem Expr.length_le_tokens : ∀ (e : Expr) (after : Tail), e.length ≤ (e.tokens after).length
  | .single i, after => by
    rw [Expr.tokens, i.tokens_eq, Expr.length, List.length_cons]
    omega
  | .join i e, after => by
    have := e.length_le_tokens after
    rw [Expr.tokens, i.tokens_eq, Expr.length, List.cons_append, List.length_cons, List.length_append]
    omega

theorem Args.length_le_tokens : ∀ (args : Args) (after : Tail),
    args.length ≤ (args.tokens after).length
  | .none, after => Nat.zero_le _
  | .cons e more, after => by
    have := more.length_le_tokens after
    rw [Args.tokens, e.tokens_eq, Args.length, List.cons_append, List.length_cons, List.length_append]
    omega

/-! ## Nesting -/

mutual

/-- How deep calls and expressions are nested when an item is compiled. -/
def Item.depth : Item → Nat
  | .word _ => 0
  | .call _ args => args.depth + 1

def Args.depth : Args → Nat
  | .none => 0
  | .cons e more => max e.depth more.depth

/-- An expression that is more than a word is itself a level. -/
def Expr.depth : Expr → Nat
  | .single (.word _) => 0
  | .single (.call f args) => (Item.call f args).depth + 1
  | .join i e => max i.depth e.inner + 1

/-- The levels of the items alone. -/
def Expr.inner : Expr → Nat
  | .single i => i.depth
  | .join i e => max i.depth e.inner

end

/-! ## Calls -/

/-- What names mean where an expression stands, and the scope of its variables. -/
structure Env where
  look : String → Variable
  scope : Scope

/-- The variable with the `n`-th generated name. -/
def Env.temp (env : Env) (n : Nat) : Variable := ⟨Names.generated n, env.scope, none⟩

/-- A call whose arguments have been compiled. -/
structure Call where
  callee : Word
  args : List Operand
  result : Variable

/-- The operand that an item becomes when `n` names have been generated before. -/
def Item.operand (env : Env) (n : Nat) : Item → Operand
  | word w => if w.isName then .var (env.look w.name) else .ofWord w
  | call _ _ => .var (env.temp (n + 1))

def Expr.operand (env : Env) : Expr → Nat → Operand
  | single i, n => i.operand env n
  | join i e, n => (i.operand env n).join (e.operand env (n + i.count))

def Args.operands (env : Env) : Args → Nat → List Operand
  | none, _ => []
  | cons e more, n => e.operand env n :: more.operands env (n + e.count)

/-! ### Arguments as they are written -/

/-- An item as part of a string. -/
def Item.bare (env : Env) (n : Nat) : Item → String
  | word w => if w.isName then (env.look w.name).value else w.bare
  | call _ _ => (env.temp (n + 1)).value

def Expr.bare (env : Env) : Expr → Nat → String
  | single i, n => i.bare env n
  | join i e, n => i.bare env n ++ e.bare env (n + i.count)

/-- An expression as an argument: a literal as it stands in the source, the value of a variable, or one
string for several items. -/
def Expr.text (env : Env) (n : Nat) : Expr → String
  | single (.word w) => if w.isName then (env.look w.name).value else w.text
  | single (.call _ _) => (env.temp (n + 1)).value
  | join i e => Text.quote ((join i e).bare env n)

theorem Operand.bare_join (x y : Operand) : (x.join y).bare = x.bare ++ y.bare := by
  rw [bare, bare, bare, ← String.join_append, ← List.map_append]
  rfl

theorem Item.bare_operand (env : Env) (n : Nat) (i : Item) :
    (i.operand env n).bare = i.bare env n := by
  cases i with
  | word w =>
    rw [operand, bare]
    split <;> exact String.join_cons.trans (String.append_empty)
  | call f args => exact String.join_cons.trans (String.append_empty)

theorem Expr.bare_operand (env : Env) : ∀ (e : Expr) (n : Nat), (e.operand env n).bare = e.bare env n
  | single i, n => i.bare_operand env n
  | join i e, n => by
    rw [operand, bare, Operand.bare_join, i.bare_operand, e.bare_operand env]

theorem Expr.write_operand (env : Env) (n : Nat) (e : Expr) :
    (e.operand env n).write = e.text env n := by
  match e with
  | single (.word w) =>
    rw [operand, Item.operand, text]
    split <;> rfl
  | single (.call f args) => rfl
  | join i e => exact congrArg Text.quote ((join i e).bare_operand env n)

mutual

/-- The calls of an item in the order they are made. The variable for a result is taken before the
arguments are compiled, so that it has a smaller number than theirs. -/
def Item.calls (env : Env) : Item → Nat → List Call
  | .word _, _ => []
  | .call f args, n => args.calls env (n + 1) ++ [⟨f, args.operands env (n + 1), env.temp (n + 1)⟩]

def Args.calls (env : Env) : Args → Nat → List Call
  | .none, _ => []
  | .cons e more, n => e.calls env n ++ more.calls env (n + e.count)

def Expr.calls (env : Env) : Expr → Nat → List Call
  | .single i, n => i.calls env n
  | .join i e, n => i.calls env n ++ e.calls env (n + i.count)

end

/-- The variables with the `count` generated names that follow the `n`-th. -/
def Env.temps (env : Env) (n count : Nat) : List Variable := (List.range' (n + 1) count).map env.temp

theorem Env.temps_append (env : Env) (n a b : Nat) :
    env.temps n a ++ env.temps (n + a) b = env.temps n (a + b) := by
  rw [temps, temps, temps, ← List.map_append, Nat.add_right_comm, List.range'_append_1]

theorem Env.temps_nodup (env : Env) (n count : Nat) : (env.temps n count).Nodup := by
  have hrange : (List.range' (n + 1) count).Nodup := List.nodup_range' 1
  exact List.pairwise_map.mpr (hrange.imp fun hne he =>
    hne (Names.generated_inj (congrArg Variable.name he)))

mutual

/-- Every call of an item has one of the next generated variables for its result, and each of these is
the result of one call. -/
theorem Item.results_perm (env : Env) : ∀ (i : Item) (n : Nat),
    ((i.calls env n).map Call.result).Perm (env.temps n i.count)
  | .word w, n => by
    rw [Item.calls, Item.count]
    exact .refl _
  | .call f args, n => by
    rw [Item.calls, Item.count, List.map_append, Nat.add_comm args.count 1,
      ← env.temps_append n 1]
    exact (List.perm_append_singleton _ _).trans (.cons _ (args.results_perm env (n + 1)))

theorem Args.results_perm (env : Env) : ∀ (args : Args) (n : Nat),
    ((args.calls env n).map Call.result).Perm (env.temps n args.count)
  | .none, n => by
    rw [Args.calls, Args.count]
    exact .refl _
  | .cons e more, n => by
    rw [Args.calls, Args.count, List.map_append, ← env.temps_append]
    exact (e.results_perm env n).append (more.results_perm env (n + e.count))

theorem Expr.results_perm (env : Env) : ∀ (e : Expr) (n : Nat),
    ((e.calls env n).map Call.result).Perm (env.temps n e.count)
  | .single i, n => by
    rw [Expr.calls, Expr.count]
    exact i.results_perm env n
  | .join i e, n => by
    rw [Expr.calls, Expr.count, List.map_append, ← env.temps_append]
    exact (i.results_perm env n).append (e.results_perm env (n + i.count))

end

/-! ## Lines of calls -/

/-- The instructions of a call whose result goes to `v`. -/
def Callee.block (c : Callee) (args : List Operand) (v : Variable) : List Instr :=
  match c with
  | command k =>
    if k.convention = .errorFlag then
      [.copy v (.ofInt 1), .clearErrors, .perform k.primitive args, .copyUnlessErrors v (.ofInt 0)]
    else [.perform k.primitive (args.take k.slot ++ [.var v] ++ args.drop k.slot)]
  | function f => args.map .push ++ [.call f.label, .copy v (.var Names.returnRegister)]
  | placeholder q => args.map .push ++ [.call q.label, .copy v (.var Names.returnRegister)]
  | messageBox => []

/-- The instructions of a call, with what its callee is found to be. -/
def Declarations.block (d : Declarations) (k : Call) : List Instr :=
  ((d.callee? k.callee.name).map fun c => c.block k.args k.result).getD []

/-- The instructions of lines, declarations left out. -/
def actions (ls : List Line) : List Instr :=
  (ls.map Line.instr).filter fun i => i.declared?.isNone

/-! ## Trees that compile -/

/-- What is found under a name gives a result, and takes `n` arguments. A message box is left out,
since it is more than one call. -/
def Declarations.Permits (d : Declarations) (name : String) (n : Nat) : Prop :=
  match d.callee? name with
  | none | some (.placeholder _) => True
  | some (.function f) => f.params.length = n
  | some (.command k) => k.convention ≠ .void ∧ k.least ≤ n ∧ n ≤ k.most
  | some .messageBox => False

mutual

/-- Names are those of visible variables, with the meaning they have in `env`, and the calls are
permitted. -/
def Item.Fits (env : Env) (d : Declarations) (current : Option String) : Item → Prop
  | .word w => w.isName → d.find? w.name current = some (env.look w.name)
  | .call f args => d.Permits f.name args.length ∧ args.Fits env d current

def Args.Fits (env : Env) (d : Declarations) (current : Option String) : Args → Prop
  | .none => True
  | .cons e more => e.Fits env d current ∧ more.Fits env d current

def Expr.Fits (env : Env) (d : Declarations) (current : Option String) : Expr → Prop
  | .single i => i.Fits env d current
  | .join i e => i.Fits env d current ∧ e.Fits env d current

end

instance (d : Declarations) (name : String) (n : Nat) : Decidable (d.Permits name n) :=
  match h : d.callee? name with
  | none | some (.placeholder _) => .isTrue (by rw [Declarations.Permits, h]; trivial)
  | some (.function f) =>
    decidable_of_iff (f.params.length = n) (by rw [Declarations.Permits, h])
  | some (.command k) =>
    decidable_of_iff (k.convention ≠ .void ∧ k.least ≤ n ∧ n ≤ k.most) (by rw [Declarations.Permits, h])
  | some .messageBox => .isFalse (by rw [Declarations.Permits, h]; exact id)

mutual

instance Item.decidableFits (env : Env) (d : Declarations) (current : Option String) :
    ∀ i : Item, Decidable (i.Fits env d current)
  | .word w => inferInstanceAs (Decidable (w.isName → d.find? w.name current = some (env.look w.name)))
  | .call f args =>
    have := args.decidableFits env d current
    inferInstanceAs (Decidable (d.Permits f.name args.length ∧ args.Fits env d current))

instance Args.decidableFits (env : Env) (d : Declarations) (current : Option String) :
    ∀ args : Args, Decidable (args.Fits env d current)
  | .none => .isTrue trivial
  | .cons e more =>
    have := e.decidableFits env d current
    have := more.decidableFits env d current
    inferInstanceAs (Decidable (e.Fits env d current ∧ more.Fits env d current))

instance Expr.decidableFits (env : Env) (d : Declarations) (current : Option String) :
    ∀ e : Expr, Decidable (e.Fits env d current)
  | .single i => i.decidableFits env d current
  | .join i e =>
    have := i.decidableFits env d current
    have := e.decidableFits env d current
    inferInstanceAs (Decidable (i.Fits env d current ∧ e.Fits env d current))

end

end InstallScript
