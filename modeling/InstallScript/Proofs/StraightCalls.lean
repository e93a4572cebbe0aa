import InstallScript.Proofs.Assignments
import InstallScript.Proofs.Execution

/-!
Calls at work. The calls inside of an expression leave alone all variables but the ones generated for
them, and then its operand has the value of the expression (`Expr.run?_calls`). That holds where they are
calls of primitives, since a function may do anything to the variables of the script.
-/

namespace InstallScript

/-! ## Values of expressions -/

/-- The operand that a word by itself becomes. -/
def Env.operand (env : Env) (w : Word) : Operand := (Item.word w).operand env 0

mutual

/-- The value of an item, where all calls are calls of primitives. -/
def Item.value (p : Platform) (d : Declarations) (env : Env) (σ : Variable → String) : Item → String
  | .word w => (env.operand w).eval p σ
  | .call f args =>
    match d.callee? f.name with
    | some (.command k) => k.result (p.perform k.primitive (args.values p d env σ))
    | _ => ""

def Args.values (p : Platform) (d : Declarations) (env : Env) (σ : Variable → String) :
    Args → List String
  | .none => []
  | .cons e more => e.value p d env σ :: more.values p d env σ

def Expr.value (p : Platform) (d : Declarations) (env : Env) (σ : Variable → String) : Expr → String
  | .single i => i.value p d env σ
  | .join i e => i.value p d env σ ++ e.value p d env σ

end

mutual

/-- All calls are calls of primitives that give a result, and no word reads a variable that is generated
behind the `b`-th. -/
def Item.Straight (d : Declarations) (env : Env) (b : Nat) : Item → Prop
  | .word w => ∀ v ∈ (env.operand w).vars, ∀ j, b < j → v ≠ env.temp j
  | .call f args => (∃ k ∈ Catalogue.commands, d.callee? f.name = some (.command k) ∧
      k.convention ≠ .void ∧ k.slot ≤ args.length) ∧ args.Straight d env b

def Args.Straight (d : Declarations) (env : Env) (b : Nat) : Args → Prop
  | .none => True
  | .cons e more => e.Straight d env b ∧ more.Straight d env b

def Expr.Straight (d : Declarations) (env : Env) (b : Nat) : Expr → Prop
  | .single i => i.Straight d env b
  | .join i e => i.Straight d env b ∧ e.Straight d env b

end

/-- The blocks of the calls depend on nothing but what the callees are. -/
theorem Args.flatMap_block_congr {d d' : Declarations} (args : Args) (env : Env) (n : Nat)
    (h : ∀ g ∈ args.callees, d.callee? g.name = d'.callee? g.name) :
    (args.calls env n).flatMap d.block = (args.calls env n).flatMap d'.block := by
  refine List.flatMap_congr fun call hcall => ?_
  have hg : call.callee ∈ args.callees := by
    rw [← args.callees_calls env n]
    exact List.mem_map_of_mem hcall
  rw [Declarations.block, Declarations.block, h _ hg]

/-! ## Generated variables -/

namespace Env

variable {env : Env} {n m : Nat} {σ τ υ : Variable → String}

/-- All variables but those generated behind the `n`-th have the same value. -/
def Keeps (env : Env) (n : Nat) (σ τ : Variable → String) : Prop :=
  ∀ v, (∀ j, n < j → v ≠ env.temp j) → τ v = σ v

theorem Keeps.refl (env : Env) (n : Nat) (σ : Variable → String) : env.Keeps n σ σ := fun _ _ => rfl

theorem Keeps.mono (h : env.Keeps m σ τ) (hn : n ≤ m) : env.Keeps n σ τ :=
  fun v hv => h v fun j hj => hv j (Nat.lt_of_le_of_lt hn hj)

theorem Keeps.trans (h : env.Keeps n σ τ) (h' : env.Keeps n τ υ) : env.Keeps n σ υ :=
  fun v hv => (h' v hv).trans (h v hv)

theorem keeps_update (σ : Variable → String) (s : String) (hn : n < m) :
    env.Keeps n σ (Function.update σ (env.temp m) s) :=
  fun _ hv => Function.update_of_ne (hv m hn) _ _

theorem temp_inj {i j : Nat} (h : env.temp i = env.temp j) : i = j :=
  Names.generated_inj (congrArg Variable.name h)

/-- An operand that is compiled when `n` names have been generated, and `count` more for it, reads no
generated variables but these. -/
def Confines (env : Env) (b n count : Nat) (x : Operand) : Prop :=
  ∀ v ∈ x.vars, (∀ j, b < j → v ≠ env.temp j) ∨ ∃ j, n < j ∧ j ≤ n + count ∧ v = env.temp j

variable {b count : Nat} {x : Operand}

/-- Names that are generated later make no difference to the operand. -/
theorem Confines.eval_congr {perform : Primitive → List String → Effect} (h : env.Confines b n count x)
    (hb : b ≤ n) (hk : env.Keeps (n + count) σ τ) :
    x.eval (.literal perform) τ = x.eval (.literal perform) σ := by
  refine Operand.eval_congr fun v hv => hk v fun j hj => ?_
  rcases h v hv with hv | ⟨i, -, hi, rfl⟩
  · exact hv j (Nat.lt_of_le_of_lt (Nat.le_trans hb (Nat.le_add_right n count)) hj)
  · intro he
    rw [temp_inj he] at hi
    exact Nat.not_lt_of_le hi hj

/-- The last name that has been generated before is not read. -/
theorem Confines.temp_not_mem (h : env.Confines b n count x) (hb : b < n) : env.temp n ∉ x.vars := by
  intro hv
  rcases h _ hv with hv | ⟨i, hi, -, he⟩
  · exact hv n hb rfl
  · rw [temp_inj he] at hi
    exact Nat.lt_irrefl i hi

theorem Confines.mono {n' count' : Nat} (h : env.Confines b n count x) (hn : n' ≤ n)
    (hc : n + count ≤ n' + count') : env.Confines b n' count' x := by
  intro v hv
  refine (h v hv).imp_right ?_
  rintro ⟨j, hj, hj', rfl⟩
  exact ⟨j, Nat.lt_of_le_of_lt hn hj, Nat.le_trans hj' hc, rfl⟩

end Env

section

variable {d : Declarations} {env : Env} {b : Nat}

theorem Item.confines_operand {i : Item} (hi : i.Straight d env b) (n : Nat) :
    env.Confines b n i.count (i.operand env n) := by
  cases i with
  | word w =>
    rw [Item.Straight] at hi
    exact fun v hv => .inl (hi v hv)
  | call f args =>
    intro v hv
    cases List.mem_singleton.mp hv
    rw [Item.count]
    exact .inr ⟨n + 1, Nat.lt_succ_self n, Nat.add_le_add_left (Nat.succ_pos _) n, rfl⟩

theorem Expr.confines_operand : ∀ {e : Expr}, e.Straight d env b → ∀ n : Nat,
    env.Confines b n e.count (e.operand env n)
  | .single i, he, n => by
    rw [Expr.Straight] at he
    rw [Expr.count]
    exact i.confines_operand he n
  | .join i e, he, n => by
    rw [Expr.Straight] at he
    intro v hv
    rw [Expr.operand, Compile.vars_join, List.mem_append] at hv
    rw [Expr.count]
    rcases hv with hv | hv
    · have hle : n + i.count ≤ n + (i.count + e.count) := Nat.add_le_add_left (Nat.le_add_right _ _) n
      exact (i.confines_operand he.1 n).mono (Nat.le_refl n) hle v hv
    · have hle : n + i.count + e.count ≤ n + (i.count + e.count) := Nat.le_of_eq (Nat.add_assoc ..)
      exact (e.confines_operand he.2 _).mono (Nat.le_add_right _ _) hle v hv

theorem Args.confines_operands : ∀ {args : Args}, args.Straight d env b → ∀ n : Nat,
    ∀ x ∈ args.operands env n, env.Confines b n args.count x
  | .none, _, _, _, hx => nomatch hx
  | .cons e more, hi, n, x, hx => by
    rw [Args.Straight] at hi
    rw [Args.count]
    rcases List.mem_cons.mp hx with rfl | hx
    · have hle : n + e.count ≤ n + (e.count + more.count) := Nat.add_le_add_left (Nat.le_add_right _ _) n
      exact (e.confines_operand hi.1 n).mono (Nat.le_refl n) hle
    · have hle : n + e.count + more.count ≤ n + (e.count + more.count) :=
        Nat.le_of_eq (Nat.add_assoc ..)
      exact (more.confines_operands hi.2 _ x hx).mono (Nat.le_add_right _ _) hle

variable {perform : Primitive → List String → Effect} {σ τ : Variable → String}

mutual

/-- Generated variables make no difference to the value of an expression. -/
theorem Item.value_congr (h : env.Keeps b σ τ) : ∀ {i : Item}, i.Straight d env b →
    i.value (.literal perform) d env τ = i.value (.literal perform) d env σ
  | .word _, hi => by
    rw [Item.Straight] at hi
    rw [Item.value, Item.value]
    exact Operand.eval_congr fun v hv => h v (hi v hv)
  | .call f args, hi => by
    rw [Item.Straight] at hi
    rw [Item.value, Item.value, args.values_congr h hi.2]

theorem Args.values_congr (h : env.Keeps b σ τ) : ∀ {args : Args}, args.Straight d env b →
    args.values (.literal perform) d env τ = args.values (.literal perform) d env σ
  | .none, _ => by rw [Args.values, Args.values]
  | .cons e more, hi => by
    rw [Args.Straight] at hi
    rw [Args.values, Args.values, e.value_congr h hi.1, more.values_congr h hi.2]

theorem Expr.value_congr (h : env.Keeps b σ τ) : ∀ {e : Expr}, e.Straight d env b →
    e.value (.literal perform) d env τ = e.value (.literal perform) d env σ
  | .single i, hi => by
    rw [Expr.Straight] at hi
    rw [Expr.value, Expr.value, i.value_congr h hi]
  | .join i e, hi => by
    rw [Expr.Straight] at hi
    rw [Expr.value, Expr.value, i.value_congr h hi.1, e.value_congr h hi.2]

end

variable (perform)

mutual

/-- The calls of an item leave all variables alone but the ones that are generated for them, and then
the operand has the value of the item. -/
theorem Item.run?_calls : ∀ (i : Item) (n : Nat) (μ : Memory), b ≤ n → i.Straight d env b →
    ∃ μ', (Platform.literal perform).run? ((i.calls env n).flatMap d.block) μ = some μ' ∧
      env.Keeps n μ.values μ'.values ∧
      (i.operand env n).eval (.literal perform) μ'.values =
        i.value (.literal perform) d env μ.values
  | .word w, n, μ, _, _ => by
    rw [Item.calls, Item.value]
    exact ⟨μ, rfl, .refl env n _, rfl⟩
  | .call f args, n, μ, hb, hi => by
    rw [Item.Straight] at hi
    obtain ⟨⟨k, hk, hcallee, hvoid, hslot⟩, hargs⟩ := hi
    obtain ⟨μ₁, hrun, hkeep, hvalues⟩ := args.run?_calls (n + 1) μ (Nat.le_succ_of_le hb) hargs
    have hlen : k.slot ≤ (args.operands env (n + 1)).length := by
      rw [Compile.length_operands]
      exact hslot
    have hfresh : ∀ x ∈ args.operands env (n + 1), env.temp (n + 1) ∉ x.vars := fun x hx =>
      (args.confines_operands hargs (n + 1) x hx).temp_not_mem (Nat.lt_succ_of_le hb)
    obtain ⟨errors, hblock⟩ := Command.run?_block perform hk hvoid hlen hfresh μ₁
    have hfound : d.block ⟨f, args.operands env (n + 1), env.temp (n + 1)⟩ =
        (Callee.command k).block (args.operands env (n + 1)) (env.temp (n + 1)) := by
      rw [Declarations.block, hcallee]
      rfl
    rw [Item.calls, List.flatMap_append, List.flatMap_singleton, hfound, Platform.run?_append, hrun,
      Option.bind_some, hblock]
    refine ⟨_, rfl, (hkeep.mono (Nat.le_succ n)).trans (env.keeps_update _ _ (Nat.lt_succ_self n)), ?_⟩
    rw [Item.operand, Operand.eval_var, Item.value, hcallee]
    dsimp only
    rw [Function.update_self, hvalues]
    rfl

theorem Args.run?_calls : ∀ (args : Args) (n : Nat) (μ : Memory), b ≤ n → args.Straight d env b →
    ∃ μ', (Platform.literal perform).run? ((args.calls env n).flatMap d.block) μ = some μ' ∧
      env.Keeps n μ.values μ'.values ∧
      (args.operands env n).map (·.eval (.literal perform) μ'.values) =
        args.values (.literal perform) d env μ.values
  | .none, n, μ, _, _ => by
    rw [Args.calls, Args.values]
    exact ⟨μ, rfl, .refl env n _, rfl⟩
  | .cons e more, n, μ, hb, hi => by
    rw [Args.Straight] at hi
    obtain ⟨μ₁, hrun₁, hkeep₁, hvalue⟩ := e.run?_calls n μ hb hi.1
    obtain ⟨μ₂, hrun₂, hkeep₂, hvalues⟩ :=
      more.run?_calls (n + e.count) μ₁ (Nat.le_trans hb (Nat.le_add_right _ _)) hi.2
    refine ⟨μ₂, ?_, hkeep₁.trans (hkeep₂.mono (Nat.le_add_right _ _)), ?_⟩
    · rw [Args.calls, List.flatMap_append, Platform.run?_append, hrun₁]
      exact hrun₂
    · rw [Args.operands, Args.values, List.map_cons, hvalues, more.values_congr (hkeep₁.mono hb) hi.2,
        (e.confines_operand hi.1 n).eval_congr hb hkeep₂, hvalue]

theorem Expr.run?_calls : ∀ (e : Expr) (n : Nat) (μ : Memory), b ≤ n → e.Straight d env b →
    ∃ μ', (Platform.literal perform).run? ((e.calls env n).flatMap d.block) μ = some μ' ∧
      env.Keeps n μ.values μ'.values ∧
      (e.operand env n).eval (.literal perform) μ'.values =
        e.value (.literal perform) d env μ.values
  | .single i, n, μ, hb, hi => by
    rw [Expr.Straight] at hi
    rw [Expr.calls, Expr.value]
    exact i.run?_calls n μ hb hi
  | .join i e, n, μ, hb, hi => by
    rw [Expr.Straight] at hi
    obtain ⟨μ₁, hrun₁, hkeep₁, hvalue₁⟩ := i.run?_calls n μ hb hi.1
    obtain ⟨μ₂, hrun₂, hkeep₂, hvalue₂⟩ :=
      e.run?_calls (n + i.count) μ₁ (Nat.le_trans hb (Nat.le_add_right _ _)) hi.2
    refine ⟨μ₂, ?_, hkeep₁.trans (hkeep₂.mono (Nat.le_add_right _ _)), ?_⟩
    · rw [Expr.calls, List.flatMap_append, Platform.run?_append, hrun₁]
      exact hrun₂
    · rw [Expr.operand, Operand.eval_join, hvalue₂, e.value_congr (hkeep₁.mono hb) hi.2,
        (i.confines_operand hi.1 n).eval_congr hb hkeep₂, hvalue₁, Expr.value]

end

end

section

variable {d : Declarations} {env : Env} {b : Nat} {current : Option String}

theorem Env.operand_ne_temp (hvars : ∀ v ∈ d.vars, ∀ j, b < j → v ≠ env.temp j) {w : Word}
    (hfit : (Item.word w).Fits env d current) :
    ∀ v ∈ (env.operand w).vars, ∀ j, b < j → v ≠ env.temp j := by
  rw [Item.Fits] at hfit
  rw [Env.operand, Item.operand]
  split
  · next hw =>
    intro v hv
    cases List.mem_singleton.mp hv
    exact hvars _ (Declarations.mem_of_find? (hfit hw)).1
  · exact fun _ hv => absurd hv List.not_mem_nil

mutual

/-- An expression that fits goes straight, if it calls nothing but primitives. -/
theorem Item.straight_of_fits (hvars : ∀ v ∈ d.vars, ∀ j, b < j → v ≠ env.temp j)
    (hcommands : ∀ name k, d.callee? name = some (.command k) → k ∈ Catalogue.commands) :
    ∀ {i : Item}, i.Fits env d current →
      (∀ g ∈ i.callees, ∃ k, d.callee? g.name = some (.command k)) → i.Straight d env b
  | .word w, hfit, _ => by
    rw [Item.Straight]
    exact env.operand_ne_temp hvars hfit
  | .call f args, hfit, hcalls => by
    rw [Item.Fits] at hfit
    rw [Item.callees] at hcalls
    obtain ⟨k, hk⟩ := hcalls f (List.mem_append_right _ List.mem_cons_self)
    have hpermits := hfit.1
    rw [Declarations.Permits, hk] at hpermits
    have hmem := hcommands f.name k hk
    rw [Item.Straight]
    exact ⟨⟨k, hmem, hk, hpermits.1, Nat.le_trans (Catalogue.slot_le_least hmem) hpermits.2.1⟩,
      args.straight_of_fits hvars hcommands hfit.2 fun g hg => hcalls g (List.mem_append_left _ hg)⟩

theorem Args.straight_of_fits (hvars : ∀ v ∈ d.vars, ∀ j, b < j → v ≠ env.temp j)
    (hcommands : ∀ name k, d.callee? name = some (.command k) → k ∈ Catalogue.commands) :
    ∀ {args : Args}, args.Fits env d current →
      (∀ g ∈ args.callees, ∃ k, d.callee? g.name = some (.command k)) → args.Straight d env b
  | .none, _, _ => by
    rw [Args.Straight]
    trivial
  | .cons e more, hfit, hcalls => by
    rw [Args.Fits] at hfit
    rw [Args.callees] at hcalls
    rw [Args.Straight]
    exact ⟨e.straight_of_fits hvars hcommands hfit.1 fun g hg => hcalls g (List.mem_append_left _ hg),
      more.straight_of_fits hvars hcommands hfit.2 fun g hg => hcalls g (List.mem_append_right _ hg)⟩

theorem Expr.straight_of_fits (hvars : ∀ v ∈ d.vars, ∀ j, b < j → v ≠ env.temp j)
    (hcommands : ∀ name k, d.callee? name = some (.command k) → k ∈ Catalogue.commands) :
    ∀ {e : Expr}, e.Fits env d current →
      (∀ g ∈ e.callees, ∃ k, d.callee? g.name = some (.command k)) → e.Straight d env b
  | .single i, hfit, hcalls => by
    rw [Expr.Fits] at hfit
    rw [Expr.callees] at hcalls
    rw [Expr.Straight]
    exact i.straight_of_fits hvars hcommands hfit hcalls
  | .join i e, hfit, hcalls => by
    rw [Expr.Fits] at hfit
    rw [Expr.callees] at hcalls
    rw [Expr.Straight]
    exact ⟨i.straight_of_fits hvars hcommands hfit.1 fun g hg => hcalls g (List.mem_append_left _ hg),
      e.straight_of_fits hvars hcommands hfit.2 fun g hg => hcalls g (List.mem_append_right _ hg)⟩

end

end

end InstallScript
