import InstallScript.Declarations

/-!
Looking things up after they were declared. A variable is found by its name and scope, a callee by
its name, and what is added for one key is not seen under another.
-/

namespace InstallScript

theorem lookup_putEntry (key name : String) (c : Callee) (es : List (String × Callee)) :
    (putEntry key c es).lookup name = if name = key then some c else es.lookup name := by
  induction es with
  | nil => by_cases hn : name = key <;> simp [putEntry, hn]
  | cons e es ih =>
    obtain ⟨k, old⟩ := e
    have hne : ∀ {a b : String}, a ≠ b → (a == b) = false := fun h => beq_eq_false_iff_ne.mpr h
    by_cases hk : k = key
    · subst hk
      by_cases hn : name = k
      · simp [putEntry, hn]
      · simp [putEntry, hn, List.lookup_cons, hne hn]
    · by_cases hn : name = k
      · subst hn
        simp [putEntry, hk]
      · simp only [putEntry, if_neg hk, List.lookup_cons, hne hn, ih]

namespace Declarations

variable {d : Declarations} {name : String} {scope : Scope} {v : Variable}

theorem declared?_eq_none : d.declared? name scope = none ↔
    ∀ v ∈ d.vars, ¬(v.name = name ∧ v.scope = scope) := by
  simp [declared?, List.find?_eq_none]

theorem mem_of_declared? (h : d.declared? name scope = some v) :
    v ∈ d.vars ∧ v.name = name ∧ v.scope = scope := by
  refine ⟨List.mem_of_find?_eq_some h, ?_⟩
  simpa using List.find?_some h

/-- What a name means is a declared variable, of the function or of the whole script. -/
theorem mem_of_find? {function : Option String} (h : d.find? name function = some v) :
    v ∈ d.vars ∧ v.name = name ∧ (v.scope = .global ∨ v.scope = .ofFunction function) := by
  cases function with
  | none =>
    obtain ⟨hv, hn, hs⟩ := mem_of_declared? h
    exact ⟨hv, hn, .inl hs⟩
  | some f =>
    rcases Option.or_eq_some_iff.mp h with h | ⟨-, h⟩
    · obtain ⟨hv, hn, hs⟩ := mem_of_declared? h
      exact ⟨hv, hn, .inr hs⟩
    · obtain ⟨hv, hn, hs⟩ := mem_of_declared? h
      exact ⟨hv, hn, .inl hs⟩

theorem declare_of_none (h : d.declared? name scope = none) :
    d.declare name scope = .ok (⟨name, scope, none⟩, d.addVariable ⟨name, scope, none⟩) := by
  simp only [declare, h]

@[simp] theorem vars_addVariable : (d.addVariable v).vars = v :: d.vars := rfl
@[simp] theorem callee?_addVariable : (d.addVariable v).callee? name = d.callee? name := rfl

@[simp] theorem callee?_putCallee {other : String} {c : Callee} :
    (d.putCallee name c).callee? other = if other = name then some c else d.callee? other :=
  lookup_putEntry name other c d.callees

theorem function?_eq_some {f : Function} :
    d.function? name = some f ↔ d.callee? name = some (.function f) := by
  unfold function?
  split
  · next g hg => simp [hg]
  · next hne =>
    constructor
    · intro h
      cases h
    · intro h
      exact absurd h (hne f)

theorem modifyFunction_of {f : Function} {change : Function → Function}
    (h : d.function? name = some f) :
    d.modifyFunction name change = d.putCallee name (.function (change f)) := by
  rw [modifyFunction, h]

theorem modifyFunction_of_none {change : Function → Function} (h : d.function? name = none) :
    d.modifyFunction name change = d := by
  rw [modifyFunction, h]

theorem recordCall_of {q : Placeholder} {n : Nat} (h : d.callee? name = some (.placeholder q)) :
    d.recordCall name n = d.putCallee name (.placeholder { q with calls := q.calls ++ [n] }) := by
  rw [recordCall, h]

@[simp] theorem vars_modifyFunction {change : Function → Function} :
    (d.modifyFunction name change).vars = d.vars := by
  unfold modifyFunction
  split <;> rfl

@[simp] theorem vars_recordCall {n : Nat} : (d.recordCall name n).vars = d.vars := by
  unfold recordCall
  split <;> rfl

@[simp] theorem generated_modifyFunction {change : Function → Function} :
    (d.modifyFunction name change).generated = d.generated := by
  unfold modifyFunction
  split <;> rfl

@[simp] theorem generated_recordCall {n : Nat} : (d.recordCall name n).generated = d.generated := by
  unfold recordCall
  split <;> rfl

/-- A function is declared where nothing, or only a placeholder, had its name; the calls made to the
placeholder become those that came earlier. -/
theorem declareFunction_eq_ok {label : String} {f : Function} {d' : Declarations}
    (h : d.declareFunction name label = .ok (f, d')) :
    ∃ earlier, f = { name, label, earlier } ∧ d' = d.putCallee name (.function f) ∧
      (d.callee? name = none ∧ earlier = [] ∨
        ∃ p, d.callee? name = some (.placeholder p) ∧ earlier = p.calls) := by
  unfold declareFunction at h
  split at h
  · next hn =>
    cases h
    exact ⟨[], rfl, rfl, .inl ⟨hn, rfl⟩⟩
  · next p hp =>
    cases h
    exact ⟨p.calls, rfl, rfl, .inr ⟨p, hp, rfl⟩⟩
  · cases h

end Declarations

end InstallScript
