import InstallScript.Proofs.DeclaredFirst

/-!
Names in the target language. A local variable is written with the name of its function and a dot in
front, and names may have dots themselves, so that two variables can end up with one name.
`Variable.Overlaps` says when; `target_eq_iff_overlaps` shows that this is the only way, and that it
takes a variable to which the script itself has given a name with a dot.
-/

namespace InstallScript

namespace Names

theorem mem_toList_generated {n : Nat} {c : Char} (h : c ∈ (generated n).toList) :
    c ≠ '.' ∧ Text.isCapital c = false := by
  rw [toList_generated] at h
  rcases List.mem_append.mp h with h | h
  · have hall : reserved.toList.all fun c => c ≠ '.' && !Text.isCapital c := by decide
    simpa using List.all_eq_true.mp hall c h
  · have hd := Nat.isDigit_of_mem_toDigits (by decide) (by decide) h
    constructor
    · rintro rfl
      exact Bool.noConfusion hd
    · simp only [Char.isDigit, Bool.and_eq_true, decide_eq_true_eq] at hd
      have h9 : c.toNat ≤ 0x39 := UInt32.le_iff_toNat_le.mp hd.2
      simp only [Text.isCapital, Bool.and_eq_false_iff, decide_eq_false_iff_not]
      omega

end Names

/-- What stands in front of a name in the target language. -/
def Scope.lead : Scope → String
  | global => ""
  | function f => f ++ "."

namespace Variable

variable {u v : Variable}

/-- The name of `u` has a dot that `v` has behind the name of its function, and both are written in
the same way. -/
def Overlaps (u v : Variable) : Prop :=
  ∃ g, v.scope = .function (u.scope.lead ++ g) ∧ u.name = g ++ "." ++ v.name

/-- A variable of a script is known by its name and scope. -/
theorem eq_of_key (hu : u.predefined = none) (hv : v.predefined = none)
    (h : (u.name, u.scope) = (v.name, v.scope)) : u = v := by
  cases u
  cases v
  cases h
  cases hu
  cases hv
  rfl

theorem write_declare_eq_iff :
    (Instr.declare u).write = (Instr.declare v).write ↔ u.target = v.target :=
  String.append_right_inj "Var /GLOBAL "

theorem toList_target (h : v.predefined = none) :
    v.target.toList = v.scope.lead.toList ++ v.name.toList := by
  unfold target Scope.lead
  rw [h]
  cases v.scope with
  | global => rfl
  | function f => rw [String.toList_append, String.toList_append]

theorem Overlaps.target_eq (h : u.Overlaps v) (hu : u.predefined = none)
    (hv : v.predefined = none) : u.target = v.target := by
  obtain ⟨g, hs, hn⟩ := h
  refine String.toList_injective ?_
  rw [toList_target hu, toList_target hv, hs, hn, Scope.lead]
  simp [String.toList_append]

theorem lead_inj {s t : Scope} (h : s.lead.toList = t.lead.toList) : s = t := by
  cases s with
  | global =>
    cases t with
    | global => rfl
    | function f => simp [Scope.lead] at h
  | function f =>
    cases t with
    | global => simp [Scope.lead] at h
    | function g =>
      simp only [Scope.lead, String.toList_append] at h
      rw [String.toList_injective (List.append_cancel_right h)]

/-- Where `v` has more in front of its name, the rest of it is in the name of `u`. -/
theorem overlaps_of_lead {more : List Char} (hne : (u.name, u.scope) ≠ (v.name, v.scope))
    (hl : v.scope.lead.toList = u.scope.lead.toList ++ more)
    (hn : u.name.toList = more ++ v.name.toList) : u.Overlaps v := by
  rcases List.eq_nil_or_concat more with rfl | ⟨g, c, rfl⟩
  · rw [List.append_nil] at hl
    exact absurd (Prod.ext (String.toList_injective hn) (lead_inj hl).symm) hne
  · cases hs : v.scope with
    | global =>
      rw [hs] at hl
      simp [Scope.lead] at hl
    | function f =>
      rw [hs, Scope.lead, String.toList_append, List.concat_eq_append, ← List.append_assoc] at hl
      obtain ⟨hf, hc⟩ := List.append_inj' hl rfl
      obtain rfl : '.' = c := List.singleton_inj.mp hc
      refine ⟨String.ofList g, ?_, String.toList_injective ?_⟩
      · rw [hs]
        refine congrArg Scope.function (String.toList_injective ?_)
        rw [hf, String.toList_append, String.toList_ofList]
      · rw [hn]
        simp [String.toList_append]

theorem overlaps_of_target_eq (hne : (u.name, u.scope) ≠ (v.name, v.scope))
    (hu : u.predefined = none) (hv : v.predefined = none) (h : u.target = v.target) :
    u.Overlaps v ∨ v.Overlaps u := by
  have ht := congrArg String.toList h
  rw [toList_target hu, toList_target hv] at ht
  rcases List.append_eq_append_iff.mp ht with ⟨more, hl, hn⟩ | ⟨more, hl, hn⟩
  · exact .inl (overlaps_of_lead hne hl hn)
  · exact .inr (overlaps_of_lead hne.symm hl hn)

end Variable

/-! ## Registered variables -/

/-- The variables of the target language differ in their names there, which have a capital letter and
no dot; neither have their own names a dot. -/
theorem mem_catalogue {u v : Variable} (hu : u ∈ Catalogue.vars) (hv : v ∈ Catalogue.vars) :
    (u.target = v.target → u = v) ∧ (∃ c ∈ u.target.toList, Text.isCapital c) ∧
      '.' ∉ u.target.toList ∧ '.' ∉ u.name.toList ∧ u.scope = .global := by
  have hall : ∀ u ∈ Catalogue.vars, (∀ v ∈ Catalogue.vars, u.target = v.target → u = v) ∧
      u.target.toList.any Text.isCapital ∧
      '.' ∉ u.target.toList ∧ '.' ∉ u.name.toList ∧ u.scope = .global := by decide +kernel
  exact ⟨(hall u hu).1 v hv, List.any_eq_true.mp (hall u hu).2.1, (hall u hu).2.2⟩

namespace Variable.Origin

variable {n : Nat} {u v : Variable}

theorem predefined_or (h : v.Origin n) : v ∈ Catalogue.vars ∨ v.predefined = none := by
  cases h with
  | predefined h => exact .inl h
  | named _ _ _ hp | temporary _ _ _ hp => exact .inr hp
  | register h | discarded h => exact .inr (h ▸ rfl)

/-- Local variables are those of a script. -/
theorem predefined_of_local (h : v.Origin n) {f : String} (hs : v.scope = .function f) :
    v.predefined = none := by
  refine h.predefined_or.resolve_left fun hm => ?_
  rw [(mem_catalogue hm hm).2.2.2.2] at hs
  cases hs

/-- Names of a script are in lower case, and so are those of the compiler. -/
theorem isCapital_name (h : v.Origin n) (hp : v.predefined = none) {c : Char}
    (hc : c ∈ v.name.toList) : Text.isCapital c = false := by
  cases h with
  | predefined h =>
    have hall : ∀ v ∈ Catalogue.vars, v.predefined ≠ none := by decide
    exact absurd hp (hall v h)
  | named t hn =>
    rw [hn, Text.lower, String.toList_ofList] at hc
    exact Text.isCapital_lowerChars hc
  | temporary k hn =>
    rw [hn] at hc
    exact (Names.mem_toList_generated hc).2
  | register h =>
    have hall : Names.returnRegister.name.toList.all fun c => !Text.isCapital c := by decide
    simpa using List.all_eq_true.mp hall c (h ▸ hc)
  | discarded h =>
    have hall : Names.discarded.name.toList.all fun c => !Text.isCapital c := by decide
    simpa using List.all_eq_true.mp hall c (h ▸ hc)

/-- Only a script makes names with dots. -/
theorem not_reserved_of_dot (h : v.Origin n) (hd : '.' ∈ v.name.toList) :
    Names.isReserved v.name = false := by
  cases h with
  | predefined h => exact absurd hd (mem_catalogue h h).2.2.2.1
  | named _ _ hr => exact hr
  | temporary k hn =>
    rw [hn] at hd
    exact absurd rfl (Names.mem_toList_generated hd).1
  | register h =>
    rw [h] at hd
    exact absurd hd (by decide)
  | discarded h =>
    rw [h] at hd
    exact absurd hd (by decide)

theorem ne_predefined (hv : v.Origin n) (hp : v.predefined = none) (hu : u ∈ Catalogue.vars) :
    u.target ≠ v.target := by
  intro he
  obtain ⟨⟨c, hc, hcap⟩, hdot, -⟩ := (mem_catalogue hu hu).2
  rw [he, toList_target hp] at hc hdot
  cases hs : v.scope with
  | global =>
    rw [hs] at hc
    rw [hv.isCapital_name hp hc] at hcap
    exact Bool.noConfusion hcap
  | function f =>
    rw [hs] at hdot
    exact hdot (List.mem_append_left _ (by simp [Scope.lead]))

end Variable.Origin

theorem Variable.Overlaps.dot_mem {u v : Variable} (h : u.Overlaps v) : '.' ∈ u.name.toList := by
  obtain ⟨g, -, hn⟩ := h
  rw [hn]
  simp

/-- Two variables of one state have the same target name exactly if one overlaps the other. -/
theorem Compiler.Sound.target_eq_iff {c : Compiler} (hs : c.Sound) {u v : Variable}
    (hu : u ∈ c.declarations.vars) (hv : v ∈ c.declarations.vars)
    (hne : (u.name, u.scope) ≠ (v.name, v.scope)) :
    u.target = v.target ↔ u.Overlaps v ∨ v.Overlaps u := by
  have hou := hs.origins u hu
  have hov := hs.origins v hv
  constructor
  · intro he
    rcases hou.predefined_or with hcu | hpu
    · rcases hov.predefined_or with hcv | hpv
      · cases (mem_catalogue hcu hcv).1 he
        exact absurd rfl hne
      · exact absurd he (hov.ne_predefined hpv hcu)
    · rcases hov.predefined_or with hcv | hpv
      · exact absurd he.symm (hou.ne_predefined hpu hcv)
      · exact Variable.overlaps_of_target_eq hne hpu hpv he
  · have hmeet : ∀ {a b : Variable} {n : Nat}, a.Origin n → b.Origin n → a.Overlaps b →
        a.target = b.target := by
      intro a b n ha hb h
      refine h.target_eq (ha.predefined_or.resolve_left fun hm => ?_) ?_
      · exact (mem_catalogue hm hm).2.2.2.1 h.dot_mem
      · obtain ⟨g, hscope, -⟩ := h
        exact hb.predefined_of_local hscope
    rintro (h | h)
    · exact hmeet hou hov h
    · exact (hmeet hov hou h).symm

/-- In every run two registered variables have one target name exactly if one overlaps the other, and
then the longer name is one that the script has given, with a dot in it. So names of the compiler
never meet each other; the declarations that a run without faults writes meet just as the variables
do. -/
theorem target_eq_iff_overlaps (predefined : Bool) (sources : List String) :
    let c := Compiler.start predefined
    let vars := (c.steps (program sources)).2.declarations.vars
    let declared := declaredIn (c.output (program sources))
    (∀ u ∈ vars, ∀ v ∈ vars, (u.name, u.scope) ≠ (v.name, v.scope) →
      (u.target = v.target ↔ u.Overlaps v ∨ v.Overlaps u) ∧
      (u.Overlaps v → Names.isReserved u.name = false ∧ '.' ∈ u.name.toList)) ∧
    (c.Clean (program sources) → ∀ u ∈ declared, ∀ v ∈ declared, u ≠ v →
      ((Instr.declare u).write = (Instr.declare v).write ↔ u.Overlaps v ∨ v.Overlaps u)) := by
  have hs := Compiler.sound_steps predefined (program sources)
  refine ⟨fun u hu v hv hne => ⟨hs.target_eq_iff hu hv hne, fun h => ?_⟩, fun hc u hu v hv hne => ?_⟩
  · exact ⟨(hs.origins u hu).not_reserved_of_dot h.dot_mem, h.dot_mem⟩
  · obtain ⟨hu, hpu⟩ := (mem_declaredIn_output hc u).mp hu
    obtain ⟨hv, hpv⟩ := (mem_declaredIn_output hc v).mp hv
    have hkeys : (u.name, u.scope) ≠ (v.name, v.scope) := fun he =>
      hne (Variable.eq_of_key hpu hpv he)
    exact Variable.write_declare_eq_iff.trans (hs.target_eq_iff hu hv hkeys)

/-- A script with a variable whose name is that of a generated variable in the function. -/
def dottedScript : List String :=
  ["Var f.bridle_1\nFunction f()\nDetailPrint(GetParameters())\nFunctionEnd"]

theorem dotted_name_overlaps_temporary :
    let u : Variable := ⟨"f.bridle_1", .global, none⟩
    let v : Variable := ⟨"bridle_1", .function "f", none⟩
    let c := Compiler.start true
    let vars := (c.steps (program dottedScript)).2.declarations.vars
    let declared := declaredIn (c.output (program dottedScript))
    (u ∈ vars ∧ v ∈ vars ∧ (u.name, u.scope) ≠ (v.name, v.scope)) ∧
    (c.Clean (program dottedScript) ∧ u ∈ declared ∧ v ∈ declared) ∧
    ((u.target = v.target ↔ u.Overlaps v ∨ v.Overlaps u) ∧
      ((Instr.declare u).write = (Instr.declare v).write ↔ u.Overlaps v ∨ v.Overlaps u)) := by
  intro u v c vars declared
  obtain ⟨hvars, hlines⟩ : (u ∈ vars ∧ v ∈ vars ∧ (u.name, u.scope) ≠ (v.name, v.scope)) ∧
      (c.Clean (program dottedScript) ∧ u ∈ declared ∧ v ∈ declared) := by decide +kernel
  obtain ⟨hall, hdeclared⟩ := target_eq_iff_overlaps true dottedScript
  exact ⟨hvars, hlines, (hall u hvars.1 v hvars.2.1 hvars.2.2).1,
    hdeclared hlines.1 u hlines.2.1 v hlines.2.2 (by decide)⟩

/-- A generated variable and one of the script can have the same target name, which is then declared
twice. -/
theorem temporary_meets_dotted_name :
    let u : Variable := ⟨"f.bridle_1", .global, none⟩
    let v : Variable := ⟨"bridle_1", .function "f", none⟩
    let c := Compiler.start true
    let vars := (c.steps (program dottedScript)).2.declarations.vars
    (u ∈ vars ∧ v ∈ vars ∧ (u.name, u.scope) ≠ (v.name, v.scope) ∧ u.target = v.target) ∧
      ((c.output (program dottedScript)).map (·.instr.write)).count "Var /GLOBAL f.bridle_1" = 2 := by
  decide +kernel

end InstallScript
