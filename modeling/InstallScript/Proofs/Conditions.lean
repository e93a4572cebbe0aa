import InstallScript.Compile.Condition
import InstallScript.Proofs.Values

/-!
What compiling a condition does. It is compiled like the values in it, and the terms it gives read
only variables that can be seen.
-/

namespace InstallScript.Compile

variable {w w' : Work}

/-- All variables of the terms can be seen. -/
def SeenTerms (ts : List Term) (w : Work) : Prop := ∀ t ∈ ts, ∀ x ∈ t.operands, Seen x w

theorem SeenTerms.mono {ts : List Term} (h : SeenTerms ts w) (hr : Reach .value w w') :
    SeenTerms ts w' :=
  fun t ht x hx => (h t ht x hx).mono hr

theorem SeenTerms.append {ts us : List Term} (ht : SeenTerms ts w) (hu : SeenTerms us w) :
    SeenTerms (ts ++ us) w :=
  fun t hm => (List.mem_append.mp hm).elim (ht t) (hu t)

/-- Changing one term is safe where the change is. -/
theorem SeenTerms.modify {ts : List Term} {change : Term → Term} (h : SeenTerms ts w)
    (hc : ∀ t, (∀ x ∈ t.operands, Seen x w) → ∀ x ∈ (change t).operands, Seen x w) (i : Nat) :
    SeenTerms (ts.modify i change) w := by
  intro t ht
  rw [List.modify_eq_take_drop] at ht
  rcases List.mem_append.mp ht with ht | ht
  · exact h t (List.mem_of_mem_take ht)
  · cases hd : ts.drop i with
    | nil =>
      rw [hd] at ht
      cases ht
    | cons u us =>
      rw [hd] at ht
      have hmem : ∀ {v}, v ∈ u :: us → v ∈ ts := fun hv => List.mem_of_mem_drop (hd ▸ hv)
      rcases List.mem_cons.mp ht with rfl | ht
      · exact hc u (h u (hmem List.mem_cons_self))
      · exact h t (hmem (List.mem_cons_of_mem u ht))

theorem seen_addLeft {t : Term} {x : Operand} (ht : ∀ y ∈ t.operands, Seen y w) (hx : Seen x w) :
    ∀ y ∈ (t.addLeft x).operands, Seen y w := by
  intro y hy
  simp only [Term.addLeft, Term.operands, List.append_assoc, List.mem_append,
    List.mem_singleton] at hy ht
  rcases hy with hy | rfl | hy
  · exact ht y (.inl hy)
  · exact hx
  · exact ht y (.inr hy)

theorem seen_compare {t : Term} {r : String} {x : Operand} (ht : ∀ y ∈ t.operands, Seen y w)
    (hx : Seen x w) : ∀ y ∈ (t.compare r x).operands, Seen y w := by
  intro y hy
  rcases List.mem_append.mp hy with hy | hy
  · exact ht y (List.mem_append_left _ hy)
  · rw [List.mem_singleton.mp hy]
    exact hx

theorem does_openTerm (o : Opener) (hs : w.compiler.Sound) :
    Does .value (openTerm o) w fun t w' => ∀ x ∈ t.operands, Seen x w' := by
  have hnew : ∀ {t : Term} {x : Operand} {w' : Work}, t.operands = [] → Seen x w' →
      ∀ y ∈ (t.addLeft x).operands, Seen y w' := by
    intro t x w' ht hx
    refine seen_addLeft (fun y hy => ?_) hx
    rw [ht] at hy
    cases hy
  unfold openTerm
  refine .bind hs does_nextWord fun word w₁ hs₁ _ _ => ?_
  split
  · refine .bind hs₁ does_nextWord fun word' w₂ hs₂ _ _ => ?_
    exact .bind hs₂ (does_value word' w₂ hs₂) fun x w₃ _ _ hx => .pure (hnew rfl hx)
  · exact .bind hs₁ (does_value word w₁ hs₁) fun x w₂ _ _ hx => .pure (hnew rfl hx)

theorem does_moreTerms (n : Nat) {ts : List Term} {opened : List Nat} (hs : w.compiler.Sound)
    (ht : SeenTerms ts w) : Does .value (moreTerms n ts opened) w fun ts w' => SeenTerms ts w' := by
  induction n generalizing w ts opened with
  | zero =>
    cases opened with
    | nil =>
      unfold moreTerms
      exact .pure ht
    | cons i outer =>
      unfold moreTerms
      refine .read (a := w.cursor.tail) rfl ?_
      split
      · exact .fail
      · exact .pure ht
  | succ n ih =>
    cases opened with
    | nil =>
      unfold moreTerms
      exact .pure ht
    | cons i outer =>
      unfold moreTerms
      refine .read (a := w.cursor.tail) rfl ?_
      split
      · refine .read (a := w.cursor.hasNext) rfl ?_
        dsimp only
        split
        · exact .fail_bind
        · refine .bind hs does_nextWord fun word w₁ hs₁ h₁ _ => ?_
          refine .bind hs₁ (does_value word w₁ hs₁) fun x w₂ hs₂ h₂ hx => ih hs₂ ?_
          exact (ht.mono (h₁.trans h₂)).modify (fun t ht => seen_compare ht hx) _
      · refine .read (a := w.cursor.hasNext) rfl ?_
        split
        · exact .pure ht
        · refine .bind hs does_nextWord fun word w₁ hs₁ h₁ _ => ?_
          split
          · refine .bind hs₁ (does_openTerm _ hs₁) fun t w₂ hs₂ h₂ hx => ih hs₂ ?_
            refine (ht.mono (h₁.trans h₂)).append fun u hu => ?_
            rw [List.mem_singleton.mp hu]
            exact hx
          · refine .bind hs₁ (does_value word w₁ hs₁) fun x w₂ hs₂ h₂ hx => ih hs₂ ?_
            exact (ht.mono (h₁.trans h₂)).modify (fun t ht => seen_addLeft ht hx) _

theorem does_condition (o : Opener) (hs : w.compiler.Sound) :
    Does .value (condition o) w fun ts w' => SeenTerms ts w' := by
  have hin : Reach .value w (w.atDepth (w.compiler.depth + 1)) := .single (.pass rfl rfl)
  have hs' := hin.sound hs
  refine .nested (.bind hs' (does_openTerm o hs') fun t w₁ hs₁ _ ht => ?_)
  refine .read (a := w₁.cursor.ahead.length) rfl ?_
  refine (does_moreTerms _ hs₁ fun u hu => ?_).mono fun ts w₂ _ h n => h.mono (.single (.pass rfl rfl))
  rw [List.mem_singleton.mp hu]
  exact ht

theorem does_moreConditions (n : Nat) (hs : w.compiler.Sound) :
    Does .value (moreConditions n) w fun ts w' => SeenTerms ts w' := by
  induction n generalizing w with
  | zero => exact .pure fun t ht => absurd ht List.not_mem_nil
  | succ n ih =>
    unfold moreConditions
    refine .read (a := w.cursor.hasNext) rfl ?_
    split
    · exact .pure fun t ht => absurd ht List.not_mem_nil
    · refine .bind hs does_nextWord fun word w₁ hs₁ _ _ => ?_
      split
      · refine .bind hs₁ (does_condition _ hs₁) fun ts w₂ hs₂ _ ht => ?_
        exact .bind hs₂ (ih hs₂) fun us w₃ _ h₃ hu => .pure ((ht.mono h₃).append hu)
      · exact .fail

theorem does_conditions (o : Opener) (hs : w.compiler.Sound) :
    Does .value (conditions o) w fun ts w' => SeenTerms ts w' := by
  unfold conditions
  refine .bind hs (does_condition o hs) fun ts w₁ hs₁ _ ht => ?_
  refine .read (a := w₁.cursor.ahead.length) rfl ?_
  exact .bind hs₁ (does_moreConditions _ hs₁) fun us w₂ _ h₂ hu => .pure ((ht.mono h₂).append hu)

end InstallScript.Compile
