import InstallScript.Proofs.Exec
import InstallScript.Proofs.Steps

/-!
What an action does, whatever comes of it: it goes on by steps, it ends at the depth of nesting it
began at, and if it gives a result, the result has a property. The rules put such statements together
along the actions' own structure.
-/

namespace InstallScript.Compile

/-- From `w` the action goes by steps of the phase `p` and comes back to its depth, and its result,
if it has one, satisfies `Q` in the state it leaves. -/
structure Does (p : Phase) (act : Compile α) (w : Work) (Q : α → Work → Prop) : Prop where
  reach : Reach p w (exec act w).2
  depth : (exec act w).2.compiler.depth = w.compiler.depth
  returns : ∀ a, (exec act w).1 = .ok a → Q a (exec act w).2

variable {p : Phase} {act : Compile α} {k : α → Compile β} {w w' : Work} {a : α}

namespace Does

theorem of_exec {Q : α → Work → Prop} (h : exec act w = (.ok a, w')) (hr : Reach p w w')
    (hd : w'.compiler.depth = w.compiler.depth) (hq : Q a w') : Does p act w Q := by
  refine ⟨?_, ?_, ?_⟩ <;> rw [h]
  · exact hr
  · exact hd
  · intro b hb
    cases hb
    exact hq

theorem of_fault {f : Fault} {Q : α → Work → Prop} (h : exec act w = (.error f, w)) :
    Does p act w Q := by
  refine ⟨?_, ?_, ?_⟩ <;> rw [h]
  · intro b hb
    cases hb

protected theorem pure {Q : α → Work → Prop} (hq : Q a w) : Does p (pure a) w Q :=
  of_exec (exec_pure a w) .refl rfl hq

protected theorem fail {f : Fault} {Q : α → Work → Prop} : Does p (fail f) w Q :=
  of_fault (exec_fail f w)

protected theorem bind {P : α → Work → Prop} {Q : β → Work → Prop} (hs : w.compiler.Sound)
    (h : Does p act w P)
    (hk : ∀ a w', w'.compiler.Sound → Reach p w w' → P a w' → Does p (k a) w' Q) :
    Does p (act >>= k) w Q := by
  obtain ⟨hreach, hdepth, hret⟩ := h
  rcases he : exec act w with ⟨_ | a, w'⟩
  · rw [he] at hreach hdepth
    have hb := exec_bind_error (k := k) he
    refine ⟨?_, ?_, ?_⟩ <;> rw [hb]
    · exact hreach
    · exact hdepth
    · intro b hb
      cases hb
  · rw [he] at hreach hdepth hret
    obtain ⟨hreach', hdepth', hret'⟩ := hk a w' (hreach.sound hs) hreach (hret a rfl)
    have hb := exec_bind_ok (k := k) he
    refine ⟨?_, ?_, ?_⟩ <;> rw [hb]
    · exact hreach.trans hreach'
    · exact hdepth'.trans hdepth
    · exact hret'

/-- Looking at the state is no step. -/
theorem read {Q : β → Work → Prop} (h : exec act w = (.ok a, w)) (hk : Does p (k a) w Q) :
    Does p (act >>= k) w Q := by
  have hb := exec_bind_ok (k := k) h
  refine ⟨?_, ?_, ?_⟩ <;> rw [hb]
  · exact hk.reach
  · exact hk.depth
  · exact hk.returns

/-- Some way on from `w` is done already, and the rest is another action. -/
theorem resume {act' : Compile α} {Q : α → Work → Prop} (he : exec act w = exec act' w')
    (hr : Reach p w w') (hd : w'.compiler.depth = w.compiler.depth) (h : Does p act' w' Q) :
    Does p act w Q := by
  refine ⟨?_, ?_, ?_⟩ <;> rw [he]
  · exact hr.trans h.reach
  · exact h.depth.trans hd
  · exact h.returns

/-- An action that certainly fails ends what it stands in. -/
theorem fail_bind {f : Fault} {Q : β → Work → Prop} : Does p (fail f >>= k) w Q :=
  of_fault (exec_bind_error (exec_fail f w))

theorem mono {P Q : α → Work → Prop} (h : Does p act w P)
    (hpq : ∀ a w', Reach p w w' → P a w' → Q a w') : Does p act w Q :=
  ⟨h.reach, h.depth, fun a ha => hpq a _ h.reach (h.returns a ha)⟩

theorem ofExcept {r : Except Fault α} {Q : α → Work → Prop} (h : ∀ a, r = .ok a → Q a w) :
    Does p (ofExcept r) w Q := by
  have he := exec_ofExcept r w
  refine ⟨?_, ?_, ?_⟩ <;> rw [he]
  exact h

theorem ofValue {Q : α → Work → Prop} (h : Does .value act w Q) : Does .body act w Q :=
  ⟨h.reach.ofValue, h.depth, h.returns⟩

/-- Only the depth changes on the way in and on the way out. -/
theorem nested {Q : α → Work → Prop}
    (h : Does p act (w.atDepth (w.compiler.depth + 1)) fun a w' => ∀ n, Q a (w'.atDepth n)) :
    Does p (nested act) w Q := by
  by_cases hd : w.compiler.depth < maxNesting
  · have he := exec_nested act hd
    have hin : Reach p w (w.atDepth (w.compiler.depth + 1)) := .single (.pass rfl rfl)
    have hout : ∀ v n, Reach p v (v.atDepth n) := fun v n => .single (.pass rfl rfl)
    refine ⟨?_, ?_, ?_⟩ <;> rw [he]
    · exact hin.trans (h.reach.trans (hout _ _))
    · show _ - 1 = _
      rw [h.depth]
      rfl
    · intro a ha
      exact h.returns a ha _
  · exact of_fault (exec_nested_of_le act (Nat.le_of_not_lt hd))

end Does

end InstallScript.Compile
