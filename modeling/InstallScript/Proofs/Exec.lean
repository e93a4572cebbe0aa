import InstallScript.Compile.Statement

/-!
Running an action of the compiler. An action gives a result or a fault, and in both cases a state;
the equations here say what each way of putting actions together does to the two.
-/

namespace InstallScript

/-- The same work at another depth of nesting. -/
def Work.atDepth (w : Work) (n : Nat) : Work := { w with compiler := { w.compiler with depth := n } }

namespace Compile

/-- What an action gives, and the work it leaves. -/
def exec (act : Compile α) (w : Work) : Except Fault α × Work := (ExceptT.run act).run w

variable {act : Compile α} {k : α → Compile β} {w w' : Work} {a : α} {f : Fault}

theorem exec_pure (a : α) (w : Work) : exec (pure a) w = (.ok a, w) := rfl

theorem exec_fail (f : Fault) (w : Work) : exec (fail f : Compile α) w = (.error f, w) := rfl

theorem exec_bind (act : Compile α) (k : α → Compile β) (w : Work) :
    exec (act >>= k) w = match exec act w with
      | (.ok a, w') => exec (k a) w'
      | (.error f, w') => (.error f, w') := by
  show (ExceptT.bindCont k (exec act w).1 : StateM Work _) (exec act w).2 = _
  rcases exec act w with ⟨_ | _, _⟩ <;> rfl

theorem exec_bind_ok (h : exec act w = (.ok a, w')) : exec (act >>= k) w = exec (k a) w' := by
  rw [exec_bind, h]

theorem exec_bind_error (h : exec act w = (.error f, w')) :
    exec (act >>= k) w = (.error f, w') := by
  rw [exec_bind, h]

theorem exec_ofExcept (r : Except Fault α) (w : Work) : exec (ofExcept r) w = (r, w) := by
  cases r <;> rfl

/-! ### Reading the work -/

theorem exec_get (w : Work) : exec get w = (.ok w, w) := rfl

theorem exec_declarations (w : Work) : exec declarations w = (.ok w.compiler.declarations, w) := rfl

theorem exec_current (w : Work) : exec current w = (.ok w.compiler.current, w) := rfl

theorem exec_scope (w : Work) : exec scope w = (.ok w.compiler.scope, w) := rfl

theorem exec_tail (w : Work) : exec tail w = (.ok w.cursor.tail, w) := rfl

theorem exec_tail_of_cursor {t : Tail} {ts : List Token} (h : w.cursor = ⟨t, ts⟩) :
    exec tail w = (.ok t, w) := by
  rw [exec_tail, h]

theorem exec_hasNext (w : Work) : exec hasNext w = (.ok w.cursor.hasNext, w) := rfl

theorem exec_wordsAhead (w : Work) : exec wordsAhead w = (.ok w.cursor.ahead.length, w) := rfl

/-! ### Nesting -/

/-- Below the bound an action runs one level deeper, and its way back undoes that level. -/
theorem exec_nested (act : Compile α) (h : w.compiler.depth < maxNesting) :
    exec (nested act) w =
      ((exec act (w.atDepth (w.compiler.depth + 1))).1,
        (exec act (w.atDepth (w.compiler.depth + 1))).2.atDepth
          ((exec act (w.atDepth (w.compiler.depth + 1))).2.compiler.depth - 1)) := by
  unfold nested
  rw [exec_bind_ok (exec_get w)]
  simp only [Nat.not_le.mpr h, if_false]
  rfl

theorem exec_nested_ok (h : w.compiler.depth < maxNesting)
    (he : exec act (w.atDepth (w.compiler.depth + 1)) = (.ok a, w'))
    (hd : w'.compiler.depth = w.compiler.depth + 1) :
    exec (nested act) w = (.ok a, w'.atDepth w.compiler.depth) := by
  rw [exec_nested act h, he]
  simp only [hd, Nat.add_sub_cancel]

theorem exec_nested_of_le (act : Compile α) (h : maxNesting ≤ w.compiler.depth) :
    exec (nested act) w = (.error .nesting, w) := by
  unfold nested
  rw [exec_bind_ok (exec_get w)]
  simp only [h, if_true]
  rfl

end Compile

end InstallScript
