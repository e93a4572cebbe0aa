import InstallScript.Proofs.Interpolation
import InstallScript.Proofs.PostOrder
import InstallScript.Proofs.Runs

/-!
Concatenations of words and variables. The compiler writes such a concatenation as one string, without
regard to what its operands mean once they stand together. The string has the value of the
concatenation exactly if no operand captures what follows it (`folding_keeps_value_iff`).
-/

namespace InstallScript

/-- The operand that a word stands for: a variable that can be seen, or a literal. -/
def Compiler.operand? (c : Compiler) (word : Word) : Option Operand :=
  if word.isName then (c.declarations.find? word.name c.current).map .var else some (.ofWord word)

/-- The words of a concatenation without calls: all of them but the last ask for another operand. -/
def isChain : List Token → Bool
  | [] => false
  | [t] => !t.tail.opens && !Compile.continues t.tail
  | t :: u :: ts => !t.tail.opens && Compile.continues t.tail && isChain (u :: ts)

/-- The marks behind a list of words. -/
def lastTail (t : Tail) (ts : List Token) : Tail := ts.getLast?.elim t (·.tail)

theorem lastTail_cons (t : Tail) (u : Token) (ts : List Token) :
    lastTail t (u :: ts) = lastTail u.tail ts := by
  rw [lastTail, lastTail, List.getLast?_cons]
  cases ts.getLast? <;> rfl

theorem opens_of_isChain {t : Token} {ts : List Token} (h : isChain (t :: ts)) :
    t.tail.opens = false := by
  cases ts with
  | nil => simpa using (Bool.and_eq_true_iff.mp h).1
  | cons u ts => simpa using (Bool.and_eq_true_iff.mp (Bool.and_eq_true_iff.mp h).1).1

/-- The names of the variables in the target language. -/
def Declarations.targets (d : Declarations) : List String := d.vars.map (·.target)

namespace Compile

variable {w : Work}

theorem exec_resolve_operand? {word : Word} {x : Operand} (h : w.compiler.operand? word = some x) :
    exec (resolve word) w = (.ok x, w) := by
  unfold Compiler.operand? at h
  unfold resolve
  split at h
  · next hn =>
    obtain ⟨v, hv, rfl⟩ := Option.map_eq_some_iff.mp h
    have hl : exec (lookup word.name) w = (.ok v, w) := by
      unfold lookup
      rw [exec_bind_ok (exec_declarations w), exec_bind_ok (exec_current w), exec_ofExcept,
        Declarations.find, hv]
    rw [if_pos hn, exec_bind_ok hl]
    rfl
  · next hn =>
    cases h
    rw [if_neg hn]
    rfl

/-- The loop takes the operands one by one. -/
theorem exec_chain_words {n : Nat} (call : Word → Compile Operand) (left : Operand) {t : Token}
    {more rest : List Token} {ops : List Operand} (hchain : isChain (t :: more))
    (hops : more.map (w.compiler.operand? ·.word) = ops.map some) (hn : more.length ≤ n)
    (hcur : w.cursor = ⟨t.tail, more ++ rest⟩) :
    exec (chain call n left) w =
      (.ok (ops.foldl Operand.join left), { w with cursor := ⟨lastTail t.tail more, rest⟩ }) := by
  induction more generalizing w t left n ops with
  | nil =>
    cases List.map_eq_nil_iff.mp hops.symm
    have hc : continues w.cursor.tail = false := by
      rw [hcur]
      simpa using (Bool.and_eq_true_iff.mp hchain).2
    unfold chain
    rw [exec_bind_ok (exec_tail w), hc]
    show _ = (_, { w with cursor := ⟨t.tail, [] ++ rest⟩ })
    rw [← hcur]
    rfl
  | cons u more ih =>
    obtain ⟨n, rfl⟩ := Nat.exists_eq_add_one.mpr (Nat.zero_lt_of_lt hn)
    obtain ⟨x, ops, rfl, hx, hops⟩ := List.map_eq_cons_iff.mp hops.symm
    simp only [isChain, Bool.and_eq_true, Bool.not_eq_true'] at hchain
    have hc : continues w.cursor.tail = true := by rw [hcur]; exact hchain.1.2
    have hahead : w.cursor.ahead = u :: (more ++ rest) := by rw [hcur]; rfl
    have he : exec (if u.tail.opens = true then call u.word else resolve u.word)
        { w with cursor := ⟨u.tail, more ++ rest⟩ } =
          (.ok x, { w with cursor := ⟨u.tail, more ++ rest⟩ }) := by
      rw [opens_of_isChain hchain.2]
      exact exec_resolve_operand? hx.symm
    rw [chain, exec_bind_ok (exec_tail w), hc]
    show exec (nextWord >>= _) w = _
    rw [exec_bind_ok (exec_nextWord_cons hahead)]
    refine (exec_bind_ok (exec_tail_of_cursor rfl)).trans ((exec_ite_bind _ _ _ _ _).trans ?_)
    rw [exec_bind_ok he, lastTail_cons]
    exact ih (w := { w with cursor := ⟨u.tail, more ++ rest⟩ }) _ hchain.2 hops.symm
      (Nat.le_of_succ_le_succ hn) rfl

theorem exec_expression_words {n : Nat} {t : Token} {more rest : List Token} {x : Operand}
    {ops : List Operand} (hd : w.compiler.depth < maxNesting) (hmore : more ≠ [])
    (hchain : isChain (t :: more))
    (hops : (t :: more).map (w.compiler.operand? ·.word) = (x :: ops).map some)
    (hcur : w.cursor = ⟨t.tail, more ++ rest⟩) :
    exec (expression (n + 1) t.word) w =
      (.ok (ops.foldl Operand.join x), { w with cursor := ⟨lastTail t.tail more, rest⟩ }) := by
  obtain ⟨hx, hops⟩ := List.cons.inj hops
  have hjoins : t.tail.joins = true := by
    obtain ⟨u, us, rfl⟩ := List.exists_cons_of_ne_nil hmore
    have hc := (Bool.and_eq_true_iff.mp (Bool.and_eq_true_iff.mp hchain).1).2
    exact (Bool.and_eq_true_iff.mp (Bool.and_eq_true_iff.mp hc).1).1
  have hlen : more.length ≤ w.cursor.ahead.length := by
    rw [hcur, List.length_append]
    exact Nat.le_add_right _ _
  have hloop := exec_chain_words (w := w.atDepth (w.compiler.depth + 1)) (heldCall (arguments n)) x
    hchain hops hlen hcur
  have hback : ((w.atDepth (w.compiler.depth + 1)).compiler).depth = w.compiler.depth + 1 := rfl
  refine exec_nested_ok hd (Eq.trans ?_ hloop) hback
  rw [exec_bind_ok (exec_tail_of_cursor (w := w.atDepth (w.compiler.depth + 1)) hcur),
    opens_of_isChain hchain, hjoins]
  show exec (resolve t.word >>= _) _ = _
  rw [exec_bind_ok (exec_resolve_operand? (w := w.atDepth (w.compiler.depth + 1)) hx)]
  exact exec_bind_ok (exec_wordsAhead _)

theorem bare_foldl_join (x : Operand) (ops : List Operand) :
    (ops.foldl Operand.join x).bare = String.join ((x :: ops).map Operand.bare) := by
  induction ops generalizing x with
  | nil => simp [String.join_cons]
  | cons y ops ih =>
    rw [List.foldl_cons, ih]
    simp only [List.map_cons, String.join_cons, Operand.bare_join, String.append_assoc]

theorem write_foldl_join (x : Operand) {ops : List Operand} (h : ops ≠ []) :
    (ops.foldl Operand.join x).write = Text.quote (ops.foldl Operand.join x).bare := by
  obtain ⟨ops, y, rfl⟩ := List.eq_nil_or_concat' ops |>.resolve_left h
  rw [List.foldl_append]
  rfl

end Compile

/-- A concatenation of literals and variables compiles to one string, whatever is declared, and takes
its words and no others. The string has in every store the value of the operands one by one exactly if
no operand, with those before it, captures what follows. -/
theorem folding_keeps_value_iff {w : Work} {n : Nat} {t : Token} {more rest : List Token}
    {ops : List Operand} (hdepth : w.compiler.depth < Compile.maxNesting) (hmore : more ≠ [])
    (hchain : isChain (t :: more))
    (hops : (t :: more).map (w.compiler.operand? ·.word) = ops.map some)
    (hcursor : w.cursor = ⟨t.tail, more ++ rest⟩) :
    let names := w.declarations.targets
    ∃ x, Compile.exec (Compile.expression (n + 1) t.word) w =
        (.ok x, { w with cursor := ⟨lastTail t.tail more, rest⟩ }) ∧
      x.write = Text.quote x.bare ∧
      ((∀ store, interpolate names store x.bare =
          String.join (ops.map fun y => interpolate names store y.bare)) ↔
        ∀ i, ¬Captures names (String.join ((ops.take i).map Operand.bare)).toList
          (String.join ((ops.drop i).map Operand.bare)).toList) := by
  intro names
  obtain ⟨x, ops, rfl, hx, htail⟩ := List.map_eq_cons_iff.mp hops.symm
  have hne : ops ≠ [] := by
    rintro rfl
    exact hmore (List.map_eq_nil_iff.mp htail.symm)
  refine ⟨_, Compile.exec_expression_words hdepth hmore hchain hops hcursor,
    Compile.write_foldl_join x hne, ?_⟩
  rw [Compile.bare_foldl_join]
  have hiff := interpolate_join_iff names ((x :: ops).map Operand.bare)
  simp only [List.map_take, List.map_drop, List.map_map, Function.comp_def] at hiff ⊢
  exact hiff

/-- A script in which the name of a variable goes on in the text behind it. -/
def capturingScript : List String := ["Var x\nVar xb", "y = \"a\" & x & \"b\""]

/-- The compiler once the variables are declared. -/
def capturing : Compiler := ((Compiler.start true).steps (program (capturingScript.take 1))).2

theorem folding_keeps_value_iff_of_capture :
    let first : Token := ⟨⟨.quoted, "\"a\""⟩, { joins := true }⟩
    let more : List Token := [⟨⟨.name, "x"⟩, { joins := true }⟩, ⟨⟨.quoted, "\"b\""⟩, {}⟩]
    let ops : List Operand := [.literal "\"a\"", .var ⟨"x", .global, none⟩, .literal "\"b\""]
    let w : Work := { compiler := capturing, cursor := ⟨first.tail, more⟩ }
    let names := capturing.declarations.targets
    (w.compiler.depth < Compile.maxNesting ∧ more ≠ [] ∧ isChain (first :: more) ∧
      (first :: more).map (w.compiler.operand? ·.word) = ops.map some) ∧
    ∃ x, Compile.exec (Compile.value first.word) w = (.ok x, { w with cursor := ⟨{}, []⟩ }) ∧
      x.write = Text.quote x.bare ∧
      ¬∀ store, interpolate names store x.bare =
        String.join (ops.map fun y => interpolate names store y.bare) := by
  intro first more ops w names
  have h : w.compiler.depth < Compile.maxNesting ∧ more ≠ [] ∧ isChain (first :: more) ∧
      (first :: more).map (w.compiler.operand? ·.word) = ops.map some := by decide +kernel
  refine ⟨h, ?_⟩
  obtain ⟨x, hx, hwrite, hiff⟩ := folding_keeps_value_iff (n := Compile.maxNesting) h.1
    h.2.1 h.2.2.1 h.2.2.2 (rfl : w.cursor = ⟨first.tail, more ++ []⟩)
  refine ⟨x, hx, hwrite, fun hall => hiff.mp hall 2 ?_⟩
  exact ⟨['a'], ['x'], ['b'], by decide +kernel, by decide, by decide +kernel, by decide, by decide +kernel⟩

/-- The text between two others is a variable, and what is written is another one. -/
theorem folding_captures_text :
    let c := (capturing.steps (program (capturingScript.drop 1))).2
    let store := fun name => if name = "x" then "mid" else ""
    (capturing.steps (program (capturingScript.drop 1))).1.map (·.result.toOption) =
        [some (.text "Var /GLOBAL y\r\nStrCpy $y \"a$xb\"")] ∧
      interpolate c.declarations.targets store "a$xb" = "a" ∧
      interpolate c.declarations.targets store "a" ++ interpolate c.declarations.targets store "$x" ++
        interpolate c.declarations.targets store "b" = "amidb" := by
  decide +kernel

end InstallScript
