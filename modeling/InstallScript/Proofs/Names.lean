import InstallScript.Callee.Catalogue

/-!
Names of the compiler and names of a script. The names that are generated differ from each other and
from the names of the shared variables, and none of these is a name that a script may declare.
-/

namespace InstallScript

namespace Text

/-- A small letter, a digit or a mark of ASCII is its own lower case. -/
def isSettled (c : Char) : Bool := c.toNat < 0x80 && c.toLower = c

theorem lowerChars_append_settled {cs : List Char} (h : ∀ c ∈ cs, isSettled c) (before rest : List Char) :
    lowerChars before (cs ++ rest) = cs ++ lowerChars (cs.reverse ++ before) rest := by
  induction cs generalizing before with
  | nil => rfl
  | cons c cs ih =>
    have hc := h c List.mem_cons_self
    simp only [isSettled, Bool.and_eq_true, decide_eq_true_eq] at hc
    have hs : c ≠ 'Σ' := by
      rintro rfl
      exact absurd hc.1 (by decide)
    rw [List.cons_append, lowerChars, if_neg hs, lowerChar, if_pos hc.1, hc.2,
      ih (fun d hd => h d (List.mem_cons_of_mem _ hd))]
    simp

/-- A capital letter of ASCII. -/
def isCapital (c : Char) : Bool := 0x41 ≤ c.toNat && c.toNat ≤ 0x5A

theorem isCapital_toLower {c : Char} (h : c.toNat < 0x80) : isCapital c.toLower = false := by
  have hall : ∀ n : Fin 0x80, isCapital (Char.ofNat n).toLower = false := by decide
  simpa using hall ⟨c.toNat, h⟩

theorem isCapital_ofNat {n : Nat} (h : 0x5A < n) : isCapital (Char.ofNat n) = false := by
  by_cases hv : n.isValidChar
  · have hn : (Char.ofNat n).toNat = n := by
      unfold Char.ofNat
      rw [dif_pos hv]
      rfl
    simp only [isCapital, hn, Bool.and_eq_false_iff, decide_eq_false_iff_not]
    omega
  · unfold Char.ofNat
    rw [dif_neg hv]
    rfl

/-- No run of the table leads to a letter of ASCII. -/
theorem isCapital_shifted {c : Char} (h : 0x5A < c.toNat) : isCapital (shifted lowerRuns c) = false := by
  have hruns : ∀ r ∈ lowerRuns, 0x5A < (r.first : Int) + r.offset := by decide +kernel
  unfold shifted
  split
  · next r hr =>
    have hmem := hruns r (List.mem_of_find?_eq_some hr)
    have hcov := List.find?_some hr
    simp only [CaseRun.covers, Bool.and_eq_true, decide_eq_true_eq] at hcov
    exact isCapital_ofNat (by omega)
  · simp only [isCapital, Bool.and_eq_false_iff, decide_eq_false_iff_not]
    omega

theorem isCapital_lowerChar {c d : Char} (h : d ∈ lowerChar c) : isCapital d = false := by
  unfold lowerChar at h
  split at h
  · next hc =>
    rw [List.mem_singleton.mp h]
    exact isCapital_toLower hc
  · next hc =>
    split at h
    · simp only [List.mem_cons, List.not_mem_nil, or_false] at h
      rcases h with rfl | rfl <;> decide
    · rw [List.mem_singleton.mp h]
      exact isCapital_shifted (by omega)

/-- A text in lower case has no capital letter of ASCII. -/
theorem isCapital_lowerChars {before cs : List Char} {d : Char} (h : d ∈ lowerChars before cs) :
    isCapital d = false := by
  induction cs generalizing before with
  | nil => cases h
  | cons c cs ih =>
    rw [lowerChars] at h
    rcases List.mem_append.mp h with h | h
    · split at h
      · split at h <;>
        · rw [List.mem_singleton.mp h]
          decide
      · exact isCapital_lowerChar h
    · exact ih h

end Text

namespace Names

theorem toList_generated (n : Nat) : (generated n).toList = reserved.toList ++ Nat.toDigits 10 n := by
  rw [generated, String.toList_append]
  exact congrArg _ Nat.toList_repr

theorem generated_inj {m n : Nat} (h : generated m = generated n) : m = n := by
  have hd : Nat.toDigits 10 m = Nat.toDigits 10 n := by
    have := congrArg String.toList h
    rw [toList_generated, toList_generated] at this
    exact List.append_cancel_left this
  rw [← Nat.ofDigitChars_ten_toDigits (n := m), hd, Nat.ofDigitChars_ten_toDigits]

/-- After the common beginning a generated name has digits only. -/
theorem generated_ne_append {s : String} (h : ∃ c ∈ s.toList, c.isDigit = false) (n : Nat) :
    generated n ≠ reserved ++ s := by
  intro he
  obtain ⟨c, hc, hd⟩ := h
  have ht := congrArg String.toList he
  rw [toList_generated, String.toList_append] at ht
  rw [← List.append_cancel_left ht] at hc
  have := Nat.isDigit_of_mem_toDigits (by decide) (by decide) hc
  rw [hd] at this
  exact Bool.noConfusion this

theorem generated_ne_returnRegister (n : Nat) : generated n ≠ returnRegister.name :=
  generated_ne_append ⟨'r', by decide, by decide⟩ n

theorem generated_ne_discarded (n : Nat) : generated n ≠ discarded.name :=
  generated_ne_append ⟨'n', by decide, by decide⟩ n

theorem discarded_ne_returnRegister : discarded.name ≠ returnRegister.name := by decide

theorem isReserved_append (s : String) : isReserved (reserved ++ s) = true := by
  have hs : ∀ c ∈ reserved.toList, Text.isSettled c := List.all_eq_true.mp (by decide)
  rw [isReserved, Text.lower, String.toList_append, String.toList_ofList,
    Text.lowerChars_append_settled hs, List.isPrefixOf_iff_prefix]
  exact List.prefix_append _ _

theorem isReserved_generated (n : Nat) : isReserved (generated n) = true := isReserved_append _

theorem isReserved_returnRegister : isReserved returnRegister.name = true := isReserved_append _

theorem isReserved_discarded : isReserved discarded.name = true := isReserved_append _

theorem ne_of_not_reserved {s t : String} (hs : isReserved s = false)
    (ht : isReserved t = true) : s ≠ t := by
  rintro rfl
  rw [hs] at ht
  exact Bool.noConfusion ht

/-- The variables of the target language have no reserved names. -/
theorem isReserved_of_mem_catalogue {v : Variable} (h : v ∈ Catalogue.vars) :
    isReserved v.name = false := by
  have hall : ∀ v ∈ Catalogue.vars, isReserved v.name = false := by decide +kernel
  exact hall v h

theorem check_eq_ok {name : String} (h : check name = .ok ()) : isReserved name = false := by
  unfold check at h
  split at h
  · cases h
  · next hr => exact Bool.eq_false_iff.mpr hr

end Names

end InstallScript
