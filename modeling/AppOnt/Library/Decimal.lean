import AppOnt.Library.Numeral

/-!
# Canonical decimals

What it means for a text to be the canonical decimal of `n / 10 ^ d`, apart
from how it is made. A text is the canonical decimal of one number at most, and
`trimmed n d` is that of `n`.
-/

/-- An ASCII digit. -/
def IsDigit (b : UInt8) : Prop := 48 ≤ b.toNat ∧ b.toNat ≤ 57

instance (b : UInt8) : Decidable (IsDigit b) := inferInstanceAs (Decidable (_ ∧ _))

/-- The canonical decimal of `n / 10 ^ d`: an integer without leading zeros, and after a point, if
any digit is left there, a fraction without trailing zeros. -/
structure DecimalParts (int frac : List UInt8) (d n : Nat) : Prop where
  digits : ∀ b ∈ int ++ frac, IsDigit b
  int_ne_nil : int ≠ []
  no_leading_zero : int.head? = some (asciiDigit 0) → int = [asciiDigit 0]
  no_trailing_zero : frac.getLast? ≠ some (asciiDigit 0)
  length_le : frac.length ≤ d
  value : digitsValue int * 10 ^ d + digitsValue frac * 10 ^ (d - frac.length) = n

def IsDecimal (text : List UInt8) (d n : Nat) : Prop :=
  ∃ int frac, text = int ++ (if frac = [] then [] else asciiPoint :: frac) ∧ DecimalParts int frac d n

theorem isDigit_asciiDigit {k : Nat} (h : k < 10) : IsDigit (asciiDigit k) := by
  rw [IsDigit, asciiDigit, UInt8.toNat_ofNat_of_lt' (show 48 + k < 256 by omega)]
  omega

theorem IsDigit.ne_point {b : UInt8} (h : IsDigit b) : b ≠ asciiPoint := by
  rintro rfl
  exact absurd h.1 (by decide)

/-- A text has one decomposition at its point. -/
theorem parts_eq {int frac : List UInt8} (h : ∀ b ∈ int ++ frac, IsDigit b) :
    let text := int ++ if frac = [] then [] else asciiPoint :: frac
    text.takeWhile (· != asciiPoint) = int ∧ (text.dropWhile (· != asciiPoint)).tail = frac := by
  have hint : ∀ b ∈ int, (b != asciiPoint) = true := fun b hb =>
    bne_iff_ne.mpr (h b (List.mem_append_left _ hb)).ne_point
  dsimp only
  rw [List.takeWhile_append_of_pos hint, List.dropWhile_append_of_pos hint]
  split
  · rename_i hfrac
    simp [hfrac]
  · simp

/-- Different numbers have different texts. -/
theorem IsDecimal.unique {text : List UInt8} {d n n' : Nat} (h : IsDecimal text d n)
    (h' : IsDecimal text d n') : n = n' := by
  obtain ⟨int, frac, ht, hp⟩ := h
  obtain ⟨int', frac', ht', hp'⟩ := h'
  have hparts := parts_eq hp.digits
  have hparts' := parts_eq hp'.digits
  dsimp only at hparts hparts'
  rw [← ht] at hparts
  rw [← ht'] at hparts'
  obtain rfl := hparts.1.symm.trans hparts'.1
  obtain rfl := hparts.2.symm.trans hparts'.2
  exact hp.value.symm.trans hp'.value

theorem digitsValue_replicate (u : List UInt8) (k : Nat) :
    digitsValue (u ++ List.replicate k (asciiDigit 0)) = digitsValue u * 10 ^ k := by
  induction k with
  | zero => rw [List.replicate_zero, List.append_nil, Nat.pow_zero, Nat.mul_one]
  | succ k ih =>
    rw [List.replicate_succ', ← List.append_assoc, digitsValue_append, ih, Nat.pow_succ]
    have hzero : (asciiDigit 0).toNat - 48 = 0 := by decide
    rw [hzero]
    ring

/-- What trimming takes off a list is zeros. -/
theorem rtrimZeros_append (l : List UInt8) :
    l = rtrimZeros l ++ List.replicate (l.length - (rtrimZeros l).length) (asciiDigit 0) := by
  induction l using List.reverseRecOn with
  | nil => rfl
  | append_singleton l b ih =>
    have hle := (rtrimZeros_isPrefix l).length_le
    rw [rtrimZeros] at ih hle ⊢
    rw [List.rdropWhile_concat]
    split
    · rename_i hb
      obtain rfl := beq_iff_eq.mp hb
      conv_lhs => rw [ih]
      rw [List.append_assoc, ← List.replicate_succ', List.length_append, List.length_singleton]
      congr 2
      omega
    · simp

theorem isDigit_of_mem_padded {w n : Nat} {b : UInt8} (h : b ∈ padded w n) : IsDigit b := by
  induction w generalizing n with
  | zero => cases h
  | succ w ih =>
    rcases List.mem_append.mp h with h | h
    · exact ih h
    · rw [List.mem_singleton.mp h]
      exact isDigit_asciiDigit (Nat.mod_lt _ (by decide))

theorem isDigit_of_mem_numeral {n : Nat} {b : UInt8} (h : b ∈ numeral n) : IsDigit b := by
  have hn : n < 10 ^ (n + 1) := (Nat.lt_succ_self n).trans (Nat.lt_pow_self (by decide))
  refine isDigit_of_mem_padded (w := n + 1) (n := n) ?_
  rw [padded_of_lt (by omega) hn]
  exact List.mem_append_right _ h

theorem numeral_head {n : Nat} (h : (numeral n).head? = some (asciiDigit 0)) :
    numeral n = [asciiDigit 0] := by
  induction n using Nat.strong_induction_on with
  | h n ih =>
    rcases Nat.lt_or_ge n 10 with hlt | hle
    · rw [numeral_of_lt hlt] at h ⊢
      exact congrArg (· :: []) (Option.some.inj h)
    · -- a leading zero would make the quotient by ten zero
      rw [numeral_of_le hle, List.head?_append_of_ne_nil _ (numeral_ne_nil _)] at h
      have hzero := congrArg digitsValue (ih _ (by omega) h)
      rw [digitsValue_numeral, show digitsValue [asciiDigit 0] = 0 by decide] at hzero
      omega

theorem trimmed_isDecimal (n d : Nat) : IsDecimal (trimmed n d) d n := by
  refine ⟨numeral (n / 10 ^ d), fraction n d, rfl, ?_, numeral_ne_nil _, numeral_head, ?_,
    length_fraction_le n d, ?_⟩
  · intro b hb
    rcases List.mem_append.mp hb with hb | hb
    · exact isDigit_of_mem_numeral hb
    · exact isDigit_of_mem_padded ((rtrimZeros_isPrefix _).subset hb)
  · intro hlast
    have hne : fraction n d ≠ [] := by
      intro hnil
      rw [hnil] at hlast
      cases hlast
    rw [List.getLast?_eq_some_getLast hne] at hlast
    exact rtrimZeros_getLast _ hne (Option.some.inj hlast)
  · have hfrac := congrArg digitsValue (rtrimZeros_append (padded d n))
    rw [digitsValue_padded, digitsValue_replicate, length_padded] at hfrac
    rw [digitsValue_numeral, fraction, ← hfrac]
    exact Nat.div_add_mod' n (10 ^ d)
