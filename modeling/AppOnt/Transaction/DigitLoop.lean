import AppOnt.Transaction.Amount

/-!
# The digit loop

The loop of `format_u128`, iteration by iteration: the words after `k` iterations are
those of the number divided by `10 ^ k`, no product or sum of an iteration loses a
carry, and the loop ends after as many iterations as there are digits.
-/
namespace AppOnt

/-- The two words when the loop has run `k` times. -/
def u128Words (high low : Nat) : Nat → Nat × Nat
  | 0 => (high, low)
  | k + 1 =>
    let words := u128Words high low k
    ((u128Step words.1 words.2).1, (u128Step words.1 words.2).2.1)

/-- The number that the two words make. -/
def u128Value (high low : Nat) : Nat := high * 2 ^ 64 + low

/-- An iteration is exact. -/
structure ExactStep (high low : Nat) : Prop where
  part_q : high % 10 * p64Q < 2 ^ 64
  part_r : high % 10 * p64R + low % 10 < 2 ^ 64
  /-- The sum of the low parts, with what is carried to the high word. -/
  carry : ∃ sumHigh, (u128Step high low).1 = high / 10 + sumHigh ∧
    high % 10 * p64Q + low / 10 + (high % 10 * p64R + low % 10) / 10 =
      sumHigh * 2 ^ 64 + (u128Step high low).2.1
  quotient : u128Value (u128Step high low).1 (u128Step high low).2.1 = u128Value high low / 10
  remainder : (u128Step high low).2.2 = u128Value high low % 10
  high_lt : (u128Step high low).1 < 2 ^ 64
  low_lt : (u128Step high low).2.1 < 2 ^ 64

section
variable {high low : Nat}

theorem u128Step_exact (hh : high < 2 ^ 64) (hl : low < 2 ^ 64) : ExactStep high low := by
  obtain ⟨hq, hr, hh', hl'⟩ := u128Step_eq hh hl
  have hparts : (high * 2 ^ 64 + low) / 10 =
      high / 10 * 2 ^ 64 + (high % 10 * p64Q + low / 10 + (high % 10 * p64R + low % 10) / 10) := by
    rw [p64Q, p64R]
    omega
  refine ⟨?_, ?_, ⟨(u128Step high low).1 - high / 10, ?_, ?_⟩, hq, hr, hh', hl'⟩
  · rw [p64Q]
    omega
  · rw [p64R]
    omega
  · omega
  · omega

/-- The words stay words, of the number divided by ten again and again. -/
theorem u128Words_spec (hh : high < 2 ^ 64) (hl : low < 2 ^ 64) (k : Nat) :
    (u128Words high low k).1 < 2 ^ 64 ∧ (u128Words high low k).2 < 2 ^ 64 ∧
      u128Value (u128Words high low k).1 (u128Words high low k).2 = u128Value high low / 10 ^ k := by
  induction k with
  | zero => exact ⟨hh, hl, (Nat.div_one _).symm⟩
  | succ k ih =>
    obtain ⟨hh', hl', heq⟩ := ih
    have hstep := u128Step_exact hh' hl'
    refine ⟨hstep.high_lt, hstep.low_lt, ?_⟩
    rw [show 10 ^ (k + 1) = 10 ^ k * 10 from Nat.pow_succ .., ← Nat.div_div_eq_div_mul, ← heq]
    exact hstep.quotient

/-- The number of iterations. -/
def u128Count (n : Nat) : Nat := if n = 0 then 0 else (numeral n).length

theorem u128Count_le_iff {n k : Nat} : u128Count n ≤ k ↔ n / 10 ^ k = 0 := by
  have hpow : 10 ^ k > 0 := Nat.pow_pos (by decide)
  rw [u128Count, Nat.div_eq_zero_iff_lt hpow]
  split
  · rename_i hn
    simp [hn]
  · rename_i hn
    cases k with
    | zero => simp [hn]
    | succ k => exact length_numeral_le_iff (Nat.succ_pos k)

theorem u128Words_eq_zero_iff (hh : high < 2 ^ 64) (hl : low < 2 ^ 64) (k : Nat) :
    u128Words high low k = (0, 0) ↔ u128Count (u128Value high low) ≤ k := by
  obtain ⟨-, -, heq⟩ := u128Words_spec hh hl k
  rw [u128Count_le_iff, ← heq, Prod.ext_iff, u128Value]
  omega

/-- As long as there are words the loop goes on, and stores the remainder in front of the text. -/
theorem u128Digits_words {k index : Nat} (hne : ∀ j < k, u128Words high low j ≠ (0, 0)) :
    u128Digits (index + k) high low [] = u128Digits index (u128Words high low k).1 (u128Words high low k).2
      ((List.range k).map fun j =>
        asciiDigit (u128Step (u128Words high low j).1 (u128Words high low j).2).2.2).reverse := by
  induction k generalizing index with
  | zero => rfl
  | succ k ih =>
    have hk := hne k (Nat.lt_succ_self k)
    rw [← Nat.add_assoc, Nat.add_right_comm, ih fun j hj => hne j (by omega), u128Digits, if_pos]
    · rw [List.range_succ, List.map_append, List.reverse_append]
      rfl
    · rw [ne_eq, Prod.ext_iff] at hk
      omega

/-- The loop on two words: each iteration divides exactly, there are as many of them as digits, and
the text is written where there is room for it and its NUL. -/
theorem formatU128_exact (hh : high < 2 ^ 64) (hl : low < 2 ^ 64) (bufferSize : Nat) :
    (∀ k, u128Value (u128Words high low k).1 (u128Words high low k).2 = u128Value high low / 10 ^ k ∧
      ExactStep (u128Words high low k).1 (u128Words high low k).2) ∧
    (∀ k, u128Words high low k = (0, 0) ↔ u128Count (u128Value high low) ≤ k) ∧
    u128Count (u128Value high low) ≤ 39 ∧
    u128Digits (uint128MaxLength - 1) high low [] = .ok ((List.range (u128Count (u128Value high low))).map
      fun k => asciiDigit (u128Value high low / 10 ^ k % 10)).reverse ∧
    formatU128 high low bufferSize = .ok (if bufferSize < (numeral (u128Value high low)).length + 1 then none
      else some (numeral (u128Value high low))) := by
  have hcount : u128Count (u128Value high low) ≤ 39 := by
    rw [u128Count_le_iff, u128Value]
    omega
  refine ⟨?_, u128Words_eq_zero_iff hh hl, hcount, ?_, formatU128_eq hh hl bufferSize⟩
  · intro k
    obtain ⟨hh', hl', heq⟩ := u128Words_spec hh hl k
    exact ⟨heq, u128Step_exact hh' hl'⟩
  · have hend := (u128Words_eq_zero_iff hh hl _).mpr (Nat.le_refl _)
    have hindex : uint128MaxLength - 1 =
        39 - u128Count (u128Value high low) + u128Count (u128Value high low) := by
      rw [uint128MaxLength]
      omega
    rw [hindex, u128Digits_words, hend]
    · have hdigit (k : Nat) : (u128Step (u128Words high low k).1 (u128Words high low k).2).2.2 =
          u128Value high low / 10 ^ k % 10 := by
        obtain ⟨hh', hl', heq⟩ := u128Words_spec hh hl k
        rw [(u128Step_exact hh' hl').remainder, heq]
      simp only [hdigit]
      cases 39 - u128Count (u128Value high low) <;> rfl
    · intro j hj hzero
      exact Nat.not_le.mpr hj ((u128Words_eq_zero_iff hh hl j).mp hzero)

end

/-- The greatest number fills the scratch buffer. -/
theorem formatU128_exact_sample :
    u128Count (2 ^ 128 - 1) = 39 ∧
      formatU128 (2 ^ 64 - 1) (2 ^ 64 - 1) 39 = .ok none ∧
      formatU128 (2 ^ 64 - 1) (2 ^ 64 - 1) 40 = .ok (some (chars "340282366920938463463374607431768211455")) := by
  have hlt : 2 ^ 64 - 1 < 2 ^ 64 := by decide
  have hn : u128Value (2 ^ 64 - 1) (2 ^ 64 - 1) = 2 ^ 128 - 1 := by decide
  have hnumeral : numeral (2 ^ 128 - 1) = chars "340282366920938463463374607431768211455" := by decide +kernel
  obtain ⟨-, -, -, -, hsmall⟩ := formatU128_exact hlt hlt 39
  obtain ⟨-, -, -, -, hlarge⟩ := formatU128_exact hlt hlt 40
  rw [hn, hnumeral] at hsmall hlarge
  refine ⟨?_, hsmall, hlarge⟩
  rw [u128Count, hnumeral]
  rfl

end AppOnt
