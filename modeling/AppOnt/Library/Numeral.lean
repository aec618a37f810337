import Mathlib

/-!
# Decimal texts

Decimal numerals as ASCII bytes, numerals of a fixed width, and `trimmed n d`,
the decimal rendering of `n / 10 ^ d` without trailing zeros. `stripZeros` is
what a program does to a text with a decimal point in order to get there.
-/

/-- The ASCII digit of a number below ten. -/
def asciiDigit (d : Nat) : UInt8 := UInt8.ofNat (48 + d)

def asciiPoint : UInt8 := 46

/-- The decimal numeral of a number, most significant digit first. -/
def numeral (n : Nat) : List UInt8 := (Nat.toDigits 10 n).map fun c => UInt8.ofNat c.toNat

/-- The `w` low digits of a number, with leading zeros. -/
def padded : Nat → Nat → List UInt8
  | 0, _ => []
  | w + 1, n => padded w (n / 10) ++ [asciiDigit (n % 10)]

/-- A list without its trailing zeros. -/
def rtrimZeros (l : List UInt8) : List UInt8 := l.rdropWhile (· == asciiDigit 0)

/-- The digits after the decimal point, without trailing zeros. -/
def fraction (n d : Nat) : List UInt8 := rtrimZeros (padded d n)

/-- The shortest decimal rendering of `n / 10 ^ d`. -/
def trimmed (n d : Nat) : List UInt8 :=
  numeral (n / 10 ^ d) ++ if fraction n d = [] then [] else asciiPoint :: fraction n d

theorem numeral_of_lt {n : Nat} (h : n < 10) : numeral n = [asciiDigit n] := by
  rw [numeral, Nat.toDigits_of_lt_base h]
  revert n
  decide

theorem numeral_of_le {n : Nat} (h : 10 ≤ n) :
    numeral n = numeral (n / 10) ++ [asciiDigit (n % 10)] := by
  have hdigit := numeral_of_lt (Nat.mod_lt n (by decide : 10 > 0))
  rw [numeral, Nat.toDigits_of_lt_base (Nat.mod_lt n (by decide))] at hdigit
  rw [numeral, Nat.toDigits_of_base_le (by decide) h, List.map_append, hdigit]
  rfl

@[simp] theorem numeral_ne_nil (n : Nat) : numeral n ≠ [] := by simp [numeral]

theorem length_numeral_le_iff {n k : Nat} (hk : 0 < k) : (numeral n).length ≤ k ↔ n < 10 ^ k := by
  rw [numeral, List.length_map, Nat.length_toDigits_le_iff (by decide) hk]

theorem length_numeral_mono {m n : Nat} (h : m ≤ n) : (numeral m).length ≤ (numeral n).length := by
  have hpos := List.length_pos_iff.mpr (numeral_ne_nil n)
  have hlt := (length_numeral_le_iff hpos).mp (Nat.le_refl _)
  exact (length_numeral_le_iff hpos).mpr (by omega)

/-- A text behind the numeral of its length is determined: a longer text has no shorter numeral. -/
theorem numeral_length_append_inj {u v : List UInt8}
    (h : numeral u.length ++ u = numeral v.length ++ v) : u = v := by
  have hlen := congrArg List.length h
  rw [List.length_append, List.length_append] at hlen
  have heq : u.length = v.length := by
    rcases Nat.le_total u.length v.length with hle | hle
    · have := length_numeral_mono hle
      omega
    · have := length_numeral_mono hle
      omega
  exact (List.append_inj h (by rw [heq])).2

@[simp] theorem length_padded (w n : Nat) : (padded w n).length = w := by
  induction w generalizing n with
  | zero => rfl
  | succ w ih => simp [padded, ih]

theorem asciiDigit_range {d : Nat} (h : d < 10) :
    asciiDigit d ≠ 0 ∧ asciiDigit d ≠ asciiPoint ∧ (asciiDigit d = asciiDigit 0 ↔ d = 0) := by
  revert d
  decide

theorem mem_padded {w n : Nat} {x : UInt8} (h : x ∈ padded w n) : x ≠ 0 ∧ x ≠ asciiPoint := by
  induction w generalizing n with
  | zero => simp [padded] at h
  | succ w ih =>
    rcases List.mem_append.mp h with h | h
    · exact ih h
    · rw [List.mem_singleton] at h
      have := asciiDigit_range (Nat.mod_lt n (by decide : 10 > 0))
      rw [h]
      exact ⟨this.1, this.2.1⟩

/-- The digits of a numeral fall into those of a quotient and those of a remainder. -/
theorem numeral_split {n d : Nat} (h : 10 ^ d ≤ n) : numeral n = numeral (n / 10 ^ d) ++ padded d n := by
  induction d generalizing n with
  | zero => simp [padded]
  | succ d ih =>
    have hpos : 0 < 10 ^ d := Nat.pow_pos (by decide)
    have hn : 10 ≤ n := by rw [Nat.pow_succ] at h; omega
    have hd : 10 ^ d ≤ n / 10 := by
      rw [Nat.le_div_iff_mul_le (by decide), ← Nat.pow_succ]
      exact h
    rw [numeral_of_le hn, ih hd, padded, Nat.div_div_eq_div_mul, Nat.pow_succ, Nat.mul_comm 10,
      List.append_assoc]

/-- A short numeral is padded with zeros in front. -/
theorem padded_of_lt {n d : Nat} (hd : 0 < d) (h : n < 10 ^ d) :
    padded d n = List.replicate (d - (numeral n).length) (asciiDigit 0) ++ numeral n := by
  induction d generalizing n with
  | zero => omega
  | succ d ih =>
    rw [padded]
    by_cases hn : n < 10
    · have hzero : padded d 0 = List.replicate d (asciiDigit 0) := by
        clear ih h hd
        induction d with
        | zero => rfl
        | succ d ih => rw [padded, Nat.zero_div, ih, ← List.replicate_succ']
      rw [numeral_of_lt hn, Nat.div_eq_of_lt hn, Nat.mod_eq_of_lt hn, hzero]
      simp
    · have hlt : n / 10 < 10 ^ d := by
        rw [Nat.div_lt_iff_lt_mul (by decide), ← Nat.pow_succ]
        exact h
      have hd' : 0 < d := by
        rcases Nat.eq_zero_or_pos d with rfl | hpos
        · omega
        · exact hpos
      rw [ih hd' hlt, numeral_of_le (n := n) (by omega)]
      simp

theorem mem_numeral {n : Nat} {x : UInt8} (h : x ∈ numeral n) : x ≠ 0 ∧ x ≠ asciiPoint := by
  have hd : n < 10 ^ (n + 1) := (Nat.lt_succ_self n).trans (Nat.lt_pow_self (by decide))
  refine mem_padded (w := n + 1) (n := n) ?_
  rw [padded_of_lt (by omega) hd]
  exact List.mem_append_right _ h

/-- The number that a list of ASCII digits denotes. -/
def digitsValue (l : List UInt8) : Nat := l.foldl (fun n b => 10 * n + (b.toNat - 48)) 0

theorem digitsValue_append (u : List UInt8) (b : UInt8) :
    digitsValue (u ++ [b]) = 10 * digitsValue u + (b.toNat - 48) := by
  rw [digitsValue, List.foldl_append]
  rfl

theorem asciiDigit_value {d : Nat} (h : d < 10) : (asciiDigit d).toNat - 48 = d := by
  rw [asciiDigit, UInt8.toNat_ofNat_of_lt' (show 48 + d < 256 by omega), Nat.add_sub_cancel_left]

theorem digitsValue_numeral (n : Nat) : digitsValue (numeral n) = n := by
  induction n using Nat.strong_induction_on with
  | h n ih =>
    have hdigit := asciiDigit_value (Nat.mod_lt n (by decide : 10 > 0))
    rcases Nat.lt_or_ge n 10 with hlt | hle
    · rw [Nat.mod_eq_of_lt hlt] at hdigit
      rw [numeral_of_lt hlt, ← List.nil_append [asciiDigit n], digitsValue_append, hdigit]
      exact Nat.zero_add n
    · rw [numeral_of_le hle, digitsValue_append, ih _ (by omega), hdigit]
      omega

theorem numeral_injective : Function.Injective numeral :=
  Function.LeftInverse.injective digitsValue_numeral

theorem digitsValue_padded (w n : Nat) : digitsValue (padded w n) = n % 10 ^ w := by
  induction w generalizing n with
  | zero => rw [Nat.pow_zero, Nat.mod_one]; rfl
  | succ w ih =>
    rw [padded, digitsValue_append, ih, asciiDigit_value (Nat.mod_lt n (by decide)), Nat.pow_succ',
      Nat.mod_mul]
    omega

theorem rtrimZeros_isPrefix (l : List UInt8) : rtrimZeros l <+: l := List.rdropWhile_prefix _ l

theorem rtrimZeros_getLast (l : List UInt8) (h : rtrimZeros l ≠ []) :
    (rtrimZeros l).getLast h ≠ asciiDigit 0 := by
  simpa [rtrimZeros] using List.rdropWhile_last_not (fun x => x == asciiDigit 0) l h

theorem mem_fraction {n d : Nat} {x : UInt8} (h : x ∈ fraction n d) : x ≠ 0 ∧ x ≠ asciiPoint :=
  mem_padded ((rtrimZeros_isPrefix _).subset h)

/-- As many digits are left of the fraction as its denominator needs. -/
theorem length_fraction_le_iff {n d t : Nat} (ht : t ≤ d) :
    (fraction n d).length ≤ d - t ↔ 10 ^ t ∣ n := by
  induction d generalizing n t with
  | zero =>
    obtain rfl : t = 0 := by omega
    simp [fraction, padded, rtrimZeros]
  | succ d ih =>
    have hdigit := (asciiDigit_range (Nat.mod_lt n (by decide : 10 > 0))).2.2
    rw [fraction, padded, rtrimZeros, List.rdropWhile_concat]
    cases t with
    | zero =>
      have hle := (rtrimZeros_isPrefix (padded d (n / 10))).length_le
      rw [rtrimZeros, length_padded] at hle
      split
      · simpa using by omega
      · simp
    | succ t =>
      have ht' : t ≤ d := by omega
      have hsub : d + 1 - (t + 1) = d - t := by omega
      by_cases hz : n % 10 = 0
      · obtain ⟨m, hm⟩ : 10 ∣ n := Nat.dvd_of_mod_eq_zero hz
        have hdiv : n / 10 = m := by omega
        rw [if_pos (beq_iff_eq.mpr (hdigit.mpr hz)), hsub, hdiv]
        refine (ih ht').trans ?_
        rw [hm, Nat.pow_succ, Nat.mul_comm (10 ^ t) 10]
        exact (Nat.mul_dvd_mul_iff_left (by decide)).symm
      · rw [if_neg (fun h => hz (hdigit.mp (beq_iff_eq.mp h))), hsub]
        constructor
        · intro h
          rw [List.length_append, length_padded, List.length_singleton] at h
          omega
        · intro h
          have : 10 ∣ n := (Nat.dvd_mul_left 10 (10 ^ t)).trans (by rwa [← Nat.pow_succ])
          omega

theorem length_fraction_le (n d : Nat) : (fraction n d).length ≤ d :=
  (length_fraction_le_iff (Nat.zero_le d)).mpr (by simp)

theorem trimmed_zero (n : Nat) : trimmed n 0 = numeral n := by
  simp [trimmed, fraction, padded, rtrimZeros]

theorem zero_not_mem_trimmed (n d : Nat) : (0 : UInt8) ∉ trimmed n d := by
  intro h
  rcases List.mem_append.mp h with h | h
  · exact (mem_numeral h).1 rfl
  · split at h
    · cases h
    · rcases List.mem_cons.mp h with h | h
      · revert h
        decide
      · exact (mem_fraction h).1 rfl

theorem zero_not_mem_numeral (n : Nat) : (0 : UInt8) ∉ numeral n := fun h => (mem_numeral h).1 rfl

theorem length_trimmed_le {n d m : Nat} (hm : 0 < m) (h : n < 10 ^ m) :
    (trimmed n d).length ≤ m + d + 1 := by
  have hint : (numeral (n / 10 ^ d)).length ≤ m :=
    (length_numeral_le_iff hm).mpr (Nat.lt_of_le_of_lt (Nat.div_le_self ..) h)
  have hfrac := length_fraction_le n d
  rw [trimmed, List.length_append]
  split
  · rw [List.length_nil]
    omega
  · rw [List.length_cons]
    omega

/-- A rendering is short when the number is small for the zeros that it ends in. -/
theorem length_trimmed_le_iff {n d k : Nat} (hk : d + 2 ≤ k) :
    (trimmed n d).length ≤ k ↔
      10 ^ d ∣ n ∧ n / 10 ^ d < 10 ^ k ∨ ∃ t < d, 10 ^ t ∣ n ∧ n < 10 ^ (k - 1 + t) := by
  have hpos : 0 < 10 ^ d := Nat.pow_pos (by decide)
  have hfrac : fraction n d = [] ↔ 10 ^ d ∣ n := by
    have := length_fraction_le_iff (n := n) (Nat.le_refl d)
    rwa [Nat.sub_self, Nat.le_zero, List.length_eq_zero_iff] at this
  rw [trimmed, List.length_append]
  by_cases hd : 10 ^ d ∣ n
  · rw [if_pos (hfrac.mpr hd), List.length_nil, Nat.add_zero, length_numeral_le_iff (by omega)]
    refine ⟨fun h => .inl ⟨hd, h⟩, fun h => h.elim And.right fun ⟨t, ht, _, hlt⟩ => ?_⟩
    rw [Nat.div_lt_iff_lt_mul hpos, ← Nat.pow_add]
    exact hlt.trans_le (Nat.pow_le_pow_right (by decide) (by omega))
  · rw [if_neg (mt hfrac.mp hd), List.length_cons]
    have hlen : 0 < (fraction n d).length := List.length_pos_iff.mpr (mt hfrac.mp hd)
    have hle := length_fraction_le n d
    constructor
    · intro h
      -- the fraction needs `d - t` digits, which leaves `k - 1 - (d - t)` for the integer
      obtain ⟨t, hlen, ht⟩ : ∃ t, (fraction n d).length = d - t ∧ t < d :=
        ⟨d - (fraction n d).length, by omega, by omega⟩
      refine .inr ⟨t, ht, (length_fraction_le_iff (Nat.le_of_lt ht)).mp (Nat.le_of_eq hlen), ?_⟩
      have hint : (numeral (n / 10 ^ d)).length ≤ k - 1 - (d - t) := by omega
      have hnum := List.length_pos_iff.mpr (numeral_ne_nil (n / 10 ^ d))
      rw [length_numeral_le_iff (by omega), Nat.div_lt_iff_lt_mul hpos, ← Nat.pow_add] at hint
      rwa [show k - 1 - (d - t) + d = k - 1 + t by omega] at hint
    · rintro (⟨h, -⟩ | ⟨t, ht, hdvd, hlt⟩)
      · exact absurd h hd
      · have hf := (length_fraction_le_iff ht.le).mpr hdvd
        have hint : (numeral (n / 10 ^ d)).length ≤ k - 1 - (d - t) := by
          rw [length_numeral_le_iff (by omega), Nat.div_lt_iff_lt_mul hpos, ← Nat.pow_add,
            show k - 1 - (d - t) + d = k - 1 + t by omega]
          exact hlt
        omega

/-- A text without the zeros that end its fraction, nor the point if nothing else is left. -/
def stripZeros (text : List UInt8) : List UInt8 :=
  match text.span (· != asciiPoint) with
  | (front, _ :: frac) =>
    let t := front ++ asciiPoint :: rtrimZeros frac
    if t.getLast? = some asciiPoint then t.dropLast else t
  | (_, []) => text

theorem span_point {u v : List UInt8} (h : asciiPoint ∉ u) :
    (u ++ asciiPoint :: v).span (· != asciiPoint) = (u, asciiPoint :: v) := by
  have hu : ∀ x ∈ u, (x != asciiPoint) = true := by
    intro x hx
    refine bne_iff_ne.mpr fun he => h ?_
    rwa [← he]
  rw [List.span_eq_takeWhile_dropWhile, List.takeWhile_append_of_pos hu,
    List.dropWhile_append_of_pos hu]
  simp

/-- Stripping an integer followed by a fraction gives the shortest rendering. -/
theorem stripZeros_point (n d : Nat) :
    stripZeros (numeral (n / 10 ^ d) ++ asciiPoint :: padded d n) = trimmed n d := by
  have hfront : asciiPoint ∉ numeral (n / 10 ^ d) := fun h => (mem_numeral h).2 rfl
  rw [stripZeros, span_point hfront, trimmed]
  dsimp only
  rw [← fraction]
  by_cases hf : fraction n d = []
  · simp [hf]
  · have hlast : (numeral (n / 10 ^ d) ++ asciiPoint :: fraction n d).getLast? ≠ some asciiPoint := by
      rw [List.getLast?_append_of_ne_nil _ (by simp), List.getLast?_cons_of_ne_nil hf,
        List.getLast?_eq_some_getLast hf, ne_eq, Option.some.injEq]
      exact (mem_fraction (List.getLast_mem hf)).2
    rw [if_neg hlast, if_neg hf]

theorem stripZeros_of_not_mem {text : List UInt8} (h : asciiPoint ∉ text) : stripZeros text = text := by
  have hspan : text.span (· != asciiPoint) = (text, []) := by
    have hall : ∀ x ∈ text, (x != asciiPoint) = true := fun x hx => bne_iff_ne.mpr fun he => h (he ▸ hx)
    rw [List.span_eq_takeWhile_dropWhile, List.takeWhile_eq_self_iff.mpr hall,
      List.dropWhile_eq_nil_iff.mpr hall]
  rw [stripZeros, hspan]

theorem stripZeros_numeral (n : Nat) : stripZeros (numeral n) = numeral n :=
  stripZeros_of_not_mem fun h => (mem_numeral h).2 rfl

theorem length_stripZeros_le (text : List UInt8) : (stripZeros text).length ≤ text.length := by
  rw [stripZeros, List.span_eq_takeWhile_dropWhile]
  split
  · rename_i front c frac h
    obtain ⟨rfl, hback⟩ := Prod.mk.inj h
    have hlen := congrArg List.length (List.takeWhile_append_dropWhile (p := (· != asciiPoint)) (l := text))
    have hle := (rtrimZeros_isPrefix frac).length_le
    rw [hback, List.length_append, List.length_cons] at hlen
    dsimp only
    split
    · simp
      omega
    · simp
      omega
  · exact Nat.le_refl _
