import AppOnt.Library.Numeral
import AppOnt.Transaction.Reads

/-!
# Amounts as text

The conversions of `utils.c` from a stored amount to its decimal text. A
conversion returns the bytes that it writes to its output, closing NULs
included, or `none` where it fails. Numbers of two words are divided by ten on
64 bits; `u128Digits_eq` says that the carries come out right.
-/
namespace AppOnt

def uint128MaxLength : Nat := 40

/-- `2 ^ 64 % 10` and `2 ^ 64 / 10`. -/
def p64R : Nat := 6
def p64Q : Nat := 1844674407370955161

/-- The number with its decimal point. -/
def insertPoint (input : List UInt8) (precision : Nat) : List UInt8 :=
  if precision ≥ input.length then
    asciiDigit 0 :: asciiPoint :: List.replicate (precision - input.length) (asciiDigit 0) ++ input
  else if precision = 0 then input
  else input.take (input.length - precision) ++ asciiPoint :: input.drop (input.length - precision)

def processPrecision (input : List UInt8) (precision outputLen : Nat) : Option (List UInt8) :=
  let len := input.length
  let maxLen := len + if precision > len then precision - len + 2 else 1
  if outputLen = 0 ∨ len = 0 ∨ maxLen + 1 > outputLen then none
  else
    let text := insertPoint input precision
    -- a zero that is removed is overwritten by a NUL
    some (stripZeros text ++ List.replicate (text.length - (stripZeros text).length + 1) 0)

/-- The two words of an amount, the low one first. -/
def convertParamsToUint128Le (raw : List UInt8) (amount : TxParameter) (hasPrefix : Bool) :
    Except Fault (Option (Nat × Nat)) := do
  if (amount.type ≠ .amount ∧ amount.type ≠ .uint128) ∨
      (amount.type = .amount ∧ (!hasPrefix ∨ amount.len > 2 * 8 + 1)) ∨
      (amount.type = .uint128 ∧ (hasPrefix ∨ amount.len ≠ 2 * 8)) ∨ amount.len = 0 then
    return none
  let prefixLen := if hasPrefix then 1 else 0
  let highLen := if amount.len > 8 + prefixLen then amount.len - 8 - prefixLen else 0
  if hasPrefix ∧ highLen = 0 then
    return (← convertParamToUint64Le raw amount).map fun low => (low, 0)
  else
    match ← convertBytesToUint64Le raw (amount.data.map (· + prefixLen)) 8 with
    | none => return none
    | some low =>
      return (← convertBytesToUint64Le raw (amount.data.map (· + prefixLen + 8)) highLen).map
        fun high => (low, high)

/-- The body of the loop of `format_u128`: the words of the quotient by ten, and the remainder. -/
def u128Step (high low : Nat) : Nat × Nat × Nat :=
  let highPartQ := high % 10 * p64Q % 2 ^ 64
  let highPartR := high % 10 * p64R % 2 ^ 64
  let currQ := (highPartR + low % 10) / 10
  let currR := (highPartR + low % 10) % 10
  let sumLow := (highPartQ + low / 10) % 2 ^ 64
  let sumHigh := if sumLow < low / 10 then 1 else 0
  let sumLow' := (sumLow + currQ) % 2 ^ 64
  let sumHigh' := if sumLow' < currQ then sumHigh + 1 else sumHigh
  (high / 10 + sumHigh', sumLow', currR)

/-- The loop of `format_u128`, with the digits that are already in the buffer from `index` on. -/
def u128Digits : Nat → Nat → Nat → List UInt8 → Except Fault (List UInt8)
  | 0, high, low, text => if high ≠ 0 ∨ low ≠ 0 then throw (.text 0) else return text
  | index + 1, high, low, text =>
    if high ≠ 0 ∨ low ≠ 0 then
      let (high', low', digit) := u128Step high low
      u128Digits index high' low' (asciiDigit digit :: text)
    else
      return text

/-- The text without its closing NUL. -/
def formatU128 (high low bufferSize : Nat) : Except Fault (Option (List UInt8)) := do
  let index := uint128MaxLength - 1
  let text ← if high = 0 ∧ low = 0 then u128Digits (index - 1) high low [asciiDigit 0]
    else u128Digits index high low []
  return if bufferSize < text.length + 1 then none else some text

def formatFpu128Trimmed (dstLen low high decimals : Nat) : Except Fault (Option (List UInt8)) := do
  if decimals > uint128MaxLength - 1 then
    return none
  else
    return (← formatU128 high low uint128MaxLength).bind fun text =>
      processPrecision text decimals dstLen

def convertParamAmountToChars (raw : List UInt8) (param : TxParameter) (decimals : Nat)
    (hasPrefix : Bool) (amountLen : Nat) : Except Fault (Option (List UInt8)) := do
  if (param.type ≠ .amount ∧ param.type ≠ .uint128) ∨ ¬ (hasPrefix ∨ param.len = 2 * 8) then
    return none
  else
    match ← convertParamsToUint128Le raw param hasPrefix with
    | none => return none
    | some (low, high) => formatFpu128Trimmed amountLen low high decimals

theorem length_insertPoint_le (input : List UInt8) (precision : Nat) :
    (insertPoint input precision).length ≤ max input.length precision + 2 := by
  unfold insertPoint
  split
  · simp
    omega
  · split
    · omega
    · simp
      omega

theorem stripZeros_insertPoint (n d : Nat) : stripZeros (insertPoint (numeral n) d) = trimmed n d := by
  have hpos := List.length_pos_iff.mpr (numeral_ne_nil n)
  unfold insertPoint
  split
  · -- the integer part is zero
    rename_i hle
    have hd : 0 < d := by omega
    have hlt : n < 10 ^ d := (length_numeral_le_iff hd).mp hle
    rw [← stripZeros_point, Nat.div_eq_of_lt hlt, numeral_of_lt (by decide : 0 < 10),
      padded_of_lt hd hlt]
    rfl
  · rename_i hgt
    split
    · rename_i hd
      rw [hd, stripZeros_numeral, trimmed_zero]
    · rename_i hd
      have hge : 10 ^ d ≤ n := by
        by_contra hlt
        exact hgt ((length_numeral_le_iff (by omega)).mpr (by omega))
      have hsplit := numeral_split hge
      have hint : (numeral n).length - d = (numeral (n / 10 ^ d)).length := by
        rw [hsplit, List.length_append, length_padded]
        omega
      rw [hint, hsplit, List.take_left, List.drop_left, stripZeros_point]

theorem length_trimmed_le_max (n d : Nat) :
    (trimmed n d).length ≤ max (numeral n).length d + 2 := by
  rw [← stripZeros_insertPoint]
  exact (length_stripZeros_le _).trans (length_insertPoint_le _ _)

/-- A numeral in a buffer that is long enough becomes the shortest rendering. -/
theorem processPrecision_numeral {n d outputLen : Nat}
    (h : max (numeral n).length d + 3 ≤ outputLen) :
    ∃ k, processPrecision (numeral n) d outputLen = some (trimmed n d ++ List.replicate (k + 1) 0) ∧
      (trimmed n d).length + (k + 1) ≤ outputLen := by
  have hpos := List.length_pos_iff.mpr (numeral_ne_nil n)
  have hlen := length_insertPoint_le (numeral n) d
  have hle := length_stripZeros_le (insertPoint (numeral n) d)
  rw [stripZeros_insertPoint] at hle
  refine ⟨(insertPoint (numeral n) d).length - (trimmed n d).length, ?_, by omega⟩
  simp only [processPrecision]
  rw [if_neg (by split <;> omega), stripZeros_insertPoint]

/-- A sum on 64 bits with the carry that the comparison finds. -/
theorem add_carry {a b : Nat} (ha : a < 2 ^ 64) (hb : b < 2 ^ 64) :
    a + b = (if (a + b) % 2 ^ 64 < b then 1 else 0) * 2 ^ 64 + (a + b) % 2 ^ 64 := by
  split <;> omega

/-- One division by ten on two words. -/
theorem u128Step_eq {high low : Nat} (hh : high < 2 ^ 64) (hl : low < 2 ^ 64) :
    (u128Step high low).1 * 2 ^ 64 + (u128Step high low).2.1 = (high * 2 ^ 64 + low) / 10 ∧
      (u128Step high low).2.2 = (high * 2 ^ 64 + low) % 10 ∧
      (u128Step high low).1 < 2 ^ 64 ∧ (u128Step high low).2.1 < 2 ^ 64 := by
  have hq : high % 10 * p64Q % 2 ^ 64 = high % 10 * p64Q := Nat.mod_eq_of_lt (by rw [p64Q]; omega)
  have hr : high % 10 * p64R % 2 ^ 64 = high % 10 * p64R := Nat.mod_eq_of_lt (by rw [p64R]; omega)
  have hcurr : (high % 10 * p64R + low % 10) / 10 < 2 ^ 64 := by rw [p64R]; omega
  have h₁ := add_carry (a := high % 10 * p64Q) (b := low / 10) (by rw [p64Q]; omega) (by omega)
  have h₂ := add_carry (b := (high % 10 * p64R + low % 10) / 10)
    (Nat.mod_lt (high % 10 * p64Q + low / 10) (by decide : 2 ^ 64 > 0)) hcurr
  simp only [u128Step, hq, hr]
  revert h₁ h₂
  generalize (high % 10 * p64Q + low / 10) % 2 ^ 64 = sumLow
  generalize hs : (sumLow + (high % 10 * p64R + low % 10) / 10) % 2 ^ 64 = sumLow'
  have hlt : sumLow' < 2 ^ 64 := hs ▸ Nat.mod_lt _ (by decide)
  simp only [p64Q, p64R]
  split <;> split <;> omega

/-- The digits come out in front of the text, if there is room for them. -/
theorem u128Digits_eq {index high low : Nat} {text : List UInt8} (hh : high < 2 ^ 64)
    (hl : low < 2 ^ 64) (hn : high * 2 ^ 64 + low < 10 ^ index) :
    u128Digits index high low text =
      .ok ((if high * 2 ^ 64 + low = 0 then [] else numeral (high * 2 ^ 64 + low)) ++ text) := by
  induction index generalizing high low text with
  | zero =>
    have h0 : high = 0 ∧ low = 0 := by omega
    simp [u128Digits, h0]
    rfl
  | succ index ih =>
    rw [u128Digits]
    split
    · rename_i hne
      obtain ⟨hq, hr, hh', hl'⟩ := u128Step_eq hh hl
      have hn' : (high * 2 ^ 64 + low) / 10 < 10 ^ index := by
        rw [Nat.div_lt_iff_lt_mul (by decide), ← Nat.pow_succ]
        exact hn
      dsimp only
      rw [ih hh' hl' (by rw [hq]; exact hn'), hq, hr]
      rw [if_neg (show high * 2 ^ 64 + low ≠ 0 by omega)]
      by_cases hten : high * 2 ^ 64 + low < 10
      · rw [if_pos (Nat.div_eq_of_lt hten), numeral_of_lt hten, Nat.mod_eq_of_lt hten]
        rfl
      · rw [if_neg (by omega), numeral_of_le (n := high * 2 ^ 64 + low) (by omega)]
        simp
    · rename_i h0
      have h0' : high = 0 ∧ low = 0 := by omega
      simp [h0']
      rfl

theorem formatU128_eq {high low : Nat} (hh : high < 2 ^ 64) (hl : low < 2 ^ 64) (bufferSize : Nat) :
    formatU128 high low bufferSize = .ok (if bufferSize < (numeral (high * 2 ^ 64 + low)).length + 1
      then none else some (numeral (high * 2 ^ 64 + low))) := by
  rw [formatU128]
  by_cases h0 : high = 0 ∧ low = 0
  · obtain ⟨rfl, rfl⟩ := h0
    rfl
  · rw [if_neg h0, u128Digits_eq hh hl (by simp only [uint128MaxLength]; omega),
      if_neg (by omega), List.append_nil]
    rfl

/-- Two words have at most 39 digits. -/
theorem length_numeral_words {high low : Nat} (hh : high < 2 ^ 64) (hl : low < 2 ^ 64) :
    (numeral (high * 2 ^ 64 + low)).length ≤ 39 := by
  rw [length_numeral_le_iff (by decide)]
  omega

theorem formatFpu128Trimmed_eq {low high d outputLen : Nat} (hh : high < 2 ^ 64) (hl : low < 2 ^ 64)
    (hd : d ≤ 39) (hout : 60 ≤ outputLen) :
    ∃ k, formatFpu128Trimmed outputLen low high d = .ok (some
        (trimmed (high * 2 ^ 64 + low) d ++ List.replicate (k + 1) 0)) ∧
      (trimmed (high * 2 ^ 64 + low) d).length + (k + 1) ≤ outputLen := by
  have hlen := length_numeral_words hh hl
  have hroom : max (numeral (high * 2 ^ 64 + low)).length d + 3 ≤ outputLen := by omega
  obtain ⟨k, hk, hk'⟩ := processPrecision_numeral hroom
  refine ⟨k, ?_, hk'⟩
  rw [formatFpu128Trimmed, if_neg (by rw [uint128MaxLength]; omega), formatU128_eq hh hl,
    if_neg (by rw [uint128MaxLength]; omega)]
  exact congrArg Except.ok hk

theorem leNat_append (u v : List UInt8) : leNat (u ++ v) = leNat u + 256 ^ u.length * leNat v := by
  induction u with
  | nil => simp [leNat]
  | cons b u ih =>
    rw [List.cons_append, leNat, leNat, ih, List.length_cons, Nat.pow_succ]
    ring

theorem AmountCode.value_lt (a : AmountCode) : a.value < 2 ^ 128 := by
  cases a with
  | zero => decide
  | push n =>
    simp only [value]
    omega
  | bytes bs ne_nil le =>
    refine Nat.lt_of_lt_of_le (leNat_lt bs) ?_
    rw [show (256 : Nat) = 2 ^ 8 from rfl, ← Nat.pow_mul]
    exact Nat.pow_le_pow_right (by decide) (by omega)

/-- An amount that is used as a 64-bit number. -/
theorem AmountCode.uint64?_eq {a : AmountCode} {n : Nat} (h : a.uint64? = some n) :
    a.value = n ∧ n < 2 ^ 64 := by
  cases a with
  | zero =>
    cases h
    exact ⟨rfl, by decide⟩
  | push k =>
    cases h
    exact ⟨rfl, by omega⟩
  | bytes bs ne_nil le =>
    simp only [uint64?] at h
    split at h
    · cases h
      refine ⟨rfl, Nat.lt_of_lt_of_le (leNat_lt bs) ?_⟩
      rw [show (256 : Nat) = 2 ^ 8 from rfl, ← Nat.pow_mul]
      exact Nat.pow_le_pow_right (by decide) (by omega)
    · cases h

section
variable {raw : List UInt8} {k : Nat}

/-- Sixteen bytes at most, split after the eighth. -/
theorem convertBytes_split {u v : List UInt8} (hu : u.length = 8) (hv : v ≠ []) (hle : v.length ≤ 8)
    (h : readPtr raw (some k) (u ++ v).length = .ok (u ++ v)) :
    convertBytesToUint64Le raw (some k) 8 = .ok (some (leNat u)) ∧
      convertBytesToUint64Le raw (some (k + 8)) v.length = .ok (some (leNat v)) ∧
      leNat (u ++ v) = leNat v * 2 ^ 64 + leNat u ∧ leNat u < 2 ^ 64 ∧ leNat v < 2 ^ 64 := by
  obtain ⟨h₁, h₂⟩ := readPtr_append.mp h
  have hlo := leNat_lt u
  have hhi : leNat v < 256 ^ 8 :=
    Nat.lt_of_lt_of_le (leNat_lt v) (Nat.pow_le_pow_right (by decide) hle)
  rw [hu] at h₂ hlo
  refine ⟨?_, convertBytesToUint64Le_eq hv hle h₂, ?_, hlo, hhi⟩
  · have hne : u ≠ [] := List.length_pos_iff.mp (by omega)
    have := convertBytesToUint64Le_eq hne (Nat.le_of_eq hu) h₁
    rwa [hu] at this
  · rw [leNat_append, hu]
    omega

theorem AmountCode.length_encode_bytes {bs : List UInt8} {hne : bs ≠ []} {hle : bs.length ≤ 16} :
    (AmountCode.bytes bs hne hle).encode.length = bs.length + 1 :=
  rfl

theorem convertParamsToUint128Le_encode (a : AmountCode)
    (h : readPtr raw (some k) a.encode.length = .ok a.encode) :
    ∃ low high, convertParamsToUint128Le raw ⟨some k, .amount, a.encode.length⟩ true =
        .ok (some (low, high)) ∧ high * 2 ^ 64 + low = a.value ∧ low < 2 ^ 64 ∧ high < 2 ^ 64 := by
  have hne : a.encode ≠ [] := by cases a <;> simp [AmountCode.encode]
  have hle : a.encode.length ≤ 17 := by
    cases a with
    | bytes bs ne_nil le =>
      rw [AmountCode.length_encode_bytes]
      omega
    | _ => simp [AmountCode.encode]
  simp only [convertParamsToUint128Le]
  rw [if_neg (by simp [hne]; omega)]
  by_cases hshort : a.encode.length ≤ 9
  · -- at most eight bytes after the prefix: the 64-bit decoder
    obtain ⟨n, hn⟩ : ∃ n, a.uint64? = some n := by
      cases a with
      | bytes bs ne_nil le =>
        refine ⟨_, if_pos ?_⟩
        rw [AmountCode.length_encode_bytes] at hshort
        omega
      | _ => exact ⟨_, rfl⟩
    obtain ⟨hv, hlt⟩ := AmountCode.uint64?_eq hn
    refine ⟨n, 0, ?_, by omega, hlt, by decide⟩
    rw [convertParamToUint64Le_encode a h, hn]
    simp [show ¬ (9 < a.encode.length) by omega, bind, Except.bind, pure, Except.pure]
  · cases a with
    | bytes bs ne_nil le =>
      rw [AmountCode.length_encode_bytes] at hshort
      have hlen : 8 < bs.length := by omega
      have hbs : readPtr raw (some (k + 1)) bs.length = .ok bs := ((readPtr_append (u := [_])).mp h).2
      have hsplit : readPtr raw (some (k + 1)) (bs.take 8 ++ bs.drop 8).length =
          .ok (bs.take 8 ++ bs.drop 8) := by rwa [List.take_append_drop]
      obtain ⟨hlo, hhi, hv, hlt⟩ := convertBytes_split (by rw [List.length_take]; omega)
        (List.length_pos_iff.mp (by rw [List.length_drop]; omega)) (by rw [List.length_drop]; omega)
        hsplit
      rw [List.take_append_drop] at hv
      rw [List.length_drop] at hhi
      refine ⟨_, _, ?_, hv.symm, hlt⟩
      have h9 : 9 < bs.length + 1 := by omega
      have h8 : ¬ bs.length - 8 = 0 := by omega
      simp [AmountCode.encode, h9, h8, hlo, hhi, Nat.sub_sub, bind, Except.bind, pure, Except.pure]
    | _ => simp [AmountCode.encode] at hshort

/-- An amount in front of its length is rendered exactly. -/
theorem convertParamAmountToChars_amount (a : AmountCode) {d outputLen : Nat}
    (h : readPtr raw (some k) a.encode.length = .ok a.encode) (hd : d ≤ 39) (hout : 60 ≤ outputLen) :
    ∃ z, convertParamAmountToChars raw ⟨some k, .amount, a.encode.length⟩ d true outputLen =
        .ok (some (trimmed a.value d ++ List.replicate (z + 1) 0)) ∧
      (trimmed a.value d).length + (z + 1) ≤ outputLen := by
  obtain ⟨low, high, hconv, hv, hl, hh⟩ := convertParamsToUint128Le_encode a h
  obtain ⟨z, hz, hz'⟩ := formatFpu128Trimmed_eq hh hl hd hout
  rw [hv] at hz hz'
  refine ⟨z, ?_, hz'⟩
  simp [convertParamAmountToChars, hconv, hz, bind, Except.bind]

/-- So is a 128-bit number without one. -/
theorem convertParamAmountToChars_uint128 (n : Bytes 16) {d outputLen : Nat}
    (h : readPtr raw (some k) 16 = .ok n.1) (hd : d ≤ 39) (hout : 60 ≤ outputLen) :
    ∃ z, convertParamAmountToChars raw ⟨some k, .uint128, 16⟩ d false outputLen =
        .ok (some (trimmed (leNat n.1) d ++ List.replicate (z + 1) 0)) ∧
      (trimmed (leNat n.1) d).length + (z + 1) ≤ outputLen := by
  have hn := n.2
  have hsplit : readPtr raw (some k) (n.1.take 8 ++ n.1.drop 8).length =
      .ok (n.1.take 8 ++ n.1.drop 8) := by rwa [List.take_append_drop, hn]
  obtain ⟨hlo, hhi, hv, hl, hh⟩ := convertBytes_split (by rw [List.length_take]; omega)
    (List.length_pos_iff.mp (by rw [List.length_drop]; omega)) (by rw [List.length_drop]; omega)
    hsplit
  rw [List.take_append_drop] at hv
  rw [List.length_drop, hn] at hhi
  obtain ⟨z, hz, hz'⟩ := formatFpu128Trimmed_eq hh hl hd hout
  rw [← hv] at hz hz'
  refine ⟨z, ?_, hz'⟩
  simp [convertParamAmountToChars, convertParamsToUint128Le, hlo, hhi, hz, bind, Except.bind, pure,
    Except.pure]

theorem convertParamAmountToChars_amount_false {data : Option Nat} {len d outputLen : Nat} :
    convertParamAmountToChars raw ⟨data, .amount, len⟩ d false outputLen = .ok none := by
  by_cases h : len = 16 <;>
    simp [convertParamAmountToChars, convertParamsToUint128Le, h, bind, Except.bind, pure, Except.pure]

theorem convertParamAmountToChars_uint128_true {data : Option Nat} {len d outputLen : Nat} :
    convertParamAmountToChars raw ⟨data, .uint128, len⟩ d true outputLen = .ok none := by
  simp [convertParamAmountToChars, convertParamsToUint128Le, bind, Except.bind, pure, Except.pure]

end

end AppOnt
