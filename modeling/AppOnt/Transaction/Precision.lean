import AppOnt.Library.Program
import AppOnt.Library.Decimal
import AppOnt.Library.Memory
import AppOnt.Transaction.Amount

/-!
# The buffer of `process_precision`

`process_precision` write by write, each of them checked against `output_len`, with
the length check on `size_t` and `int` as it is compiled. It writes the text of
`processPrecision` wherever the check covers the layout; for a number with as many
digits as decimals it does not cover the closing NUL.
-/
namespace AppOnt

open Prog

/-- Write to an output of `outputLen` bytes. -/
def putOutput (outputLen k : Nat) (bs : List UInt8) : Prog Fault Memory Unit :=
  if outputLen < k + bs.length then throw (.byte (k + bs.length - 1)) else modify fun m => m.write k bs

/-- The C string in the output. -/
def outputString (outputLen : Nat) : Prog Fault Memory (List UInt8) := do
  let m ← get
  if m.strnlen 0 outputLen = outputLen then throw (.byte outputLen)
  else return m.read 0 (m.strnlen 0 outputLen)

/-- The loop over the zeros behind the point, from the end of the string. -/
def trimOutput (outputLen point : Nat) : Nat → Prog Fault Memory Nat
  | 0 => return 0
  | e + 1 => do
    let m ← get
    if point + 1 < e + 1 ∧ m e = asciiDigit 0 then
      putOutput outputLen e [0]
      trimOutput outputLen point e
    else
      return e + 1

/-- Remove trailing zeros after the decimal point. -/
def stripOutput (outputLen : Nat) : Prog Fault Memory Unit := do
  let text ← outputString outputLen
  match text.findIdx? (· == asciiPoint) with
  | none => return ()
  | some point =>
    let e ← trimOutput outputLen point text.length
    let m ← get
    if 0 < e ∧ m (e - 1) = asciiPoint then putOutput outputLen (e - 1) [0] else return ()

/-- The three layouts. -/
def layOut (input : List UInt8) (precision outputLen : Nat) : Prog Fault Memory Unit := do
  let len := input.length
  if len ≤ precision then
    let zeros := precision - len
    putOutput outputLen 0 [asciiDigit 0]
    putOutput outputLen 1 [asciiPoint]
    putOutput outputLen 2 (List.replicate zeros (asciiDigit 0))
    putOutput outputLen (2 + zeros) input
    putOutput outputLen (2 + zeros + len) [0]
  else if precision = 0 then
    putOutput outputLen 0 (input ++ [0])
  else
    let intLen := len - precision
    putOutput outputLen 0 (input.take intLen)
    putOutput outputLen intLen [asciiPoint]
    putOutput outputLen (intLen + 1) (input.drop intLen)
    putOutput outputLen (intLen + 1 + precision) [0]

/-- `max_len + 1`, where `(int) len` has 32 bits. -/
def requiredLen (cfg : Config) (len : Nat) (precision : Int) : Nat :=
  cfg.addSize (cfg.addSize len (if Int.bmod len (2 ^ 32) < precision
    then cfg.addSize (cfg.subSize precision.toNat len) 2 else 1)) 1

/-- `process_precision` on an output, for the string `input`. -/
def processPrecisionAt (cfg : Config) (input : List UInt8) (precision : Int) (outputLen : Nat) :
    Prog Fault Memory Bool := do
  if outputLen = 0 ∨ precision < 0 then
    if 0 < outputLen then putOutput outputLen 0 [0]
    return false
  else if input.length = 0 then
    if 1 < outputLen then putOutput outputLen 0 [asciiDigit 0, 0] else putOutput outputLen 0 [0]
    return false
  else if outputLen < requiredLen cfg input.length precision then
    putOutput outputLen 0 [0]
    return false
  else
    layOut input precision.toNat outputLen
    stripOutput outputLen
    return true

/-- The check covers the layout: the point does not come in front of all the digits with room for one
byte less, and a number of digits that is no `int` is not taken for a small one. -/
def PrecisionFits (input : List UInt8) (precision : Int) (outputLen : Nat) : Prop :=
  ¬ (precision = input.length ∧ outputLen = input.length + 2) ∧
    ¬ (Int.bmod input.length (2 ^ 32) < precision ∧ precision < input.length ∧
      precision + 3 ≤ outputLen ∧ outputLen < input.length + if precision = 0 then 1 else 2)

instance (input : List UInt8) (precision : Int) (outputLen : Nat) :
    Decidable (PrecisionFits input precision outputLen) := inferInstanceAs (Decidable (_ ∧ _))

/-- The bytes that are written for a text: what is left of it, and NULs for the rest. -/
def strippedBytes (text : List UInt8) : List UInt8 :=
  stripZeros text ++ List.replicate (text.length - (stripZeros text).length + 1) 0

/-- From `m` the run writes inside the output only, and ends it with a NUL where it returns true. -/
def RespectsOutput (x : Prog Fault Memory Bool) (m : Memory) (outputLen : Nat) : Prop :=
  Ensures x m fun ok m' => m.AgreeOff m' 0 outputLen ∧ (ok = true → ∃ k < outputLen, m' k = 0)

section
variable {m : Memory} {outputLen k : Nat} {bs text : List UInt8} {Q : Unit → Memory → Prop}

@[simp] theorem ensures_putOutput : Ensures (putOutput outputLen k bs) m Q ↔
    k + bs.length ≤ outputLen ∧ Q ⟨⟩ (m.write k bs) := by
  rw [putOutput, ensures_ite, ensures_throw, ensures_modify]
  grind

theorem ensures_outputString {Q : List UInt8 → Memory → Prop} (h : m.IsString 0 text)
    (hlt : text.length < outputLen) : Ensures (outputString outputLen) m Q ↔ Q text m := by
  have hlen := h.strnlen_eq hlt
  rw [outputString, ensures_bind, ensures_get, hlen, if_neg (by omega), ensures_pure, h.read_eq]

/-- The text of the layout is written with its NUL, if there is room for both. -/
theorem ensures_layOut {input : List UInt8} {precision : Nat} :
    Ensures (layOut input precision outputLen) m Q ↔
      (insertPoint input precision).length + 1 ≤ outputLen ∧
        Q ⟨⟩ (m.write 0 (insertPoint input precision ++ [0])) := by
  have happend (u v : List UInt8) (k : Nat) (hk : k = u.length) :
      (m.write 0 u).write k v = m.write 0 (u ++ v) := by
    have h := Memory.write_write_append m 0 u v
    rwa [Nat.zero_add, ← hk] at h
  rw [layOut, insertPoint]
  by_cases hge : input.length ≤ precision
  · rw [if_pos hge, if_pos hge]
    simp only [ensures_bind, ensures_putOutput]
    rw [happend [_] _ 1 rfl, happend _ _ 2 rfl, happend _ _ _ (by simp; omega),
      happend _ _ _ (by simp; omega)]
    simp only [List.length_cons, List.length_nil, List.length_replicate, List.length_append]
    constructor
    · rintro ⟨-, -, -, -, hle, hq⟩
      exact ⟨by omega, hq⟩
    · rintro ⟨hle, hq⟩
      exact ⟨by omega, by omega, by omega, by omega, by omega, hq⟩
  · rw [if_neg hge, if_neg hge]
    by_cases hzero : precision = 0
    · rw [if_pos hzero, if_pos hzero]
      simp
    · rw [if_neg hzero, if_neg hzero]
      simp only [ensures_bind, ensures_putOutput]
      rw [happend _ _ _ (by simp), happend _ _ _ (by simp), happend _ _ _ (by simp; omega),
        List.append_assoc (input.take _) [asciiPoint]]
      simp only [List.length_cons, List.length_nil, List.length_take, List.length_drop, List.length_append]
      constructor
      · rintro ⟨-, -, -, hle, hq⟩
        exact ⟨by omega, hq⟩
      · rintro ⟨hle, hq⟩
        exact ⟨by omega, by omega, by omega, by omega, hq⟩

/-- The zeros at the end of `v` become NULs. -/
theorem trimOutput_ensures {u v : List UInt8} {n : Nat} (hroom : u.length + 1 + v.length + n ≤ outputLen) :
    Ensures (trimOutput outputLen u.length (u.length + 1 + v.length))
      (m.write 0 (u ++ asciiPoint :: v ++ List.replicate n 0)) fun e m' =>
        e = u.length + 1 + (rtrimZeros v).length ∧ m' = m.write 0 (u ++ asciiPoint :: rtrimZeros v ++
          List.replicate (v.length - (rtrimZeros v).length + n) 0) := by
  induction v using List.reverseRecOn generalizing n with
  | nil =>
    rw [List.length_nil, Nat.add_zero, trimOutput, ensures_bind, ensures_get, if_neg (by omega), ensures_pure]
    exact ⟨rfl, by simp [rtrimZeros]⟩
  | append_singleton v b ih =>
    have hlast : (u ++ asciiPoint :: v).length = u.length + 1 + v.length := by
      simp
      omega
    have hmem : u ++ asciiPoint :: (v ++ [b]) ++ List.replicate n 0 =
        (u ++ asciiPoint :: v) ++ b :: List.replicate n 0 := by simp
    have hbyte := Memory.write_apply_length m 0 (u ++ asciiPoint :: v) (List.replicate n 0) b
    rw [Nat.zero_add, hlast] at hbyte
    rw [List.length_append, List.length_singleton, ← Nat.add_assoc, trimOutput, ensures_bind, ensures_get,
      hmem, hbyte]
    by_cases hb : b = asciiDigit 0
    · subst hb
      have hwrite := Memory.write_byte m 0 (u ++ asciiPoint :: v) (List.replicate n 0) (asciiDigit 0) 0
      rw [Nat.zero_add, hlast] at hwrite
      have hrtrim : rtrimZeros (v ++ [asciiDigit 0]) = rtrimZeros v := by
        rw [rtrimZeros, List.rdropWhile_concat_pos _ _ _ (by simp)]
        rfl
      have hle := (rtrimZeros_isPrefix v).length_le
      rw [if_pos ⟨by omega, rfl⟩, ensures_bind, ensures_putOutput, hwrite, hrtrim]
      refine ⟨by simp at hroom ⊢; omega, ?_⟩
      have ih := ih (n := n + 1) (by simp at hroom ⊢; omega)
      rw [List.replicate_succ] at ih
      refine ih.mono fun e m' h => ?_
      obtain ⟨he, hm⟩ := h
      refine ⟨he, hm.trans ?_⟩
      rw [show v.length + 1 - (rtrimZeros v).length + n = v.length - (rtrimZeros v).length + (n + 1) by omega]
    · have hrtrim : rtrimZeros (v ++ [b]) = v ++ [b] := by
        rw [rtrimZeros, List.rdropWhile_concat_neg _ _ _ (by simpa using hb)]
      rw [if_neg (fun h => hb h.2), ensures_pure, hrtrim]
      refine ⟨by rw [List.length_append, List.length_singleton, Nat.add_assoc _ _ 1], ?_⟩
      simp

/-- The text that is left is in front of NULs where the rest was. -/
theorem stripOutput_ensures (hne : (0 : UInt8) ∉ text) (hlt : text.length < outputLen) :
    Ensures (stripOutput outputLen) (m.write 0 (text ++ [0])) fun _ m' =>
      m' = m.write 0 (strippedBytes text) := by
  have hstring := (Memory.write_holds m 0 text).isString hne
  rw [stripOutput, ensures_bind, ensures_outputString hstring hlt]
  by_cases hpoint : asciiPoint ∈ text
  · obtain ⟨u, v, rfl, hu⟩ := List.eq_append_cons_of_mem hpoint
    have hfind : (u ++ asciiPoint :: v).findIdx? (· == asciiPoint) = some u.length := by
      have hnone : u.findIdx? (· == asciiPoint) = none := by
        rw [List.findIdx?_eq_none_iff]
        intro b hb
        exact beq_eq_false_iff_ne.mpr fun h => hu (h ▸ hb)
      rw [List.findIdx?_append, hnone]
      simp [List.findIdx?_cons]
    have hlen : (u ++ asciiPoint :: v).length = u.length + 1 + v.length := by
      simp
      omega
    have hroom : u.length + 1 + v.length + 1 ≤ outputLen := by omega
    have htrim := trimOutput_ensures (m := m) hroom
    simp only [hfind, hlen, ensures_bind, ensures_get]
    refine htrim.mono fun e m' h => ?_
    obtain ⟨rfl, rfl⟩ := h
    have hle := (rtrimZeros_isPrefix v).length_le
    have hstrip : stripZeros (u ++ asciiPoint :: v) =
        if (u ++ asciiPoint :: rtrimZeros v).getLast? = some asciiPoint then
          (u ++ asciiPoint :: rtrimZeros v).dropLast
        else u ++ asciiPoint :: rtrimZeros v := by
      rw [stripZeros, span_point hu]
    have hlen' : (u ++ asciiPoint :: rtrimZeros v).length = u.length + 1 + (rtrimZeros v).length := by
      simp
      omega
    -- the last byte of what is left, which is the point if no digit is left behind it
    obtain ⟨t, b, ht⟩ : ∃ t b, u ++ asciiPoint :: rtrimZeros v = t ++ [b] :=
      ⟨_, _, (List.dropLast_append_getLast (by simp)).symm⟩
    rw [ht, List.length_append, List.length_singleton] at hlen'
    rw [ht, List.getLast?_concat, List.dropLast_concat] at hstrip
    have hsplit (n : Nat) : t ++ [b] ++ List.replicate n 0 = t ++ b :: List.replicate n 0 := by simp
    have hbyte (n : Nat) := Memory.write_apply_length m 0 t (List.replicate n 0) b
    have hwrite (n : Nat) := Memory.write_byte m 0 t (List.replicate n 0) b 0
    simp only [Nat.zero_add] at hbyte hwrite
    rw [← hlen', Nat.add_sub_cancel, ht, hsplit, hbyte]
    by_cases hb : b = asciiPoint
    · rw [if_pos ⟨by omega, hb⟩, ensures_putOutput, hwrite, strippedBytes, hlen, hstrip, if_pos (by rw [hb])]
      refine ⟨by simp only [List.length_singleton]; omega, ?_⟩
      rw [← List.replicate_succ]
      congr 3
      omega
    · rw [if_neg fun h => hb h.2, ensures_pure, strippedBytes, hlen, hstrip, if_neg (by simpa using hb), hsplit]
      congr 4
      simp only [List.length_append, List.length_singleton]
      omega
  · have hfind : text.findIdx? (· == asciiPoint) = none := by
      rw [List.findIdx?_eq_none_iff]
      intro b hb
      exact beq_eq_false_iff_ne.mpr fun h => hpoint (h ▸ hb)
    simp only [hfind, ensures_pure]
    rw [strippedBytes, stripZeros_of_not_mem hpoint, Nat.sub_self]
    rfl

end

theorem length_insertPoint (input : List UInt8) (precision : Nat) : (insertPoint input precision).length =
    if input.length ≤ precision then precision + 2
    else if precision = 0 then input.length else input.length + 1 := by
  rw [insertPoint]
  split
  · simp
    omega
  · split
    · rfl
    · simp
      omega

section
variable {cfg : Config} {input : List UInt8} {precision : Int} {outputLen : Nat}

/-- `(int) len` of a number of less than 31 bits. -/
theorem bmod_of_lt {len : Nat} (h : len < 2 ^ 31) : Int.bmod len (2 ^ 32) = len := by
  rw [Int.bmod]
  split <;> omega

theorem requiredLen_eq {len : Nat} (hlen : len + 1 < cfg.sizeMod) (h0 : 0 ≤ precision)
    (h31 : precision < 2 ^ 31) : requiredLen cfg len precision =
      if Int.bmod len (2 ^ 32) < precision then precision.toNat + 3 else len + 2 := by
  have hmod := cfg.sizeMod_cases
  rw [requiredLen]
  split
  · have hsum : cfg.addSize len (cfg.addSize (cfg.subSize precision.toNat len) 2) = precision.toNat + 2 := by
      rcases Nat.lt_or_ge precision.toNat len with hlt | hge
      · rw [cfg.subSize_of_lt hlt (by omega)]
        simp only [Config.addSize]
        rcases hmod with h | h <;> rw [h] at hlen ⊢ <;> omega
      · rw [cfg.subSize_of_le hge (by omega), cfg.addSize_of_lt (b := 2) (by omega), cfg.addSize_of_lt (by omega)]
        omega
    rw [hsum, cfg.addSize_of_lt (by omega)]
  · rename_i hge
    -- a length next to the end of the range is negative as an `int`
    have hlt : len + 2 < cfg.sizeMod := by
      by_contra hge'
      rw [Int.bmod] at hge
      rcases hmod with h | h <;> rw [h] at hlen hge' <;> split at hge <;> omega
    rw [cfg.addSize_of_lt (a := len) (by omega), cfg.addSize_of_lt (by omega)]

/-- The check covers the layout where the precision fits. -/
theorem precisionFits_iff (hlen : input.length + 1 < cfg.sizeMod) (h0 : 0 ≤ precision) (h31 : precision < 2 ^ 31) :
    PrecisionFits input precision outputLen ↔ (requiredLen cfg input.length precision ≤ outputLen →
      (insertPoint input precision.toNat).length + 1 ≤ outputLen) := by
  rw [requiredLen_eq hlen h0 h31, length_insertPoint, PrecisionFits]
  obtain ⟨p, rfl⟩ := Int.eq_ofNat_of_zero_le h0
  have hint (h : input.length ≤ p) : Int.bmod input.length (2 ^ 32) = input.length := bmod_of_lt (by omega)
  rw [Int.toNat_natCast]
  generalize Int.bmod input.length (2 ^ 32) = len at hint ⊢
  by_cases hzero : p = 0
  · subst hzero
    simp only [Nat.cast_zero, if_true]
    split_ifs <;> omega
  · rw [if_neg (show ¬ (p : Int) = 0 by omega), if_neg hzero]
    split_ifs <;> omega

theorem zero_not_mem_insertPoint (hdigits : ∀ b ∈ input, IsDigit b) (p : Nat) :
    (0 : UInt8) ∉ insertPoint input p := by
  have hinput : (0 : UInt8) ∉ input := fun h => absurd (hdigits 0 h).1 (by decide)
  have htake : (0 : UInt8) ∉ input.take (input.length - p) := fun h => hinput (List.mem_of_mem_take h)
  have hdrop : (0 : UInt8) ∉ input.drop (input.length - p) := fun h => hinput (List.mem_of_mem_drop h)
  have hbytes : (0 : UInt8) ≠ asciiDigit 0 ∧ (0 : UInt8) ≠ asciiPoint := by decide
  rw [insertPoint]
  split_ifs <;> simp [*]

/-- The run on a string of digits: a NUL if the output is too short, and else the text with its zeros
removed, where there is room for the layout. -/
theorem ensures_processPrecisionAt {m : Memory} {Q : Bool → Memory → Prop} (hne : input ≠ [])
    (hdigits : ∀ b ∈ input, IsDigit b) (h0 : 0 ≤ precision) :
    Ensures (processPrecisionAt cfg input precision outputLen) m Q ↔
      if outputLen = 0 then Q false m
      else if outputLen < requiredLen cfg input.length precision then Q false (m.write 0 [0])
      else (insertPoint input precision.toNat).length + 1 ≤ outputLen ∧
        Q true (m.write 0 (strippedBytes (insertPoint input precision.toNat))) := by
  rw [processPrecisionAt]
  by_cases hout : outputLen = 0
  · simp [hout]
  · have hpos : 1 ≤ outputLen := Nat.pos_of_ne_zero hout
    rw [if_neg (show ¬ (outputLen = 0 ∨ precision < 0) by omega), if_neg (by simpa using hne), if_neg hout]
    split
    · simp [hpos]
    · simp only [ensures_bind, ensures_layOut, ensures_pure]
      refine and_congr_right fun hroom => ?_
      have hstrip := stripOutput_ensures (m := m) (zero_not_mem_insertPoint hdigits precision.toNat) hroom
      constructor
      · rintro ⟨a, t, hrun, hq⟩
        rwa [hstrip.post hrun] at hq
      · intro hq
        exact hstrip.mono fun _ t ht => ht ▸ hq

/-- On a string of digits `process_precision` stays in its output exactly where the precision fits. -/
theorem processPrecision_inBounds_iff (cfg : Config) {input : List UInt8} (hne : input ≠ [])
    (hdigits : ∀ b ∈ input, IsDigit b) (hlen : input.length + 1 < cfg.sizeMod) {precision : Int}
    (h0 : 0 ≤ precision) (h31 : precision < 2 ^ 31) (outputLen : Nat) (m : Memory) :
    RespectsOutput (processPrecisionAt cfg input precision outputLen) m outputLen ↔
      PrecisionFits input precision outputLen := by
  rw [RespectsOutput, ensures_processPrecisionAt hne hdigits h0, precisionFits_iff hlen h0 h31]
  have hle := length_stripZeros_le (insertPoint input precision.toNat)
  have hbytes : (strippedBytes (insertPoint input precision.toNat)).length =
      (insertPoint input precision.toNat).length + 1 := by
    rw [strippedBytes, List.length_append, List.length_replicate]
    omega
  split
  · rename_i hout
    subst hout
    have hreq : 1 ≤ requiredLen cfg input.length precision := by
      rw [requiredLen_eq hlen h0 h31]
      split <;> omega
    refine iff_of_true ⟨fun _ _ => rfl, by simp⟩ ?_
    intro h
    omega
  · rename_i hout
    split
    · rename_i hlt
      refine iff_of_true ⟨?_, by simp⟩ fun h => absurd h (Nat.not_le.mpr hlt)
      exact (Memory.write_agreeOff _ _ _).mono (Nat.le_refl _) (Nat.pos_of_ne_zero hout)
    · rename_i hge
      constructor
      · exact fun h _ => h.1
      · intro h
        have hroom := h (Nat.not_lt.mp hge)
        refine ⟨hroom, ?_, fun _ => ⟨(stripZeros (insertPoint input precision.toNat)).length, by omega, ?_⟩⟩
        · refine (Memory.write_agreeOff _ _ _).mono (Nat.le_refl _) ?_
          rw [hbytes]
          omega
        · have hnul := Memory.write_apply_length m 0 (stripZeros (insertPoint input precision.toNat))
            (List.replicate ((insertPoint input precision.toNat).length -
              (stripZeros (insertPoint input precision.toNat)).length) 0) 0
          rwa [Nat.zero_add, ← List.replicate_succ] at hnul

/-- Where the precision fits, the output holds the text of `processPrecision`. -/
theorem processPrecisionAt_eq {p : Nat} {m : Memory} (hne : input ≠ []) (hdigits : ∀ b ∈ input, IsDigit b)
    (hlen : input.length < 2 ^ 31) (h31 : p < 2 ^ 31) (hfits : PrecisionFits input p outputLen) :
    Ensures (processPrecisionAt cfg input p outputLen) m fun ok m' =>
      ok = (processPrecision input p outputLen).isSome ∧
        ∀ bytes ∈ processPrecision input p outputLen, m' = m.write 0 bytes := by
  have hmod := cfg.sizeMod_cases
  have hlen' : input.length + 1 < cfg.sizeMod := by omega
  have hroom := (precisionFits_iff hlen' (Int.natCast_nonneg p) (by omega)).mp hfits
  rw [ensures_processPrecisionAt hne hdigits (Int.natCast_nonneg p)]
  rw [requiredLen_eq hlen' (Int.natCast_nonneg p) (by omega), bmod_of_lt hlen] at hroom ⊢
  rw [Int.toNat_natCast] at hroom ⊢
  have hpos := List.length_pos_iff.mpr hne
  have hguard : (outputLen = 0 ∨ input.length = 0 ∨
      input.length + (if p > input.length then p - input.length + 2 else 1) + 1 > outputLen) ↔
      outputLen = 0 ∨ outputLen < if (input.length : Int) < p then p + 3 else input.length + 2 := by
    split_ifs <;> omega
  simp only [processPrecision, hguard]
  generalize (if (input.length : Int) < p then p + 3 else input.length + 2) = required at hroom ⊢
  by_cases hout : outputLen = 0
  · simp [hout]
  · by_cases hlt : outputLen < required
    · simp [hout, hlt]
    · rw [if_neg hout, if_neg hlt, if_neg (not_or.mpr ⟨hout, hlt⟩)]
      exact ⟨hroom (Nat.not_lt.mp hlt), rfl, fun bytes hbytes => by rw [← Option.mem_some_iff.mp hbytes]; rfl⟩

end

theorem processPrecision_inBounds_sample :
    RespectsOutput (processPrecisionAt ⟨.nano, .w32⟩ (chars "5") 1 4) (fun _ => 0) 4 :=
  (processPrecision_inBounds_iff ⟨.nano, .w32⟩ (by decide) (by decide +kernel) (by decide) (by decide)
    (by decide) 4 _).mpr (by decide)

/-- The text `0.5` and its NUL in three bytes. -/
theorem fiveTenths_overflows :
    ¬ RespectsOutput (processPrecisionAt ⟨.nano, .w32⟩ (chars "5") 1 3) (fun _ => 0) 3 := by
  rw [RespectsOutput, ensures_processPrecisionAt (by decide) (by decide +kernel) (by decide)]
  have hrequired : requiredLen ⟨.nano, .w32⟩ (chars "5").length 1 = 3 := by decide
  have hlayout : (insertPoint (chars "5") 1).length = 3 := by decide
  rw [hrequired, if_neg (by decide), if_neg (by decide)]
  rintro ⟨hroom, -⟩
  rw [show (1 : Int).toNat = 1 from rfl, hlayout] at hroom
  omega

end AppOnt
