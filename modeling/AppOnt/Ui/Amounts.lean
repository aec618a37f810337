import AppOnt.Library.Decimal
import AppOnt.Ui.Rows

/-!
# Amounts in full

Whatever an amount parser accepts, at whatever number of decimals: the text is
the canonical decimal of the encoded number, and its unit follows it in full.
-/
namespace AppOnt

open Prog

section
variable {raw : List UInt8}

/-- The parameter `p` is converted to `text`, which a NUL ends in a buffer of `MAX_BUFFER_LEN`
bytes. -/
def ConvertsTo (raw : List UInt8) (p : TxParameter) (d : Nat) (hasPrefix : Bool)
    (text : List UInt8) : Prop :=
  ∃ z, convertParamAmountToChars raw p d hasPrefix maxBufferLen =
      .ok (some (text ++ List.replicate (z + 1) 0)) ∧ text.length + (z + 1) ≤ maxBufferLen

/-- In a row of a transaction for a registered contract `p` is shown as `text` and the unit. -/
def ShowsWithUnit [CryptoSdk] [FormatSdk] (raw : List UInt8) (p : TxParameter) (d : Nat)
    (hasPrefix : Bool) (text : List UInt8) : Prop :=
  ∀ (cfg : Config) (tx : Transaction) (k pos : Nat) (s : Display) (fee : Bool),
    k < cfg.parametersMaxNum → tx.method.parameters k = p → tx.contract.tokenDecimals = d →
    decide (tx.contract.type ≠ .wasmvm) = hasPrefix →
    methodcmp raw tx.method.name methodSetFeePercentage = .ok fee →
    pos + maxBufferLen ≤ cfg.numPairs * maxBufferLen →
    ∀ registered ∈ getTxPayload, tx.contract.ticker = some registered.ticker →
      Ensures (convertParamToChars cfg raw tx k pos maxBufferLen) s fun ok t =>
        ok = true ∧ t.buffers.IsString pos (text ++ unitText fee registered.ticker)

/-- The parameter `p` is shown as the number `n` with `d` decimals. -/
structure ShownExactly [CryptoSdk] [FormatSdk] (raw : List UInt8) (p : TxParameter) (d : Nat)
    (hasPrefix : Bool) (n : Nat) (text : List UInt8) : Prop where
  converts : ConvertsTo raw p d hasPrefix text
  decimal : IsDecimal text d n
  with_unit : ShowsWithUnit raw p d hasPrefix text

theorem length_trimmed_le_41 {n d : Nat} (hn : n < 2 ^ 128) (hd : d ≤ 39) :
    (trimmed n d).length ≤ 41 := by
  have hlen : (numeral n).length ≤ 39 :=
    (length_numeral_le_iff (by decide)).mpr (Nat.lt_of_lt_of_le hn (by decide))
  have := length_trimmed_le_max n d
  omega

theorem shownExactly_trimmed [CryptoSdk] [FormatSdk] {p : TxParameter} {n d : Nat} {hasPrefix : Bool}
    (hn : n < 2 ^ 128) (hd : d ≤ 39) (htype : p.type = .amount ∨ p.type = .uint128)
    (hdata : p.data ≠ none) (hconv : ConvertsTo raw p d hasPrefix (trimmed n d)) :
    ShownExactly raw p d hasPrefix n (trimmed n d) := by
  refine ⟨hconv, trimmed_isDecimal n d, ?_⟩
  intro cfg tx k pos s fee hk hp hdec hpre hfee hroom registered hmem hticker
  subst hp hdec hpre
  have hlen := length_trimmed_le_41 hn hd
  have hbounds := ticker_bounds _ hmem
  have hmax : maxBufferLen = 67 := rfl
  have hwrite : ∀ {t : Display}, Fills s t pos maxBufferLen [] →
      Ensures (writeParam cfg raw tx (tx.method.parameters k) pos maxBufferLen) t fun ok u =>
        ok = true ∧ Fills s u pos maxBufferLen
          (trimmed n tx.contract.tokenDecimals ++ unitText fee registered.ticker) := by
    intro t ht
    have hamount := writeAmount_fills hfee hticker hbounds ht
      (zero_not_mem_trimmed n tx.contract.tokenDecimals) (by omega) hconv hroom
    unfold writeParam
    rcases htype with h | h <;> rw [h] <;> exact hamount
  have hunit := unitText_bounds fee hbounds
  unfold convertParamToChars
  rw [if_neg (not_or.mpr ⟨by omega, hdata⟩)]
  refine ensures_bind.mpr ((explicitBzero_ensures hroom).mono fun _ t ht =>
    (hwrite ht).mono fun ok u ⟨hok, hu⟩ => ⟨hok, hu.field.isString ?_ ?_⟩)
  · exact fun h => (List.mem_append.mp h).elim (zero_not_mem_trimmed _ _) hunit.2
  · rw [List.length_append]
    omega

end

/-- What the parsers of amounts accept is shown exactly, with up to 39 decimals: as the canonical
decimal of the number that was encoded, which no other number has. -/
theorem amounts_shown_exactly [BufferSdk] [CryptoSdk] [FormatSdk] (d : Nat) (hd : d ≤ 39) :
    (∀ (b b' : Buffer) (out p : TxParameter), (parseAmount out).run b = .ok ((true, p), b') →
      ∃ a : AmountCode, b.Consumes a.encode b' ∧
        ∃ text, ShownExactly b.ptr p d true a.value text) ∧
    (∀ (b b' : Buffer) (out p : TxParameter), (parseUint128 out).run b = .ok ((true, p), b') →
      ∃ n : Bytes 16, b.Consumes n.1 b' ∧
        ∃ text, ShownExactly b.ptr p d false (leNat n.1) text) ∧
    ∀ (text : List UInt8) (n n' : Nat), IsDecimal text d n → IsDecimal text d n' → n = n' := by
  refine ⟨fun b b' out p h => ?_, fun b b' out p h => ?_, fun text n n' hn hn' => hn.unique hn'⟩
  · obtain ⟨a, hc, rfl⟩ := ((parseAmount_returns b out p).iff b').mp h
    rw [List.nil_append] at hc
    refine ⟨a, hc, trimmed a.value d, ?_⟩
    exact shownExactly_trimmed a.value_lt hd (.inl rfl) (Option.some_ne_none _)
      (convertParamAmountToChars_amount a hc.readPtr hd (by decide))
  · obtain ⟨n, hc, rfl⟩ := ((parseUint128_returns b out p).iff b').mp h
    rw [List.nil_append] at hc
    have hlt : leNat n.1 < 2 ^ 128 := by
      have := leNat_lt n.1
      rwa [n.2] at this
    have hread := hc.readPtr
    rw [n.2] at hread ⊢
    refine ⟨n, hc, trimmed (leNat n.1) d, ?_⟩
    exact shownExactly_trimmed hlt hd (.inr rfl) (Option.some_ne_none _)
      (convertParamAmountToChars_uint128 n hread hd (by decide))

theorem amounts_shown_exactly_sample :
    let := CryptoSdk.reference
    let := FormatSdk.reference
    ∃ (b' : Buffer) (p : TxParameter) (a : AmountCode) (text : List UInt8),
      (@parseAmount BufferSdk.reference .zero).run (.ofBytes [0x02, 0xe8, 0x03]) = .ok ((true, p), b') ∧
        (Buffer.ofBytes [0x02, 0xe8, 0x03]).Consumes a.encode b' ∧
        ShownExactly [0x02, 0xe8, 0x03] p 9 true a.value text := by
  let := BufferSdk.reference
  let := CryptoSdk.reference
  let := FormatSdk.reference
  have hrun : (parseAmount .zero).run (.ofBytes [0x02, 0xe8, 0x03]) =
      .ok ((true, ⟨some 0, .amount, 3⟩), ⟨[0x02, 0xe8, 0x03], 3, by decide⟩) := rfl
  obtain ⟨a, hc, text, htext⟩ := (amounts_shown_exactly 9 (by decide)).1 _ _ _ _ hrun
  exact ⟨_, _, a, text, hrun, hc, htext⟩

end AppOnt
