import AppOnt.Ui.Review

/-!
# The fee, the signer and the total

The three texts at the end of the buffers, at the time that a review is shown.
The field of the fee reaches into that of the signer, which is written later:
the fee is intact when it is short enough, and the other two always are.
-/
namespace AppOnt

open Prog

/-- The text of a fee. -/
def feeText (fee : Nat) : List UInt8 := trimmed fee ongDecimals ++ (chars " " ++ chars ongTicker)

theorem ongUnit_bounds : (chars " " ++ chars ongTicker).length = 4 ∧
    (0 : UInt8) ∉ chars " " ++ chars ongTicker := by
  decide +kernel

theorem zero_not_mem_feeText (fee : Nat) : (0 : UInt8) ∉ feeText fee := fun h =>
  (List.mem_append.mp h).elim (zero_not_mem_trimmed _ _) ongUnit_bounds.2

theorem length_feeText_le {fee : Nat} (h : fee < 2 ^ 64) : (feeText fee).length ≤ 34 := by
  have := length_trimmed_le (n := fee) (d := ongDecimals) (by decide : 0 < 20)
    (Nat.lt_of_lt_of_le h (by decide))
  rw [feeText, List.length_append, ongUnit_bounds.1]
  have : ongDecimals = 9 := rfl
  omega

/-- The text of a fee fits before the signer, where few enough digits are left of it. -/
theorem length_feeText_le_iff {fee : Nat} (h : fee ≤ tokenAmount) :
    (feeText fee).length ≤ 16 ↔ ∃ k ≤ 9, 10 ^ k ∣ fee ∧ fee < 10 ^ (11 + k) := by
  have htoken : tokenAmount = 10 ^ 18 := rfl
  have hiff := length_trimmed_le_iff (n := fee) (d := ongDecimals) (k := 12) (by decide)
  have hunit := ongUnit_bounds.1
  rw [feeText, List.length_append, hunit, show (trimmed fee ongDecimals).length + 4 ≤ 16 ↔
    (trimmed fee ongDecimals).length ≤ 12 by omega, hiff]
  constructor
  · rintro (⟨hdvd, -⟩ | ⟨k, hk, hdvd, hlt⟩)
    · exact ⟨9, Nat.le_refl _, hdvd, by omega⟩
    · exact ⟨k, Nat.le_of_lt hk, hdvd, hlt⟩
  · rintro ⟨k, hk, hdvd, hlt⟩
    rcases Nat.lt_or_ge k 9 with hk9 | hk9
    · exact .inr ⟨k, hk9, hdvd, hlt⟩
    · obtain rfl : k = 9 := by omega
      refine .inl ⟨hdvd, ?_⟩
      have : ongDecimals = 9 := rfl
      rw [this]
      omega

/-- The buffers before the rows of a review are built. -/
structure Prepared (cfg : Config) (d : Display) (fee : Nat) (signer : List UInt8) : Prop where
  nbPairs_eq : d.nbPairs = 0
  total : d.buffers.Field cfg.totalPos amountSize []
  signer : d.buffers.IsString cfg.signerPos signer
  fee_iff : d.buffers.IsString cfg.gasFeePos (feeText fee) ↔ (feeText fee).length ≤ 16

section
variable {cfg : Config} {s t : Display} {fee : Nat} {signer : List UInt8}

/-- The signer is written over the end of the field of the fee. -/
theorem Prepared.of_fee (h : Fills s t cfg.gasFeePos maxBufferLen (feeText fee))
    (hs : s.buffers = fun _ => 0) (hn : s.nbPairs = 0) (hfee : fee < 2 ^ 64)
    (hlen : signer.length = 34) (hne : (0 : UInt8) ∉ signer) :
    Prepared cfg { t with buffers := t.buffers.write cfg.signerPos signer } fee signer := by
  have hmax : maxBufferLen = 67 := rfl
  have hgas : cfg.gasFeePos = cfg.totalPos + 50 := rfl
  have hpos : cfg.signerPos = cfg.gasFeePos + 17 := by
    simp only [Config.signerPos, Config.gasFeePos, Nat.add_mul, hmax, amountSize]
  have hshort := length_feeText_le hfee
  have hwrite := Memory.write_agreeOff t.buffers cfg.signerPos signer
  refine ⟨h.nbPairs_eq.trans hn, ?_, ?_, ⟨fun hstring => ?_, fun hle => ?_⟩⟩
  · have hzero : s.buffers.Field cfg.totalPos amountSize [] := Memory.field_nil.mpr fun i _ => by rw [hs]
    have ht := hzero.of_agreeOff h.agree (.inl (Nat.le_refl _))
    exact ht.of_agreeOff hwrite (.inl (by rw [hpos, hgas]; simp only [amountSize]; omega))
  · refine Memory.isString_write hne ?_
    have := h.field.eq 51 (by omega)
    rw [List.getElem?_eq_none (by omega)] at this
    rw [hlen, hpos, Nat.add_assoc]
    exact this
  · -- a longer fee has no end: the signer begins before it
    by_contra hlong
    have hend : t.buffers.write cfg.signerPos signer (cfg.gasFeePos + (feeText fee).length) = 0 :=
      hstring.terminated
    have hlt : (feeText fee).length - 17 < signer.length := by omega
    rw [show cfg.gasFeePos + (feeText fee).length = cfg.signerPos + ((feeText fee).length - 17) by omega,
      Memory.write_add, List.getElem?_eq_getElem hlt, Option.getD_some] at hend
    exact hne (hend ▸ List.getElem_mem hlt)
  · exact (h.field.isString (zero_not_mem_feeText fee) (by omega)).of_agreeOff hwrite (.inl (by omega))

variable [FormatSdk]

theorem calcGasChars_ensures {tx : Transaction} (hzero : s.buffers = fun _ => 0) :
    Ensures (calcGasChars cfg tx cfg.gasFeePos maxBufferLen) s fun ok t => ok = true ∧
      Fills s t cfg.gasFeePos maxBufferLen
        (feeText (tx.header.gasPrice * tx.header.gasLimit % 2 ^ 64)) := by
  have hroom : cfg.gasFeePos + maxBufferLen ≤ cfg.numPairs * maxBufferLen := by
    have hmax : maxBufferLen = 67 := rfl
    simp only [Config.gasFeePos, Config.numPairs, Nat.add_mul, hmax, amountSize]
    omega
  generalize hv : tx.header.gasPrice * tx.header.gasLimit % 2 ^ 64 = fee
  have hfee : fee < 2 ^ 64 := hv ▸ Nat.mod_lt _ (by decide)
  have htext : FormatSdk.formatFpu64Trimmed maxBufferLen fee ongDecimals =
      some (trimmed fee ongDecimals) := FormatSdk.fpu64Trimmed_eq hfee (by decide)
  have hshort := length_feeText_le hfee
  have hunit := ongUnit_bounds
  rw [feeText, List.length_append] at hshort
  simp only [List.mem_append, not_or, List.length_append] at hunit hshort
  simp only [calcGasChars, hv, htext, ensures_bind]
  -- the number, a space and the ticker, in a zeroed field
  have hempty : Fills s s cfg.gasFeePos maxBufferLen [] :=
    ⟨⟨Memory.AgreeOff.refl _ _ _, rfl, rfl⟩, Memory.field_nil.mpr fun i _ => by rw [hzero]⟩
  have hne := zero_not_mem_trimmed fee ongDecimals
  have hmax : maxBufferLen = 67 := rfl
  refine (hempty.store _ 1 (by omega) hroom).mono fun _ t₁ h₁ => ?_
  refine (h₁.strlcat hne (by omega) hroom).mono fun _ t₂ h₂ => ?_
  have hne₂ : (0 : UInt8) ∉ trimmed fee ongDecimals ++ chars " " :=
    fun h => (List.mem_append.mp h).elim hne hunit.2.1
  refine (h₂.strlcat hne₂ (by rw [List.length_append]; omega) hroom).mono fun _ t₃ h₃ => ?_
  rw [List.append_assoc] at h₃
  exact ensures_pure.mpr ⟨rfl, h₃⟩

variable [CryptoSdk]

/-- Up to the rows a review is the same, clear or blind, and there is none without a signer. -/
theorem displayTransaction_run (cfg : Config) (raw : List UInt8) (tx : Transaction)
    (beyond : Nat → Except Fault TxParameter) (path : List UInt32) (isBlindSigned : Bool)
    (s : Display) : ∃ t,
    match signerText maxBufferLen path with
    | some signer => Prepared cfg t (tx.header.gasPrice * tx.header.gasLimit % 2 ^ 64) signer ∧
        (displayTransaction cfg raw tx beyond path isBlindSigned).run s =
          (if isBlindSigned then uiDisplayBsTransaction cfg raw tx
            else uiDisplayNormalTransaction cfg raw tx beyond).run t
    | none => (displayTransaction cfg raw tx beyond path isBlindSigned).run s =
        .ok (.sw swDisplayAddressFail, t) := by
  have hroom : cfg.signerPos + maxBufferLen ≤ cfg.numPairs * maxBufferLen := by
    rw [Config.signerPos, Config.numPairs, ← Nat.succ_mul]
  have hmax : maxBufferLen = 67 := rfl
  have hgas : Ensures (calcGasChars cfg tx cfg.gasFeePos maxBufferLen)
      { s with buffers := fun _ => 0, nbPairs := 0 } _ := calcGasChars_ensures rfl
  obtain ⟨_, t, ⟨rfl, hfill⟩, hrun⟩ := hgas.run_bind
  have hhead : ∀ (k : Bool → DisplayM Drawn), ((do
      modify fun s => { s with buffers := fun _ => 0, nbPairs := 0 }
      k (← calcGasChars cfg tx cfg.gasFeePos maxBufferLen)) : DisplayM Drawn).run s = (k true).run t :=
    fun k => hrun k
  rw [displayTransaction, hhead, if_pos rfl, deriveAddress_eq (by decide)]
  cases hsigner : signerText maxBufferLen path with
  | none =>
    have hstore : Ensures (store cfg cfg.signerPos maxBufferLen []) t fun _ _ => True := by
      rw [ensures_store]
      exact ⟨Nat.zero_le _, by rw [List.length_nil]; omega, trivial⟩
    obtain ⟨_, u, -, hu⟩ := hstore.run_bind
    exact ⟨u, hu _⟩
  | some signer =>
    obtain ⟨hlen, hne⟩ := signerText_spec (by decide) hsigner
    have hstore : Ensures (store cfg cfg.signerPos maxBufferLen signer) t fun _ u =>
        u = { t with buffers := t.buffers.write cfg.signerPos signer } := by
      rw [ensures_store]
      exact ⟨by omega, by omega, rfl⟩
    obtain ⟨_, u, rfl, hu⟩ := hstore.run_bind
    exact ⟨_, .of_fee hfill rfl rfl (Nat.mod_lt _ (by decide)) hlen hne, hu _⟩

end

end AppOnt
