import AppOnt.Transaction.Reads

/-!
# What the method parameters accept

The composite parameters and the loop over a signature succeed exactly on the
tokens of arguments for it. The key list is where the bounds need an argument:
its length is checked on 64 bits, and what keeps a wrapped check harmless is
that every key takes seventy bytes of a transaction of bounded size.
-/
namespace AppOnt

open Prog Token

namespace Reads

variable {i : Nat} {ts : List Token} {s t : ParserState}

theorem size (h : Reads i ts s t) : t.buf.size = s.buf.size := h.1.size

theorem contract (h : Reads i ts s t) : t.tx.contract = s.tx.contract := by rw [h.2]; rfl

theorem length_rest (h : Reads i ts s t) :
    (encode ts).length + t.buf.rest.length = s.buf.rest.length := by
  rw [h.1.2, List.length_append]

end Reads

section
variable [BufferSdk] {cfg : Config} {j : Nat}

theorem decodes_constant (str : List UInt8) :
    Decodes (onBuf (parseCheckConstant str)) j fun _ : Unit => [.mark str] :=
  Decodes.onBuf j fun b => (parseCheckConstant_returns b str).congr (by simp)

theorem decodes_count (num : Nat) :
    Decodes (onBuf (parseCheckAmount num)) j fun c : Count num => [c.token] :=
  Decodes.onBuf j fun b => parseCheckAmount_returns b num

theorem decodes_address (hj : j < cfg.parametersMaxNum) (hasLength : Bool) :
    Decodes (intoParameter cfg j (parseAddress hasLength)) j fun a => [addressToken hasLength a] :=
  Decodes.intoParameter hj fun out b p => parseAddress_returns b hasLength out p

theorem decodes_amount (hj : j < cfg.parametersMaxNum) :
    Decodes (intoParameter cfg j parseAmount) j fun a : AmountCode => [a.token] :=
  Decodes.intoParameter hj fun out b p => parseAmount_returns b out p

theorem decodes_pubkey (hj : j < cfg.parametersMaxNum) :
    Decodes (intoParameter cfg j parsePk) j fun key => [pubkeyToken key] :=
  Decodes.intoParameter hj fun out b p => parsePk_returns b out p

theorem decodes_uint128 (hj : j < cfg.parametersMaxNum) :
    Decodes (intoParameter cfg j parseUint128) j
      fun n : Bytes 16 => [.value .uint128 [] n.1] :=
  Decodes.intoParameter hj fun out b p => parseUint128_returns b out p

theorem decodes_ontid : Decodes (onBuf parseOntId) j
    fun id : { id : List UInt8 // id ≠ [] ∧ id.length < 256 } =>
      [.mark (UInt8.ofNat id.1.length :: id.1)] :=
  Decodes.onBuf j fun b => (parseOntId_returns b).congr (by simp)

/-- A transfer, in three parameters. -/
theorem parseTransferState_delivers (hj : j ≤ cfg.parametersMaxNum) (s : ParserState) :
    Delivers (parseTransferState cfg j j) s fun cur t =>
      cur = j + 3 ∧ cur ≤ cfg.parametersMaxNum ∧ ∃ st : TransferState, Reads j st.tokens s t := by
  have hadd : cfg.addSize j 3 = j + 3 := by
    have := cfg.sizeMod_cases
    have := cfg.target_cases
    exact cfg.addSize_of_lt (by omega)
  refine ensures_of_returns fun cur => ?_
  have hbody (hle : cfg.addSize j 3 ≤ cfg.parametersMaxNum) : Decodes
      (onBuf (parseCheckConstant opcodeStBegin) <&&>
        intoParameter cfg j (parseAddress true) <&&>
        onBuf (parseCheckConstant opcodeParamEnd) <&&>
        intoParameter cfg (j + 1) (parseAddress true) <&&>
        onBuf (parseCheckConstant opcodeParamEnd) <&&>
        intoParameter cfg (j + 2) parseAmount <&&>
        onBuf (parseCheckConstant opcodeParamEnd) <&&>
        onBuf (parseCheckConstant opcodeStEnd)) j TransferState.tokens := by
    refine ((decodes_constant (j := j) _).and ((decodes_address (by omega) true).and
      ((decodes_constant (j := j + 1) _).and ((decodes_address (by omega) true).and
      ((decodes_constant (j := j + 2) _).and ((decodes_amount (by omega)).and
      ((decodes_constant (j := j + 3) _).and (decodes_constant (j := j + 3) _)
      ?_) ?_) ?_) ?_) ?_) ?_) ?_).reindex
      (fun st => ((), st.source, (), st.target, (), st.amount, (), ()))
      (fun a => ⟨a.2.1, a.2.2.2.1, a.2.2.2.2.2.1⟩) (fun _ => rfl) (fun _ => rfl) <;> intro _ <;> rfl
  refine Returns.congr (((returns_guard _).testAnd fun hle => hbody hle s).deliver _ cur) fun t => ?_
  rw [hadd]
  constructor
  · rintro ⟨hc, hle, h⟩
    exact ⟨hc, by omega, h⟩
  · rintro ⟨hc, hle, h⟩
    exact ⟨hc, by omega, h⟩

end

namespace PkAmountPairs

@[simp] theorem slots_keyTokens (ks : List (Bytes (2 * compressedKeyLen))) :
    slots (keyTokens ks) = ks.length := by
  induction ks with
  | nil => rfl
  | cons k ks ih => simpa [keyTokens, slots, pubkeyToken, paramEnd] using ih

theorem length_keyTokens (ks : List (Bytes (2 * compressedKeyLen))) :
    (encode (keyTokens ks)).length = 70 * ks.length := by
  induction ks with
  | nil => rfl
  | cons k ks ih =>
    have hk : k.1.length = 66 := k.2
    have htok : (encode [pubkeyToken k, paramEnd]).length = 70 := by
      simp [bytes, pubkeyToken, paramEnd, hk, opcodeParamEnd]
    change (encode ([pubkeyToken k, paramEnd] ++ keyTokens ks)).length = _
    rw [encode_append, List.length_append, htok, ih, List.length_cons]
    omega

@[simp] theorem slots_amountTokens (as : List AmountCode) :
    slots (amountTokens as) = as.length := by
  induction as with
  | nil => rfl
  | cons a as ih =>
    cases as with
    | nil => rfl
    | cons b as => simpa [amountTokens, slots, AmountCode.token, paramEnd] using ih

theorem amountTokens_cons (a : AmountCode) (as : List AmountCode) :
    amountTokens (a :: as) =
      [a.token] ++ ((if as = [] then [] else [paramEnd]) ++ amountTokens as) := by
  cases as <;> rfl

@[simp] theorem slots_tokens (p : PkAmountPairs) : slots p.tokens = 2 * p.pairs.length + 1 := by
  simp [tokens, slots, AmountCode.token, paramEnd, Count.token]
  omega

theorem length_rest_of_key {i j : Nat} {s t r : ParserState} {k : Bytes (2 * compressedKeyLen)}
    (hk : Reads i [pubkeyToken k] s t) (he : Reads j [paramEnd] t r) :
    r.buf.rest.length + 70 = s.buf.rest.length := by
  have h1 := hk.length_rest
  have h2 := he.length_rest
  have h3 : (encode ([pubkeyToken k] ++ [paramEnd])).length = 70 := length_keyTokens [k]
  rw [encode_append, List.length_append] at h3
  omega

end PkAmountPairs

section
variable [BufferSdk] {cfg : Config} {j : Nat}

/-- Each key takes seventy bytes, so the bytes that are left bound the index that is reached. -/
theorem parsePks_returns (n fuel i : Nat) (s : ParserState) (hi : i ≤ n + 1)
    (hfuel : s.buf.rest.length < fuel)
    (hbound : 70 * (j + i) + s.buf.rest.length < 70 * cfg.parametersMaxNum) :
    Returns (parsePks cfg j n fuel i) s true fun t =>
      ∃ ks, ks.length + i = n + 1 ∧ Reads (j + i) (PkAmountPairs.keyTokens ks) s t := by
  induction fuel generalizing i s with
  | zero => omega
  | succ fuel ih =>
    rw [parsePks]
    by_cases hn : i ≤ n
    · rw [if_pos hn]
      have hadd : cfg.addSize i 1 = i + 1 := by
        have := cfg.sizeMod_cases
        have := cfg.target_cases
        exact cfg.addSize_of_lt (by omega)
      refine Returns.congr ((decodes_pubkey (by omega) s).and fun t ht =>
        (decodes_constant (j := j + (i + 1)) _ t).and fun r hr => ih (cfg.addSize i 1) r
          (by omega) ?_ ?_) fun u => ?_
      · obtain ⟨⟨k, hk⟩, ⟨_, he⟩⟩ := And.intro ht hr
        have := PkAmountPairs.length_rest_of_key hk he
        omega
      · obtain ⟨⟨k, hk⟩, ⟨_, he⟩⟩ := And.intro ht hr
        have := PkAmountPairs.length_rest_of_key hk he
        omega
      · rw [hadd]
        constructor
        · rintro ⟨ks, hl, hks⟩
          obtain ⟨k, ks, rfl⟩ : ∃ k ks', ks = k :: ks' := by
            cases ks with
            | nil => simp at hl; omega
            | cons k ks => exact ⟨k, ks, rfl⟩
          obtain ⟨t, hk, ht⟩ := (reads_append (u := [pubkeyToken k])).mp hks
          obtain ⟨r, he, hr⟩ := (reads_append (u := [paramEnd])).mp ht
          exact ⟨t, ⟨k, hk⟩, r, ⟨(), he⟩, ks, by simp at hl; omega, hr⟩
        · rintro ⟨t, ⟨k, hk⟩, r, ⟨_, he⟩, ks, hl, hr⟩
          refine ⟨k :: ks, by simp; omega, ?_⟩
          exact (reads_append (u := [pubkeyToken k])).mpr ⟨t, hk,
            (reads_append (u := [paramEnd])).mpr ⟨r, he, hr⟩⟩
    · rw [if_neg hn]
      refine (returns_pure true true).congr fun u => ?_
      constructor
      · rintro ⟨ks, hl, hks⟩
        obtain rfl : ks = [] := List.length_eq_zero_iff.mp (by omega)
        exact ⟨rfl, reads_nil.mp hks⟩
      · rintro ⟨_, hu⟩
        exact ⟨[], by simp; omega, reads_nil.mpr hu⟩

theorem parsePkAmounts_returns (n fuel i : Nat) (s : ParserState) (hi : i ≤ n + 1)
    (hfuel : n + 1 < fuel + i) (hbound : j + 2 * n < cfg.parametersMaxNum) :
    Returns (parsePkAmounts cfg j n fuel i) s true fun t =>
      ∃ as, as.length + i = n + 1 ∧ Reads (j + n + i) (PkAmountPairs.amountTokens as) s t := by
  induction fuel generalizing i s with
  | zero => omega
  | succ fuel ih =>
    have hmod := cfg.sizeMod_cases
    have hmax := cfg.target_cases
    rw [parsePkAmounts]
    by_cases hn : i ≤ n
    · have hadd : cfg.addSize i 1 = i + 1 := cfg.addSize_of_lt (by omega)
      have hidx : j + (n + i) % 2 ^ 64 = j + n + i := by omega
      rw [if_pos hn, hidx]
      refine Returns.congr ((decodes_amount (by omega) s).and fun t ht =>
        Returns.and (R := fun r => Reads (j + n + (i + 1)) (if i = n then [] else [paramEnd]) t r)
          ?_ fun r hr => ih (cfg.addSize i 1) r (by omega) (by omega)) fun u => ?_
      · by_cases hin : i = n
        · simpa [hin] using returns_pure true true
        · simp only [hin, ne_eq, not_false_eq_true, if_true, if_false]
          exact (decodes_constant (j := j + n + (i + 1)) _ t).congr (by simp [paramEnd])
      · rw [hadd]
        have hlast (as : List AmountCode) (hl : as.length + (i + 1) = n + 1) :
            (if as = [] then [] else [paramEnd]) = if i = n then [] else [paramEnd] :=
          if_congr (by rw [← List.length_eq_zero_iff]; omega) rfl rfl
        constructor
        · rintro ⟨as, hl, has⟩
          obtain ⟨a, as, rfl⟩ : ∃ a as', as = a :: as' := by
            cases as with
            | nil => simp at hl; omega
            | cons a as => exact ⟨a, as, rfl⟩
          have hl' : as.length + (i + 1) = n + 1 := by simp at hl; omega
          rw [PkAmountPairs.amountTokens_cons, hlast as hl'] at has
          obtain ⟨t, hk, ht⟩ := reads_append.mp has
          obtain ⟨r, he, hr⟩ := reads_append.mp ht
          refine ⟨t, ⟨a, hk⟩, r, he, as, hl', ?_⟩
          split at hr <;> exact hr
        · rintro ⟨t, ⟨a, ha⟩, r, he, as, hl, hr⟩
          refine ⟨a :: as, by simp; omega, ?_⟩
          rw [PkAmountPairs.amountTokens_cons, hlast as hl]
          refine reads_append.mpr ⟨t, ha, reads_append.mpr ⟨r, he, ?_⟩⟩
          split <;> exact hr
    · rw [if_neg hn]
      refine (returns_pure true true).congr fun u => ?_
      constructor
      · rintro ⟨as, hl, has⟩
        obtain rfl : as = [] := List.length_eq_zero_iff.mp (by omega)
        exact ⟨rfl, reads_nil.mp has⟩
      · rintro ⟨_, hu⟩
        exact ⟨[], by simp; omega, reads_nil.mpr hu⟩

/-- From `s` to `u` over what follows the length of a list of `n` keys. -/
def ReadsPairs (cfg : Config) (j n : Nat) (s u : ParserState) : Prop :=
  ∃ (ks : List (Bytes (2 * compressedKeyLen))) (c : Count n) (as : List AmountCode),
    ks.length = n ∧ as.length = n ∧ 2 * n + 1 + j ≤ cfg.parametersMaxNum ∧
      Reads (j + 1) ([paramEnd] ++ (PkAmountPairs.keyTokens ks ++
        ([c.token] ++ ([paramEnd] ++ PkAmountPairs.amountTokens as)))) s u

theorem readsPairs_returns {n : Nat} (hj : j ≤ 30)
    (hn : (n * 2 + 1 + j) % 2 ^ 64 ≤ cfg.parametersMaxNum) (s : ParserState)
    (hs : s.buf.size ≤ cfg.maxTransactionLen) :
    Returns (onBuf (parseCheckConstant opcodeParamEnd) <&&>
        parsePks cfg j n (s.buf.size + 1) 1 <&&>
        onBuf (parseCheckAmount n) <&&> onBuf (parseCheckConstant opcodeParamEnd) <&&>
        parsePkAmounts cfg j n (s.buf.size + 1) 1) s true (ReadsPairs cfg j n s) := by
  have hmax := cfg.target_cases
  have hsize := s.buf.offset_add_length_rest
  refine Returns.congr ((decodes_constant (j := j + 1) _ s).and fun r ⟨_, hr⟩ =>
    (parsePks_returns n (s.buf.size + 1) 1 r (by omega) ?_ ?_).and (S := fun t u =>
      2 * n + 1 + j ≤ cfg.parametersMaxNum ∧
        ∃ t₁, (∃ c : Count n, Reads (j + 1 + n) [c.token] t t₁) ∧
        ∃ t₂, (∃ _ : Unit, Reads (j + 1 + n) [paramEnd] t₁ t₂) ∧
        ∃ as, as.length + 1 = n + 1 ∧ Reads (j + n + 1) (PkAmountPairs.amountTokens as) t₂ u)
      fun t ⟨ks, hl, hk⟩ => ?_) fun u => ?_
  · have := hr.length_rest
    omega
  · have := hr.length_rest
    omega
  · have h1 := hr.length_rest
    have h2 := hk.length_rest
    rw [PkAmountPairs.length_keyTokens] at h2
    -- Seventy bytes a key: too few keys for the check on 64 bits to have wrapped.
    have hbound : 2 * n + 1 + j ≤ cfg.parametersMaxNum := by omega
    exact Returns.congr ((decodes_count (j := j + 1 + n) n t).and fun t₁ _ =>
      (decodes_constant (j := j + 1 + n) _ t₁).and fun t₂ _ =>
      parsePkAmounts_returns n (s.buf.size + 1) 1 t₂ (by omega) (by omega) (by omega))
      fun u => and_iff_right hbound
  · constructor
    · rintro ⟨ks, c, as, hk, ha, hbound, h⟩
      obtain ⟨r, hr, h⟩ := reads_append.mp h
      obtain ⟨t, ht, h⟩ := reads_append.mp h
      obtain ⟨t₁, ht₁, h⟩ := reads_append.mp h
      obtain ⟨t₂, ht₂, h⟩ := reads_append.mp h
      rw [PkAmountPairs.slots_keyTokens, hk] at ht₁ ht₂ h
      refine ⟨r, ⟨(), hr⟩, t, ⟨ks, by omega, ht⟩, hbound, t₁, ⟨c, ht₁⟩, t₂, ⟨(), ht₂⟩, as, by omega, ?_⟩
      rw [show j + n + 1 = j + 1 + n by omega]
      exact h
    · rintro ⟨r, ⟨_, hr⟩, t, ⟨ks, hk, ht⟩, hbound, t₁, ⟨c, ht₁⟩, t₂, ⟨_, ht₂⟩, as, ha, h⟩
      obtain rfl : ks.length = n := by omega
      refine ⟨ks, c, as, rfl, by omega, hbound, reads_append.mpr ⟨r, hr, reads_append.mpr ⟨t, ht,
        reads_append.mpr ⟨t₁, ?_, reads_append.mpr ⟨t₂, ?_, ?_⟩⟩⟩⟩⟩
      all_goals rw [PkAmountPairs.slots_keyTokens]
      · exact ht₁
      · exact ht₂
      · rw [show j + ks.length + 1 = j + 1 + ks.length by omega] at h
        exact h

omit [BufferSdk] in
/-- The length and what follows it make up the pairs. -/
theorem readsPairs_iff {s u : ParserState} {cur : Nat} :
    (∃ t, (∃ a : AmountCode, Reads j [a.token] s t) ∧ ∃ n, n ≠ 0 ∧
      (∃ a : AmountCode, a.uint64? = some n ∧ Reads j [a.token] s t) ∧
      cur = j + (2 * n + 1) ∧ ReadsPairs cfg j n t u) ↔
    ∃ p : PkAmountPairs,
      cur = j + slots p.tokens ∧ cur ≤ cfg.parametersMaxNum ∧ Reads j p.tokens s u := by
  constructor
  · rintro ⟨t, _, n, hn, ⟨a, ha, ht⟩, hcur, ks, c, as, hk, hl, hbound, h⟩
    have hz : (ks.zip as).length = n := by simp [hk, hl]
    subst hz
    refine ⟨⟨ks.zip as, by simpa using hn, ⟨a, ha⟩, c⟩, by simpa using hcur, by omega, ?_⟩
    have hfst : (ks.zip as).map (·.1) = ks := List.map_fst_zip (by omega)
    have hsnd : (ks.zip as).map (·.2) = as := List.map_snd_zip (by omega)
    refine (reads_append (u := [_])).mpr ⟨t, ht, ?_⟩
    simp only [hfst, hsnd]
    exact h
  · rintro ⟨p, hcur, hle, h⟩
    obtain ⟨t, ht, h⟩ := (reads_append (u := [_])).mp h
    rw [PkAmountPairs.slots_tokens] at hcur
    exact ⟨t, ⟨_, ht⟩, p.pairs.length, by simpa using p.ne_nil, ⟨_, p.keys.value_eq, ht⟩, hcur,
      _, p.amounts, _, by simp, by simp, by omega, h⟩

theorem parsePkAmountPairs_delivers (hj : j ≤ 30) (s : ParserState)
    (hs : s.buf.size ≤ cfg.maxTransactionLen) :
    Delivers (parsePkAmountPairs cfg j j) s fun cur t => ∃ p : PkAmountPairs,
      cur = j + slots p.tokens ∧ cur ≤ cfg.parametersMaxNum ∧ Reads j p.tokens s t := by
  refine ensures_of_returns fun cur => ?_
  have hmax := cfg.target_cases
  refine Returns.congr ((decodes_amount (by omega) s).guarded
    (fun t h => returns_get_bind.mpr ?_) (by simp)) fun u => readsPairs_iff.symm
  obtain ⟨a, ha⟩ := h
  have hconv (a : AmountCode) (ha : Reads j [a.token] s t) :
      convertParamToUint64Le t.buf.ptr (t.tx.method.parameters j) = .ok a.uint64? := by
    obtain ⟨hb, ht⟩ := reads_value.mp ha
    rw [List.nil_append] at hb
    rw [ht, hb.1]
    simpa [Transaction.setParameters] using convertParamToUint64Le_encode a hb.readPtr
  refine Returns.congr (Delivers.bind (S := fun n t' u => n ≠ 0 ∧ cur = j + (2 * n + 1) ∧
    ReadsPairs cfg j n t' u) (delivers_ofExcept (hconv a ha)) (fun n t' hpost => ?_)
    fun t => returns_pure_ne (by simp)) fun u => ?_
  · obtain ⟨-, rfl⟩ := hpost
    refine Returns.congr (((returns_guard _).testAnd fun h => readsPairs_returns hj h.2 t'
      (by rw [ha.size]; exact hs)).deliver _ cur) fun u => ?_
    have hadd : ReadsPairs cfg j n t' u → cfg.addSize j (n * 2 + 1) = j + (2 * n + 1) := by
      rintro ⟨_, _, _, _, _, hbound, _⟩
      have := cfg.sizeMod_cases
      rw [cfg.addSize_of_lt (by omega), Nat.mul_comm]
    constructor
    · rintro ⟨hn, hcur, h⟩
      obtain ⟨_, _, _, _, _, hbound, _⟩ := id h
      exact ⟨by rw [hadd h, hcur], ⟨hn, by omega⟩, h⟩
    · rintro ⟨hcur, ⟨hn, _⟩, h⟩
      exact ⟨hn, by rw [hcur, hadd h], h⟩
  · constructor
    · rintro ⟨n, hn, ⟨a', ha', hs'⟩, hcur, h⟩
      have he := (hconv a ha).symm.trans (hconv a' hs')
      rw [ha'] at he
      exact ⟨n, t, ⟨by simpa using he, rfl⟩, hn, hcur, h⟩
    · rintro ⟨n, t', ⟨hv, ht'⟩, hn, hcur, h⟩
      subst ht'
      exact ⟨n, hn, ⟨a, hv, ha⟩, hcur, h⟩

end

/-- The list of keys, if there is one, comes early enough among the parameters from index `j`
on, and only once. -/
def PairsEarly (j : Nat) (types : List TxParameterType) : Prop :=
  ∀ k < types.length, types[k]? = some .pkAmountPairs →
    j + 3 * k ≤ 30 ∧ .pkAmountPairs ∉ types.take k

instance (j : Nat) (types : List TxParameterType) : Decidable (PairsEarly j types) :=
  inferInstanceAs (Decidable (∀ k < types.length, _ → _))

theorem pairsEarly_of_registered : ∀ p ∈ getTxPayload, ∀ m ∈ p.methods, PairsEarly 0 m.parameters := by
  decide

theorem PairsEarly.head {j : Nat} {types : List TxParameterType}
    (h : PairsEarly j (.pkAmountPairs :: types)) : j ≤ 30 := by
  have := (h 0 (by simp) rfl).1
  omega

theorem PairsEarly.tail {j j' : Nat} {type : TxParameterType} {types : List TxParameterType}
    (h : PairsEarly j (type :: types)) (hj : type ≠ .pkAmountPairs → j' ≤ j + 3) :
    PairsEarly j' types := by
  intro k hk hget
  obtain ⟨hle, hnot⟩ := h (k + 1) (by simpa using hk) (by simpa using hget)
  simp only [List.take_succ_cons, List.mem_cons, not_or] at hnot
  have := hj (Ne.symm hnot.1)
  exact ⟨by omega, hnot.2⟩

/-- Every parameter of the arguments has its place in the array. -/
def Args.Fits (cfg : Config) (vm : Vm) : {types : List TxParameterType} → Nat → Args types → Prop
  | _, _, nil => True
  | _, j, cons a as => j < cfg.parametersMaxNum ∧
    j + slots (a.tokens vm) ≤ cfg.parametersMaxNum ∧ as.Fits cfg vm (j + slots (a.tokens vm))

theorem Arg.slots_le {type : TxParameterType} (a : Arg type) (vm : Vm)
    (h : type ≠ .pkAmountPairs) : slots (a.tokens vm) ≤ 3 := by
  cases a with
  | pkAmountPairs p => exact absurd rfl h
  | _ => simp [Arg.tokens, slots, addressToken, pubkeyToken, AmountCode.token,
      TransferState.tokens, paramEnd]

section
variable [BufferSdk] {cfg : Config} {j : Nat} {vm : Vm} {s : ParserState}

omit [BufferSdk] in
/-- A case of the `switch` that reads an argument of a fixed number of parameters. -/
theorem Decodes.deliverArg {α : Type} {type : TxParameterType} {x : ParseM Bool}
    {u : α → List Token} (h : Decodes x j u) (f : Arg type → α) (g : α → Arg type)
    (hf : ∀ a : Arg type, a.tokens vm = u (f a)) (hg : ∀ a, (g a).tokens vm = u a) (n : Nat)
    (hn : ∀ a, slots (u a) = n) (hle : j + n ≤ cfg.parametersMaxNum) (cur : Nat) :
    Returns (do if ← x then return some (j + n) else return none) s (some cur) fun t =>
      ∃ a : Arg type, cur = j + slots (a.tokens vm) ∧ cur ≤ cfg.parametersMaxNum ∧
        Reads j (a.tokens vm) s t := by
  refine ((h.reindex f g hf hg).deliver (fun a => by rw [hf, hn]) s cur).congr fun t => ?_
  constructor
  · rintro ⟨a, hcur, _, hr⟩
    exact ⟨a, hcur, hr⟩
  · rintro ⟨a, hcur, hr⟩
    exact ⟨a, hcur, by rw [hcur, hf, hn]; exact hle, hr⟩

theorem parseMethodParam_delivers {type : TxParameterType} (hj : j < cfg.parametersMaxNum)
    (hearly : type = .pkAmountPairs → j ≤ 30) (hs : s.buf.size ≤ cfg.maxTransactionLen)
    (hvm : s.tx.contract.type = vm.contractType) :
    Delivers (parseMethodParam cfg type j) s fun cur t => ∃ a : Arg type,
      cur = j + slots (a.tokens vm) ∧ cur ≤ cfg.parametersMaxNum ∧ Reads j (a.tokens vm) s t := by
  have hwasm : decide (s.tx.contract.type ≠ .wasmvm) = decide (vm ≠ .wasmvm) := by
    rw [hvm]
    cases vm <;> rfl
  refine ensures_of_returns fun cur => returns_get_bind.mpr ?_
  cases type with
  | addr =>
    simp only [hwasm]
    exact (decodes_address hj _).deliverArg (fun | .addr a => a) .addr (by rintro ⟨a⟩; rfl)
      (fun _ => rfl) 1 (fun _ => rfl) hj cur
  | pubkey =>
    exact (decodes_pubkey hj).deliverArg (fun | .pubkey k => k) .pubkey (by rintro ⟨k⟩; rfl)
      (fun _ => rfl) 1 (fun _ => rfl) hj cur
  | amount =>
    exact (decodes_amount hj).deliverArg (fun | .amount a => a) .amount (by rintro ⟨a⟩; rfl)
      (fun _ => rfl) 1 (fun _ => rfl) hj cur
  | uint128 =>
    exact (decodes_uint128 hj).deliverArg (fun | .uint128 n => n) .uint128 (by rintro ⟨n⟩; rfl)
      (fun _ => rfl) 1 (fun _ => rfl) hj cur
  | ontid =>
    exact decodes_ontid.deliverArg (fun | .ontid id hne hlt => ⟨id, hne, hlt⟩)
      (fun id => .ontid id.1 id.2.1 id.2.2) (by rintro ⟨id⟩; rfl) (fun _ => rfl) 0 (fun _ => rfl)
      hj.le cur
  | pkAmountPairs =>
    refine ((parsePkAmountPairs_delivers (hearly rfl) s hs).returns cur).congr fun t => ?_
    exact ⟨fun ⟨.pkAmountPairs p, h⟩ => ⟨p, h⟩, fun ⟨p, h⟩ => ⟨.pkAmountPairs p, h⟩⟩
  | transferState =>
    refine ((parseTransferState_delivers hj.le s).returns cur).congr fun t => ?_
    exact ⟨fun ⟨.transferState st, hcur, hle, h⟩ => ⟨hcur, hle, st, h⟩,
      fun ⟨hcur, hle, st, h⟩ => ⟨.transferState st, hcur, hle, h⟩⟩
  | paramEnd =>
    exact (returns_pure_ne (by simp)).congr fun t => iff_of_false (fun ⟨a, _⟩ => nomatch a) id
  | transferStateList =>
    exact (returns_pure_ne (by simp)).congr fun t => iff_of_false (fun ⟨a, _⟩ => nomatch a) id

theorem parseParamEnd_returns (hvm : s.tx.contract.type = vm.contractType) :
    Returns parseParamEnd s true fun u =>
      Reads j (if vm = .native then [paramEnd] else []) s u := by
  refine returns_get_bind.mpr ?_
  rw [hvm]
  cases vm with
  | native => exact (decodes_constant (j := j) _ s).congr (by simp [paramEnd])
  | neovm => exact (returns_pure true true).congr (by simp)
  | wasmvm => exact (returns_pure true true).congr (by simp)

theorem parseMethodParams_delivers {types : List TxParameterType} (hearly : PairsEarly j types)
    (hs : s.buf.size ≤ cfg.maxTransactionLen) (hvm : s.tx.contract.type = vm.contractType)
    (num : Nat) :
    Delivers (parseMethodParams cfg types j num) s fun n t => n = num + types.length ∧
      ∃ args : Args types, args.Fits cfg vm j ∧ Reads j (args.tokens vm) s t := by
  induction types generalizing j s num with
  | nil =>
    refine (delivers_some num).congr fun n t => ?_
    constructor
    · intro ⟨hn, .nil, _, hr⟩
      exact ⟨hn, reads_nil.mp hr⟩
    · rintro ⟨hn, ht⟩
      exact ⟨hn, .nil, trivial, reads_nil.mpr ht⟩
  | cons type types ih =>
    refine ensures_of_returns fun n => ?_
    rw [parseMethodParams]
    have hend : slots (if vm = .native then [paramEnd] else []) = 0 := by split <;> rfl
    by_cases hj : j < cfg.parametersMaxNum
    · rw [if_neg (by omega)]
      refine Returns.congr (Delivers.bind (parseMethodParam_delivers hj
        (fun h => by subst h; exact hearly.head) hs hvm) (fun cur t ⟨a, hcur, hle, ha⟩ =>
          (parseParamEnd_returns (j := cur) (by rw [ha.contract]; exact hvm)).guarded
          (fun r hr => (ih (j := cur) (hearly.tail fun h => ?_) ?_ ?_ (num + 1)).returns n)
          (by simp)) fun t => returns_pure_ne (by simp)) fun u => ?_
      · have := a.slots_le vm h
        omega
      · rwa [hr.size, ha.size]
      · rw [hr.contract, ha.contract]
        exact hvm
      · constructor
        · intro ⟨hn, .cons a as, ⟨_, hle, hfits⟩, h⟩
          obtain ⟨r, hr, has⟩ := reads_append.mp h
          obtain ⟨t, ha, he⟩ := reads_append.mp hr
          refine ⟨_, t, ⟨a, rfl, hle, ha⟩, r, he, by simp at hn; omega, as, hfits, ?_⟩
          rwa [slots_append, hend, Nat.add_zero] at has
        · rintro ⟨cur, t, ⟨a, hcur, hle, ha⟩, r, he, hn, as, hfits, h⟩
          subst hcur
          refine ⟨by simp; omega, .cons a as, ⟨hj, hle, hfits⟩, ?_⟩
          refine reads_append.mpr ⟨r, reads_append.mpr ⟨t, ha, he⟩, ?_⟩
          rwa [slots_append, hend, Nat.add_zero]
    · rw [if_pos (by omega)]
      refine (returns_pure_ne (by simp)).congr fun u => iff_of_false ?_ id
      intro ⟨_, .cons a as, ⟨hlt, _⟩, _⟩
      exact hj hlt

end

end AppOnt
