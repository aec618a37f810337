import AppOnt.Transaction.Fields
import AppOnt.Ui.Conventions
import AppOnt.Ui.Display

/-!
# What a row shows

The text of a parameter as a function of the call, and the specification of
`convertParamToChars` and of the loop over a configuration by it. A function is
described by the field that it fills and by what it leaves alone, so that the
rows of a review can be told apart however many there are.
-/
namespace AppOnt

open Prog Token

section
variable {cfg : Config} {s t u : Display} {pos len : Nat} {text src : List UInt8}

@[simp] theorem ensures_u8 {n : Nat} {Q : Nat → Display → Prop} :
    Ensures (u8 n) s Q ↔ n < 256 ∧ Q n s := by
  unfold u8
  by_cases h : n < 256 <;> simp [h]

@[simp] theorem ensures_store {bs : List UInt8} {Q : PUnit → Display → Prop} :
    Ensures (store cfg pos len bs) s Q ↔ bs.length ≤ len ∧
      pos + bs.length ≤ cfg.numPairs * maxBufferLen ∧
      Q ⟨⟩ { s with buffers := s.buffers.write pos bs } := by
  unfold store
  by_cases h : len < bs.length
  · simp [h, Nat.not_le.mpr h]
  · by_cases h' : cfg.numPairs * maxBufferLen < pos + bs.length
    · simp [h, h', Nat.not_le.mpr h']
    · simp [h, h', Nat.not_lt.mp h, Nat.not_lt.mp h']

@[simp] theorem ensures_setPair {pair : TagValue} {Q : PUnit → Display → Prop} :
    Ensures (setPair cfg pos pair) s Q ↔ pos < cfg.numPairs ∧
      Q ⟨⟩ (s.putPair pos pair) := by
  unfold setPair
  by_cases h : pos < cfg.numPairs <;> simp [h]

@[simp] theorem ensures_appendPair {pair : TagValue} {Q : PUnit → Display → Prop} :
    Ensures (appendPair cfg pair) s Q ↔ s.nbPairs < cfg.numPairs ∧ s.nbPairs + 1 < 256 ∧
      Q ⟨⟩ { s.putPair s.nbPairs pair with nbPairs := s.nbPairs + 1 } := by
  simp [appendPair, Display.putPair]

/-- From `s` to `t` bytes from `lo` up to `hi` changed at most. -/
structure Touches (s t : Display) (lo hi : Nat) : Prop where
  agree : s.buffers.AgreeOff t.buffers lo hi
  pairs_eq : t.pairs = s.pairs
  nbPairs_eq : t.nbPairs = s.nbPairs

/-- From `s` to `t` a field was filled, and nothing else happened. -/
structure Fills (s t : Display) (pos len : Nat) (text : List UInt8) : Prop
    extends Touches s t pos (pos + len) where
  field : t.buffers.Field pos len text

theorem explicitBzero_ensures (hroom : pos + len ≤ cfg.numPairs * maxBufferLen) :
    Ensures (explicitBzero cfg pos len) s fun _ t => Fills s t pos len [] := by
  have hag := Memory.write_agreeOff s.buffers pos (List.replicate len 0)
  rw [List.length_replicate] at hag
  rw [explicitBzero, ensures_store, List.length_replicate]
  exact ⟨Nat.le_refl _, hroom, ⟨hag, rfl, rfl⟩, Memory.write_zeros_field ..⟩

/-- A text that ends in NULs, or fills its field, is stored into a zeroed field. -/
theorem Fills.store (h : Fills s t pos len []) (text : List UInt8) (k : Nat) (hle : text.length + k ≤ len)
    (hroom : pos + len ≤ cfg.numPairs * maxBufferLen) :
    Ensures (store cfg pos len (text ++ List.replicate k 0)) t fun _ u => Fills s u pos len text := by
  have hag := Memory.write_agreeOff t.buffers pos (text ++ List.replicate k 0)
  have hl : (text ++ List.replicate k (0 : UInt8)).length = text.length + k := by simp
  rw [ensures_store, hl]
  rw [hl] at hag
  exact ⟨hle, by omega, ⟨h.agree.trans (hag.mono (Nat.le_refl _) (by omega)), h.pairs_eq,
    h.nbPairs_eq⟩, h.field.write hle⟩

theorem Fills.strlcat (h : Fills s t pos len text) (hne : (0 : UInt8) ∉ text)
    (hle : text.length + src.length < len) (hroom : pos + len ≤ cfg.numPairs * maxBufferLen) :
    Ensures (strlcat cfg pos src len) t fun _ u => Fills s u pos len (text ++ src) := by
  have hlen : t.buffers.strnlen pos len = text.length :=
    (h.field.isString hne (by omega)).strnlen_eq (by omega)
  have htake : src.take (len - text.length - 1) = src := List.take_of_length_le (by omega)
  have hag := Memory.write_agreeOff t.buffers (pos + text.length) (src ++ [0])
  simp only [List.length_append, List.length_singleton] at hag
  simp only [AppOnt.strlcat, ensures_bind, ensures_get, hlen, htake]
  rw [if_neg (by omega), ensures_store, List.length_append, List.length_singleton]
  exact ⟨by omega, by omega, ⟨h.agree.trans (hag.mono (by omega) (by omega)), h.pairs_eq,
    h.nbPairs_eq⟩, h.field.append (by omega)⟩

end

/-- The number that the bytes of an amount stand for. -/
def amountValue : List UInt8 → Nat
  | [] => 0
  | [b] => if b = 0 then 0 else b.toNat - opcodePushNumber
  | _ :: bs => leNat bs

theorem amountValue_encode (a : AmountCode) : amountValue a.encode = a.value := by
  cases a with
  | zero => rfl
  | push n =>
    revert n
    decide
  | bytes bs ne_nil le =>
    cases bs with
    | nil => exact absurd rfl ne_nil
    | cons b bs => rfl

namespace Call

variable (c : Call)

def decimals : Nat := c.vm.tokenDecimals c.payload c.method.name

/-- What follows the number in the row of an amount. -/
def unit : List UInt8 :=
  if chars methodSetFeePercentage = c.name then chars percentage
  else chars " " ++ chars c.payload.ticker

def amountText (n : Nat) : List UInt8 := trimmed n c.decimals ++ c.unit

variable [CryptoSdk] [FormatSdk]

/-- The text of a parameter, by its type and its bytes. -/
def fieldText (f : TxParameterType × List UInt8) : Option (List UInt8) :=
  match f.1 with
  | .addr => addressText maxBufferLen f.2
  | .pubkey => some f.2
  | .amount => if c.vm = .wasmvm then none else some (c.amountText (amountValue f.2))
  | .uint128 => if c.vm = .wasmvm then some (c.amountText (leNat f.2)) else none
  | _ => none

/-- The text of the `k`-th parameter, if there is one and it can be shown. -/
def paramText (k : Nat) : Option (List UInt8) := (fields c.arguments.tokens)[k]?.bind c.fieldText

end Call

theorem decimals_le (vm : Vm) : ∀ p ∈ getTxPayload, ∀ m ∈ p.methods,
    vm.tokenDecimals p m.name ≤ 18 := by
  cases vm <;> decide +kernel

theorem ticker_bounds : ∀ p ∈ getTxPayload,
    (chars p.ticker).length ≤ 5 ∧ (0 : UInt8) ∉ chars p.ticker := by
  decide +kernel

/-- What follows an amount: a percent sign, or a space and the ticker. -/
def unitText (fee : Bool) (ticker : String) : List UInt8 :=
  if fee then chars percentage else chars " " ++ chars ticker

theorem unitText_bounds (fee : Bool) {ticker : String}
    (h : (chars ticker).length ≤ 5 ∧ (0 : UInt8) ∉ chars ticker) :
    (unitText fee ticker).length ≤ 6 ∧ (0 : UInt8) ∉ unitText fee ticker := by
  have hspace : (chars " ").length = 1 ∧ (0 : UInt8) ∉ chars " " := by decide +kernel
  have hpercent : (chars percentage).length ≤ 6 ∧ (0 : UInt8) ∉ chars percentage := by decide +kernel
  cases fee with
  | true => exact hpercent
  | false =>
    have happ : unitText false ticker = chars " " ++ chars ticker := rfl
    rw [happ, List.length_append, List.mem_append]
    exact ⟨by omega, fun hm => hm.elim hspace.2 h.2⟩

theorem Call.unit_eq (c : Call) :
    c.unit = unitText (decide (chars methodSetFeePercentage = c.name)) c.payload.ticker := by
  unfold Call.unit unitText
  split <;> rename_i h <;> simp [h]

theorem Call.unit_bounds (c : Call) : c.unit.length ≤ 6 ∧ (0 : UInt8) ∉ c.unit := by
  rw [c.unit_eq]
  exact unitText_bounds _ (ticker_bounds _ c.registered)

theorem length_amountText (c : Call) {n : Nat} (h : n < 2 ^ 128) : (c.amountText n).length ≤ 64 := by
  have hd := decimals_le c.vm _ c.registered _ c.method_mem
  have hle := length_trimmed_le (n := n) (d := c.decimals) (by decide : 0 < 39)
    (Nat.lt_of_lt_of_le h (by decide))
  have hu := c.unit_bounds.1
  rw [Call.amountText, List.length_append]
  simp only [Call.decimals] at hle ⊢
  omega

theorem zero_not_mem_amountText (c : Call) (n : Nat) : (0 : UInt8) ∉ c.amountText n := by
  intro h
  exact (List.mem_append.mp h).elim (zero_not_mem_trimmed _ _) c.unit_bounds.2

section
variable [CryptoSdk] [FormatSdk] {cfg : Config} {s t : Display} {pos : Nat} {text : List UInt8}
  (x : Signable) {tx : Transaction}

/-- How a conversion ends: with the text in its field, or with a failure. -/
def Converts (s : Display) (pos : Nat) (text : Option (List UInt8)) (ok : Bool) (t : Display) :
    Prop :=
  match text with
  | some text => ok = true ∧ Fills s t pos maxBufferLen text
  | none => ok = false ∧ Touches s t pos (pos + maxBufferLen)

omit [CryptoSdk] [FormatSdk] in
theorem appendUnit_fills {raw : List UInt8} {tx : Transaction} {fee : Bool} {ticker : String}
    (hfee : methodcmp raw tx.method.name methodSetFeePercentage = .ok fee)
    (hticker : tx.contract.ticker = some ticker)
    (hbounds : (chars ticker).length ≤ 5 ∧ (0 : UInt8) ∉ chars ticker)
    (h : Fills s t pos maxBufferLen text) (hne : (0 : UInt8) ∉ text) (hle : text.length ≤ 58)
    (hroom : pos + maxBufferLen ≤ cfg.numPairs * maxBufferLen) :
    Ensures (appendUnit cfg raw tx pos maxBufferLen) t fun ok u =>
      ok = true ∧ Fills s u pos maxBufferLen (text ++ unitText fee ticker) := by
  have hmax : maxBufferLen = 67 := rfl
  have hpercent : (chars percentage).length = 1 := by decide +kernel
  have hspace : (chars " ").length = 1 ∧ (0 : UInt8) ∉ chars " " := by decide +kernel
  simp only [appendUnit, hfee, ensures_bind, ensures_ofExcept, Except.ok.injEq, exists_eq_left']
  cases fee with
  | true =>
    rw [if_pos rfl]
    exact ensures_bind.mpr ((h.strlcat hne (by omega) hroom).mono fun _ u hu =>
      ensures_pure.mpr ⟨rfl, hu⟩)
  | false =>
    rw [if_neg (by decide), hticker]
    refine ensures_bind.mpr ((h.strlcat hne (by omega) hroom).mono fun _ u hu => ?_)
    have hne' : (0 : UInt8) ∉ text ++ chars " " := by simp [hne, hspace.2]
    have happ : text ++ unitText false ticker = text ++ chars " " ++ chars ticker :=
      (List.append_assoc _ _ _).symm
    rw [happ]
    refine ensures_bind.mpr ((hu.strlcat hne' ?_ hroom).mono fun _ v hv => ensures_pure.mpr ⟨rfl, hv⟩)
    rw [List.length_append]
    omega

omit [CryptoSdk] [FormatSdk] in
/-- The rendering of an amount that can be converted. -/
theorem writeAmount_fills {raw : List UInt8} {tx : Transaction} {param : TxParameter} {fee : Bool}
    {ticker : String} (hfee : methodcmp raw tx.method.name methodSetFeePercentage = .ok fee)
    (hticker : tx.contract.ticker = some ticker)
    (hbounds : (chars ticker).length ≤ 5 ∧ (0 : UInt8) ∉ chars ticker)
    (h : Fills s t pos maxBufferLen []) (hne : (0 : UInt8) ∉ text) (hle : text.length ≤ 58)
    (hconv : ∃ z, convertParamAmountToChars raw param tx.contract.tokenDecimals
        (decide (tx.contract.type ≠ .wasmvm)) maxBufferLen =
        .ok (some (text ++ List.replicate (z + 1) 0)) ∧ text.length + (z + 1) ≤ maxBufferLen)
    (hroom : pos + maxBufferLen ≤ cfg.numPairs * maxBufferLen) :
    Ensures (writeAmount cfg raw tx param pos maxBufferLen) t fun ok u =>
      ok = true ∧ Fills s u pos maxBufferLen (text ++ unitText fee ticker) := by
  obtain ⟨z, hz, hz'⟩ := hconv
  rw [writeAmount, hz, ensures_bind, ensures_ofExcept]
  exact ⟨_, rfl, ensures_bind.mpr ((h.store text (z + 1) hz' hroom).mono fun _ u hu =>
    appendUnit_fills hfee hticker hbounds hu hne hle hroom)⟩

omit [CryptoSdk] [FormatSdk] in
/-- The rendering of a stored amount. -/
theorem writeAmount_ensures {param : TxParameter} {n : Nat} {hasPrefix : Bool}
    (h : Fills s t pos maxBufferLen []) (hn : n < 2 ^ 128)
    (hpre : decide (x.call.vm.contractType ≠ .wasmvm) = hasPrefix)
    (hconv : ∃ z, convertParamAmountToChars x.encode param x.call.decimals hasPrefix maxBufferLen =
        .ok (some (trimmed n x.call.decimals ++ List.replicate (z + 1) 0)) ∧
      (trimmed n x.call.decimals).length + (z + 1) ≤ maxBufferLen)
    (hroom : pos + maxBufferLen ≤ cfg.numPairs * maxBufferLen) :
    Ensures (writeAmount cfg x.encode (x.view tx) param pos maxBufferLen) t
      (Converts s pos (some (x.call.amountText n))) := by
  have hd := decimals_le x.call.vm _ x.call.registered _ x.call.method_mem
  have hle := length_trimmed_le (n := n) (d := x.call.decimals) (by decide : 0 < 39)
    (Nat.lt_of_lt_of_le hn (by decide))
  have hshort : (trimmed n x.call.decimals).length ≤ 58 := by
    simp only [Call.decimals] at hle ⊢
    omega
  subst hpre
  have hticker : (x.view tx).contract.ticker = some x.call.payload.ticker := rfl
  have hwrite := writeAmount_fills (x.methodcmp_view tx _) hticker (ticker_bounds _ x.call.registered) h
    (zero_not_mem_trimmed n x.call.decimals) hshort hconv hroom
  rw [← Call.unit_eq] at hwrite
  exact hwrite

omit [CryptoSdk] [FormatSdk] in
theorem writeAmount_fails {param : TxParameter} (h : Fills s t pos maxBufferLen [])
    (hconv : convertParamAmountToChars x.encode param x.call.decimals
      (decide (x.call.vm.contractType ≠ .wasmvm)) maxBufferLen = .ok none) :
    Ensures (writeAmount cfg x.encode (x.view tx) param pos maxBufferLen) t (Converts s pos none) := by
  have hview : convertParamAmountToChars x.encode param (x.view tx).contract.tokenDecimals
      (decide ((x.view tx).contract.type ≠ .wasmvm)) maxBufferLen = .ok none := hconv
  rw [writeAmount, hview, ensures_bind, ensures_ofExcept]
  exact ⟨_, rfl, ensures_pure.mpr ⟨rfl, h.toTouches⟩⟩

omit [CryptoSdk] [FormatSdk] in
theorem contractType_ne_wasmvm (vm : Vm) :
    decide (vm.contractType ≠ .wasmvm) = decide (vm ≠ .wasmvm) := by
  cases vm <;> rfl

/-- A stored parameter is written as its text. -/
theorem writeParam_ensures {param : TxParameter} {type : TxParameterType} {data : List UInt8}
    (h : Fills s t pos maxBufferLen []) (hst : Signable.Stored x.encode param type data)
    (hvalid : Valid (type, data)) (hroom : pos + maxBufferLen ≤ cfg.numPairs * maxBufferLen) :
    Ensures (writeParam cfg x.encode (x.view tx) param pos maxBufferLen) t
      (Converts s pos (x.call.fieldText (type, data))) := by
  have hmax : maxBufferLen = 67 := rfl
  have hd := decimals_le x.call.vm _ x.call.registered _ x.call.method_mem
  have hvm := contractType_ne_wasmvm x.call.vm
  obtain ⟨ptr, ty, len⟩ := param
  obtain ⟨rfl, hread, rfl, hne⟩ := hst
  obtain ⟨k, rfl⟩ := Option.ne_none_iff_exists'.mp hne
  unfold writeParam
  dsimp only
  cases ty with
  | addr =>
    have hlen : data.length = addressScriptHashLen := hvalid
    have hout : base58AddressLen ≤ maxBufferLen := by decide
    rw [hlen] at hread
    simp only [hread, ensures_bind, ensures_ofExcept, Except.ok.injEq, exists_eq_left',
      convertScriptHash_eq hlen hout, Call.fieldText]
    cases htext : addressText maxBufferLen data with
    | none =>
      have hnil := h.store [] 0 (by simp) hroom
      exact hnil.mono fun _ u hu => ensures_pure.mpr ⟨rfl, hu.toTouches⟩
    | some text =>
      have hspec := addressText_spec hlen hout htext
      have hstore := h.store text 0 (by omega) hroom
      rw [List.replicate_zero, List.append_nil] at hstore
      exact hstore.mono fun _ u hu => ensures_pure.mpr ⟨rfl, hu⟩
  | pubkey =>
    have hlen : data.length = 66 := hvalid
    rw [if_pos (by omega)]
    simp only [hread, ensures_bind, ensures_ofExcept, Except.ok.injEq, exists_eq_left',
      Call.fieldText]
    have hstore := h.store data 0 (by omega) hroom
    rw [List.replicate_zero, List.append_nil] at hstore
    refine hstore.mono fun _ u hu => ?_
    have happ : (u.buffers.write (pos + data.length) ([] ++ [0])).Field pos maxBufferLen (data ++ []) :=
      hu.field.append (by rw [List.length_nil]; omega)
    have hag := Memory.write_agreeOff u.buffers (pos + data.length) [0]
    rw [List.length_singleton] at hag
    rw [ensures_store, List.length_singleton, ensures_pure]
    rw [List.append_nil, List.nil_append] at happ
    exact ⟨by omega, by omega, rfl, ⟨hu.agree.trans (hag.mono (by omega) (by omega)), hu.pairs_eq,
      hu.nbPairs_eq⟩, happ⟩
  | amount =>
    obtain ⟨a, rfl⟩ : ∃ a : AmountCode, data = a.encode := hvalid
    by_cases hw : x.call.vm = .wasmvm
    · have htext : x.call.fieldText (.amount, a.encode) = none := if_pos hw
      rw [htext]
      refine writeAmount_fails x h ?_
      rw [hvm, hw]
      exact convertParamAmountToChars_amount_false
    · have htext : x.call.fieldText (.amount, a.encode) = some _ := if_neg hw
      rw [htext, amountValue_encode]
      exact writeAmount_ensures x h a.value_lt (by rw [hvm, decide_eq_true hw])
        (convertParamAmountToChars_amount a hread (hd.trans (by decide)) (by decide)) hroom
  | uint128 =>
    have hlen : data.length = 16 := hvalid
    by_cases hw : x.call.vm = .wasmvm
    · have htext : x.call.fieldText (.uint128, data) = some _ := if_pos hw
      rw [htext]
      rw [hlen] at hread ⊢
      have hlt : leNat data < 2 ^ 128 := by
        have := leNat_lt data
        rwa [hlen] at this
      exact writeAmount_ensures x h hlt (by rw [hvm, hw]; rfl)
        (convertParamAmountToChars_uint128 ⟨data, hlen⟩ hread (hd.trans (by decide)) (by decide)) hroom
    · have htext : x.call.fieldText (.uint128, data) = none := if_neg hw
      rw [htext]
      refine writeAmount_fails x h ?_
      rw [hvm, decide_eq_true hw]
      exact convertParamAmountToChars_uint128_true
  | _ => exact absurd hvalid (by simp [Valid])

/-- A parameter is converted to its text; one that is missing is not. -/
theorem convertParamToChars_ensures (hslots : slots x.call.arguments.tokens ≤ cfg.parametersMaxNum)
    (k : Nat) (hroom : pos + maxBufferLen ≤ cfg.numPairs * maxBufferLen) :
    Ensures (convertParamToChars cfg x.encode (x.view .zero) k pos maxBufferLen) s
      (Converts s pos (x.call.paramText k)) := by
  unfold convertParamToChars
  cases hf : (fields x.call.arguments.tokens)[k]? with
  | none =>
    have hk : slots x.call.arguments.tokens ≤ k := by
      rw [← length_fields]
      exact List.getElem?_eq_none_iff.mp hf
    have hnone : x.call.paramText k = none := by rw [Call.paramText, hf]; rfl
    rw [if_pos (.inr (by rw [x.parameters_of_le hk]; rfl)), hnone]
    exact ensures_pure.mpr ⟨rfl, Memory.AgreeOff.refl _ _ _, rfl, rfl⟩
  | some f =>
    obtain ⟨type, data⟩ := f
    have hst := x.stored .zero hf
    have hlt := (List.getElem?_eq_some_iff.mp hf).1
    rw [length_fields] at hlt
    have htext : x.call.paramText k = x.call.fieldText (type, data) := by rw [Call.paramText, hf]; rfl
    rw [if_neg (not_or.mpr ⟨by omega, hst.data_ne⟩), htext]
    refine ensures_bind.mpr ((explicitBzero_ensures hroom).mono fun _ t ht => ?_)
    exact writeParam_ensures x ht hst
      (x.call.arguments.fields_valid _ (List.mem_of_getElem? hf)) hroom

/-- Only fields from `lo` up to `hi` changed, and only rows of which `p` holds. -/
structure Draws (s t : Display) (lo hi : Nat) (p : Nat → Prop) : Prop where
  agree : s.buffers.AgreeOff t.buffers (lo * maxBufferLen) (hi * maxBufferLen)
  pairs_eq : ∀ q, ¬ p q → t.pairs q = s.pairs q

omit [CryptoSdk] [FormatSdk] in
theorem Draws.trans {u : Display} {lo mid hi : Nat} {p q r : Nat → Prop} (h : Draws s t lo mid p)
    (g : Draws t u mid hi q) (hlo : lo ≤ mid) (hhi : mid ≤ hi) (hp : ∀ i, p i ∨ q i → r i) :
    Draws s u lo hi r where
  agree := (h.agree.mono (Nat.le_refl _) (Nat.mul_le_mul_right _ hhi)).trans
    (g.agree.mono (Nat.mul_le_mul_right _ hlo) (Nat.le_refl _))
  pairs_eq i hi := by
    rw [g.pairs_eq i fun hq => hi (hp i (.inr hq)), h.pairs_eq i fun hq => hi (hp i (.inl hq))]

/-- A row shows a parameter under a label. -/
structure Call.ShowsRow (c : Call) (d : Display) (pos : Nat) (item : String) (index : Nat) : Prop where
  pair_eq : d.pairs pos = ⟨.literal item, .buffer (index * maxBufferLen)⟩
  shows : ∃ text, c.paramText index = some text ∧
    d.buffers.Field (index * maxBufferLen) maxBufferLen text

/-- What is drawn from later fields, into other rows, leaves a row as it is. -/
theorem Call.ShowsRow.of_draws {c : Call} {lo hi pos index : Nat} {item : String} {p : Nat → Prop}
    (h : c.ShowsRow s pos item index) (hd : Draws s t lo hi p) (hindex : index < lo) (hpos : ¬ p pos) :
    c.ShowsRow t pos item index := by
  obtain ⟨text, htext, hfield⟩ := h.shows
  have hle := Nat.mul_le_mul_right maxBufferLen (Nat.succ_le_of_lt hindex)
  rw [Nat.succ_mul] at hle
  exact ⟨(hd.pairs_eq pos hpos).trans h.pair_eq, text, htext, hfield.of_agreeOff hd.agree (.inl hle)⟩

/-- The loop over a configuration: it succeeds if all the parameters have a text, and then every
row shows its own. -/
theorem paramRows_ensures (hslots : slots x.call.arguments.tokens ≤ cfg.parametersMaxNum)
    {base : Nat} (bound : Nat) (configs : List ParamConfig) (i : Nat)
    (hnodup : (configs.map (·.pos)).Nodup) (hpos : ∀ c ∈ configs, c.pos + base < bound)
    (hbound : bound ≤ cfg.numPairs) (hindex : i + configs.length + base ≤ cfg.numPairs) :
    Ensures (paramRows cfg x.encode (x.view .zero) base configs i) s fun ok t =>
      (ok = true ↔ ∀ j < configs.length, (x.call.paramText (i + j + base)).isSome) ∧
      Draws s t (i + base) (i + configs.length + base) (fun q => ∃ c ∈ configs, q = c.pos + base) ∧
      t.nbPairs = s.nbPairs ∧
      (ok = true → ∀ j c, configs[j]? = some c →
        x.call.ShowsRow t (c.pos + base) c.item (i + j + base)) := by
  have hnum : cfg.numPairs < 256 := by
    have := cfg.target_cases
    simp only [Config.numPairs]
    omega
  induction configs generalizing i s with
  | nil =>
    refine ensures_pure.mpr ⟨by simp, ⟨Memory.AgreeOff.refl _ _ _, fun _ _ => rfl⟩, rfl, ?_⟩
    exact fun _ j c hj => absurd hj (by simp)
  | cons c cs ih =>
    have hc := hpos c List.mem_cons_self
    rw [List.length_cons] at hindex
    have hroom : (i + base) * maxBufferLen + maxBufferLen ≤ cfg.numPairs * maxBufferLen := by
      rw [← Nat.succ_mul]
      exact Nat.mul_le_mul_right _ (by omega)
    simp only [paramRows, ensures_bind, ensures_u8]
    refine ⟨by omega, by omega, (convertParamToChars_ensures x hslots _ hroom).mono fun ok t ht => ?_⟩
    cases htext : x.call.paramText (i + base) with
    | none =>
      rw [htext] at ht
      obtain ⟨rfl, htouch⟩ := ht
      refine ensures_pure.mpr ⟨?_, ⟨htouch.agree.mono (Nat.le_refl _) ?_, ?_⟩, htouch.nbPairs_eq, ?_⟩
      · simp only [Bool.false_eq_true, false_iff, not_forall]
        exact ⟨0, by simp, by simp [htext]⟩
      · rw [← Nat.succ_mul]
        exact Nat.mul_le_mul_right _ (by rw [List.length_cons]; omega)
      · exact fun q _ => by rw [htouch.pairs_eq]
      · simp
    | some text =>
      rw [htext] at ht
      obtain ⟨rfl, hfill⟩ := ht
      -- the row is drawn, and the later ones lie behind it
      have hrow : x.call.ShowsRow (t.putPair (c.pos + base) ⟨.literal c.item,
          .buffer ((i + base) * maxBufferLen)⟩) (c.pos + base) c.item (i + base) :=
        ⟨by simp [Display.putPair], text, htext, hfill.field⟩
      have hdraw : Draws s (t.putPair (c.pos + base) ⟨.literal c.item,
          .buffer ((i + base) * maxBufferLen)⟩) (i + base) (i + 1 + base)
          (fun q => q = c.pos + base) := by
        refine ⟨hfill.agree.mono (Nat.le_refl _) ?_, fun q hq => ?_⟩
        · rw [← Nat.succ_mul]
          exact Nat.mul_le_mul_right _ (by omega)
        · simp [Display.putPair, Function.update_of_ne hq, hfill.pairs_eq]
      have hnodup' := List.nodup_cons.mp hnodup
      rw [if_pos rfl, ensures_bind, ensures_setPair]
      refine ⟨by omega, (ih (i + 1) hnodup'.2 (fun d hd => hpos d (List.mem_cons_of_mem _ hd))
        (by omega)).mono fun ok u hpost => ?_⟩
      obtain ⟨hok, hd, hn, hrows⟩ := hpost
      refine ⟨?_, ?_, ?_, ?_⟩
      · rw [hok]
        constructor
        · intro h j hj
          cases j with
          | zero => simp [htext]
          | succ j =>
            have := h j (by simpa using hj)
            rwa [show i + (j + 1) + base = i + 1 + j + base by omega]
        · intro h j hj
          have := h (j + 1) (by simpa using hj)
          rwa [show i + (j + 1) + base = i + 1 + j + base by omega] at this
      · have := hdraw.trans hd (by omega) (by omega) (r := fun q => ∃ d ∈ c :: cs, q = d.pos + base)
          (by
            rintro q (rfl | ⟨d, hd, rfl⟩)
            · exact ⟨c, List.mem_cons_self, rfl⟩
            · exact ⟨d, List.mem_cons_of_mem _ hd, rfl⟩)
        rwa [List.length_cons, show i + (cs.length + 1) + base = i + 1 + cs.length + base by omega]
      · rw [hn]
        exact hfill.nbPairs_eq
      · intro ht j d hj
        cases j with
        | zero =>
          obtain rfl : c = d := by simpa using hj
          refine hrow.of_draws hd (by omega) ?_
          rintro ⟨e, he, hpe⟩
          exact hnodup'.1 (List.mem_map.mpr ⟨e, he, show e.pos = c.pos by omega⟩)
        | succ j =>
          have := hrows ht j d (by simpa using hj)
          rwa [show i + (j + 1) + base = i + 1 + j + base by omega]

end

end AppOnt
