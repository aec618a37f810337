import AppOnt.Ui.Review

/-!
# What is accepted and what can be shown

The parser takes the arguments of a call by a signature, on any machine; the
review takes amounts of the machine's own form only, the total only of short
amounts, and a transfer only if there is one. The calls that are accepted and
can be shown are told apart by their arguments.
-/
namespace AppOnt

open Prog Token

/-- The arguments of an accepted call can be shown. -/
structure Call.Renderable (c : Call) : Prop where
  wasmvm : c.vm = .wasmvm → .amount ∉ c.method.parameters ∧ .transferState ∉ c.method.parameters
  others : c.vm ≠ .wasmvm → .uint128 ∉ c.method.parameters
  transfers : c.method.parameters = [.transferStateList] → c.arguments.states ≠ []
  total : ∀ item, c.HasTotal item → c.ShortAmounts

/-- The configured parameters are those that a signature starts with, and take every kind of amount
that the signature has. -/
theorem configs_signature (cfg : Config) (vm : Vm) : ∀ p ∈ getTxPayload, ∀ m ∈ p.methods,
    ∀ display ∈ displayOf cfg vm.contractType (chars m.name),
      m.parameters ≠ [.transferStateList] →
      display.configs.length ≤ (fixedTypes m.parameters).length ∧
      (.amount ∈ (fixedTypes m.parameters).take display.configs.length ↔
        .amount ∈ m.parameters ∨ .transferState ∈ m.parameters) ∧
      (.uint128 ∈ (fixedTypes m.parameters).take display.configs.length ↔
        .uint128 ∈ m.parameters) := by
  simp only [displayOf_target cfg]
  cases cfg.target <;> cases vm <;> decide +kernel

theorem list_parameters : ∀ p ∈ getTxPayload, ∀ m ∈ p.methods,
    m.parameters = [.transferStateList] →
    chars methodTransfer = chars m.name ∨ chars methodTransferV2 = chars m.name := by
  decide +kernel

section
variable [CryptoSdk] [FormatSdk] [CryptoSdk.Total] (x : Signable)

/-- A parameter has a text unless it is an amount of another machine's form. -/
theorem paramText_isSome_iff {k : Nat} {type : TxParameterType} {data : List UInt8}
    (hf : (fields x.call.arguments.tokens)[k]? = some (type, data)) :
    (x.call.paramText k).isSome ↔
      (type = .amount → x.call.vm ≠ .wasmvm) ∧ (type = .uint128 → x.call.vm = .wasmvm) := by
  have hvalid := x.call.arguments.fields_valid _ (List.mem_of_getElem? hf)
  rw [Call.paramText, hf, Option.bind_some]
  cases type with
  | addr =>
    have htext : x.call.fieldText (.addr, data) = addressText maxBufferLen data := rfl
    rw [htext]
    simpa using addressText_isSome hvalid (by decide : base58AddressLen ≤ maxBufferLen)
  | pubkey => simp [Call.fieldText]
  | amount => by_cases h : x.call.vm = .wasmvm <;> simp [Call.fieldText, h]
  | uint128 => by_cases h : x.call.vm = .wasmvm <;> simp [Call.fieldText, h]
  | _ => exact absurd hvalid (by simp [Valid])

/-- A list of transfers can be shown if there is a transfer in it. -/
theorem renders_list (hlist : x.call.method.parameters = [.transferStateList]) :
    x.call.Renders 3 ↔ x.call.Renderable := by
  have htransfer : x.call.IsTransfer := list_parameters _ x.call.registered _ x.call.method_mem hlist
  have hvm := (x.call.arguments.fields_list hlist).1
  have hslots := x.slots_list hlist
  have htotal : ∀ item, x.call.HasTotal item → x.call.ShortAmounts := fun item h =>
    absurd h (htransfer.not_hasTotal item)
  constructor
  · intro h
    refine ⟨fun hw => absurd (hvm.symm.trans hw) (by decide), fun _ => by rw [hlist]; decide,
      fun _ hnil => ?_, htotal⟩
    have := lt_slots_of_paramText x (h.configured 0 (by decide))
    rw [hslots, hnil] at this
    exact absurd this (by decide)
  · intro h
    have hpos := List.length_pos_iff.mpr (h.transfers hlist)
    exact ⟨fun k hk => paramText_isSome_of_list x hlist (by omega),
      fun _ _ k hk => paramText_isSome_of_list x hlist (by omega), htotal⟩

/-- Any other call can be shown if its configured parameters can, which are those of its signature. -/
theorem renders_fixed (hlist : x.call.method.parameters ≠ [.transferStateList]) {cfg : Config}
    {display : MethodDisplay} (hd : displayOf cfg x.call.vm.contractType x.call.name = some display) :
    x.call.Renders display.configs.length ↔ x.call.Renderable := by
  obtain ⟨hlen, hamount, huint128⟩ := configs_signature cfg x.call.vm _ x.call.registered _
    x.call.method_mem display hd hlist
  -- a configured parameter has the type of its place in the signature
  have htext : ∀ k < display.configs.length, ∀ type, (fixedTypes x.call.method.parameters)[k]? =
      some type → ((x.call.paramText k).isSome ↔
        (type = .amount → x.call.vm ≠ .wasmvm) ∧ (type = .uint128 → x.call.vm = .wasmvm)) := by
    intro k _ type hk
    obtain ⟨data, hf⟩ := x.call.arguments.type_of_fixed hk
    exact paramText_isSome_iff x hf
  have htake : ∀ {type}, type ∈ (fixedTypes x.call.method.parameters).take display.configs.length →
      ∃ k < display.configs.length, (fixedTypes x.call.method.parameters)[k]? = some type := by
    intro type h
    obtain ⟨k, hk⟩ := List.mem_iff_getElem?.mp h
    rw [List.getElem?_take] at hk
    split at hk
    · exact ⟨k, by assumption, hk⟩
    · cases hk
  have hmem : ∀ {k type}, k < display.configs.length →
      (fixedTypes x.call.method.parameters)[k]? = some type →
      type ∈ (fixedTypes x.call.method.parameters).take display.configs.length := by
    intro k type hk hkt
    refine List.mem_iff_getElem?.mpr ⟨k, ?_⟩
    rw [List.getElem?_take, if_pos hk, hkt]
  constructor
  · intro h
    refine ⟨fun hw => not_or.mp fun hmem => ?_, fun hw hmem => ?_, fun h => absurd h hlist, h.total⟩
    · obtain ⟨k, hk, hkt⟩ := htake (hamount.mpr hmem)
      exact ((htext k hk _ hkt).mp (h.configured k hk)).1 rfl hw
    · obtain ⟨k, hk, hkt⟩ := htake (huint128.mpr hmem)
      exact hw (((htext k hk _ hkt).mp (h.configured k hk)).2 rfl)
  · intro h
    have hconfigured : ∀ k < display.configs.length, (x.call.paramText k).isSome := by
      intro k hk
      have hkt := List.getElem?_eq_getElem (Nat.lt_of_lt_of_le hk hlen)
      refine (htext k hk _ hkt).mpr ⟨fun ha hw => ?_, fun hu => by_contra fun hw => ?_⟩
      · have := hamount.mp (ha ▸ hmem hk hkt)
        exact this.elim (h.wasmvm hw).1 (h.wasmvm hw).2
      · exact h.others hw (huint128.mp (hu ▸ hmem hk hkt))
    refine ⟨hconfigured, fun hvm ht k hk => ?_, h.total⟩
    -- a transfer that is not a list has three parameters, all of them configured
    rw [configs_of_transfer x hvm ht hd] at hconfigured
    obtain hlist' | ⟨hpairs, hthree⟩ :=
      transfer_signature _ x.call.registered _ x.call.method_mem ht
    · exact absurd hlist' hlist
    · rw [x.slots_fixed hlist hpairs, hthree] at hk
      exact hconfigured k hk

theorem renders_iff {cfg : Config} {display : MethodDisplay}
    (hd : displayOf cfg x.call.vm.contractType x.call.name = some display) :
    x.call.Renders display.configs.length ↔ x.call.Renderable := by
  by_cases hlist : x.call.method.parameters = [.transferStateList]
  · have hvm := (x.call.arguments.fields_list hlist).1
    have htransfer := list_parameters _ x.call.registered _ x.call.method_mem hlist
    rw [configs_of_transfer x hvm htransfer hd]
    exact renders_list x hlist
  · exact renders_fixed x hlist hd

end

end AppOnt
