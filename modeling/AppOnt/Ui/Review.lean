import AppOnt.Ui.Nodes

/-!
# The rows of a call

What `handleParams` does with any accepted call: when it succeeds, and that it
leaves the end of the buffers alone.
-/
namespace AppOnt

open Prog Token

namespace Call

variable (c : Call)

def IsTransfer : Prop := chars methodTransfer = c.name ∨ chars methodTransferV2 = c.name

/-- The call has a row for the total, with the label `item` in it. -/
structure HasTotal (item : String) : Prop where
  native : c.vm = .native
  item_eq : c.pairsItem = some item
  long : maxPubkeyDisplay < c.arguments.nodes.length

/-- What it takes to build the rows of a call, `configs` of which are configured. -/
structure Renders [CryptoSdk] [FormatSdk] (configs : Nat) : Prop where
  configured : ∀ k < configs, (c.paramText k).isSome
  transfers : c.vm = .native → c.IsTransfer →
    ∀ k < slots c.arguments.tokens, (c.paramText k).isSome
  total : ∀ item, c.HasTotal item → c.ShortAmounts

end Call

/-- Without a list of pairs the signature says how many parameters there are. -/
theorem Args.slots_fixed {types : List TxParameterType} (args : Args types) (vm : Vm)
    (h : .pkAmountPairs ∉ types) : slots (args.tokens vm) = (fixedTypes types).length := by
  induction args with
  | nil => rfl
  | cons a as ih =>
    have hvm : slots (if vm = .native then [paramEnd] else []) = 0 := by split <;> rfl
    have htail := ih fun hmem => h (List.mem_cons_of_mem _ hmem)
    rw [Args.tokens, slots_append, slots_append, hvm, htail]
    cases a with
    | pkAmountPairs p => exact absurd List.mem_cons_self h
    | transferState st =>
      simp [fixedTypes, Arg.tokens, TransferState.tokens, slots, addressToken, AmountCode.token,
        paramEnd]
      omega
    | _ => simp [fixedTypes, Arg.tokens, slots, addressToken, pubkeyToken, AmountCode.token, Nat.add_comm]

/-- What a transfer takes: a list of transfers, or the three things of one. -/
theorem transfer_signature : ∀ p ∈ getTxPayload, ∀ m ∈ p.methods,
    chars methodTransfer = chars m.name ∨ chars methodTransferV2 = chars m.name →
    m.parameters = [.transferStateList] ∨
      .pkAmountPairs ∉ m.parameters ∧ (fixedTypes m.parameters).length = 3 := by
  decide +kernel

/-- The configured rows are at different places, before the fifth one. -/
theorem display_configs (cfg : Config) (type : TxContractType) {name : List UInt8}
    {display : MethodDisplay} (h : displayOf cfg type name = some display) :
    (display.configs.map (·.pos)).Nodup ∧ (∀ c ∈ display.configs, c.pos < 4) ∧
      display.configs.length ≤ 4 := by
  obtain ⟨d, hd, rfl⟩ := Option.map_eq_some_iff.mp h
  have hmem := List.mem_of_find?_eq_some hd
  have hall : ∀ d ∈ methodDisplays ⟨cfg.target, .w32⟩ type, (d.2.configs.map (·.pos)).Nodup ∧
      (∀ c ∈ d.2.configs, c.pos < 4) ∧ d.2.configs.length ≤ 4 := by
    cases cfg.target <;> cases type <;> decide +kernel
  exact hall d hmem

section
variable [CryptoSdk] [FormatSdk] {cfg : Config} {s : Display} (x : Signable)
  {beyond : Nat → Except Fault TxParameter}

omit [CryptoSdk] [FormatSdk] in
theorem Signable.slots_fixed (hlist : x.call.method.parameters ≠ [.transferStateList])
    (hpairs : .pkAmountPairs ∉ x.call.method.parameters) :
    slots x.call.arguments.tokens = (fixedTypes x.call.method.parameters).length := by
  obtain ⟨h, -⟩ | ⟨as, has⟩ := x.call.arguments.fields_eq
  · exact absurd h hlist
  · rw [← length_fields, has, length_fields, as.slots_fixed _ hpairs]

omit [CryptoSdk] [FormatSdk] in
theorem slots_transfer (h : x.call.IsTransfer) : ∃ n, slots x.call.arguments.tokens = 3 * n := by
  rcases transfer_signature _ x.call.registered _ x.call.method_mem h with hlist | ⟨hpairs, hthree⟩
  · exact ⟨_, x.slots_list hlist⟩
  · refine ⟨1, ?_⟩
    rw [x.slots_fixed (fun hlist => ?_) hpairs, hthree]
    rw [hlist] at hthree
    cases hthree

/-- What drawing the rows of a call comes to: it fails only at a total that cannot be taken, it
leaves the fee and the signer alone, and the total is in the last row. -/
structure DrawsCall (cfg : Config) (c : Call) (s t : Display) (ok : Bool) (rows : Nat) : Prop where
  ok_iff : ok = true ↔ ∀ item, c.HasTotal item → c.ShortAmounts
  agree : s.buffers.AgreeOff t.buffers 0 cfg.gasFeePos
  nbPairs_le : t.nbPairs ≤ rows
  total : ok = true → ∀ item, c.HasTotal item → t.nbPairs ≠ 0 ∧
    t.pairs (t.nbPairs - 1) = ⟨.literal (totalPlus ++ item), .buffer cfg.totalPos⟩ ∧
    t.buffers.IsString cfg.totalPos c.totalText

omit [CryptoSdk] [FormatSdk] in
theorem DrawsCall.of_no_total {c : Call} {rows : Nat} (h : ∀ item, ¬ c.HasTotal item)
    (hrows : s.nbPairs ≤ rows) : DrawsCall cfg c s s true rows :=
  ⟨⟨fun _ item hitem => absurd hitem (h item), fun _ => rfl⟩, Memory.AgreeOff.refl _ _ _, hrows,
    fun _ item hitem => absurd hitem (h item)⟩

theorem pkAmountPairsRows_draws (hvm : x.call.vm = .native)
    (hslots : slots x.call.arguments.tokens ≤ cfg.parametersMaxNum) (hnum : s.nbPairs ≤ 5)
    (hzero : s.buffers.Field cfg.totalPos amountSize []) :
    Ensures (pkAmountPairsRows cfg x.encode (x.view .zero) beyond) s fun ok t =>
      DrawsCall cfg x.call s t ok 13 := by
  cases hitem : x.call.pairsItem with
  | none =>
    have hnone : ∀ item, ¬ x.call.HasTotal item := fun item h => by
      have := hitem.symm.trans h.item_eq
      cases this
    simp only [pkAmountPairsRows, pairsItem_eq, hitem, pure_bind, ensures_pure]
    exact .of_no_total hnone (by omega)
  | some item =>
    have heq : ∀ {item'}, x.call.HasTotal item' → item' = item := fun h =>
      Option.some.inj (h.item_eq.symm.trans hitem)
    refine (pkAmountPairsRows_ensures x hitem (by rw [hvm]; decide) hslots hnum hzero).mono
      fun ok t hpost => ?_
    obtain ⟨hok, hag, hn, _, htotal⟩ := hpost
    refine ⟨hok.trans ⟨fun h item' hitem' => ?_, fun h => ?_⟩,
      hag.mono (Nat.zero_le _) (Nat.le_refl _), by omega, fun ht item' hitem' => ?_⟩
    · exact h.resolve_left (Nat.not_le.mpr hitem'.long)
    · rcases Nat.lt_or_ge maxPubkeyDisplay x.call.arguments.nodes.length with hlong | hshort
      · exact .inr (h item ⟨hvm, hitem, hlong⟩)
      · exact .inl hshort
    · rw [heq hitem']
      exact htotal ht hitem'.long

/-- Where nothing follows, the rows for nodes decide. -/
theorem nativeRows_other (h : ¬ x.call.IsTransfer) {tx : Transaction} {display : MethodDisplay} :
    nativeRows cfg x.encode (x.view tx) beyond display =
      if chars methodRegisterCandidate = x.call.name then do
        appendPair cfg ⟨.literal stakeFee, .literal stakeFeeOng⟩
        pkAmountPairsRows cfg x.encode (x.view tx) beyond
      else pkAmountPairsRows cfg x.encode (x.view tx) beyond := by
  obtain ⟨h₁, h₂⟩ := not_or.mp h
  have hpure : ∀ m : DisplayM Bool, (do if ← m then pure true else pure false) = m := fun m => by
    conv_rhs => rw [← bind_pure m]
    refine bind_congr fun b => ?_
    cases b <;> rfl
  simp [nativeRows, x.methodcmp_view, h₁, h₂, hpure]

/-- The rows of a native call that is not a transfer. -/
theorem nativeRows_draws (hvm : x.call.vm = .native) (htransfer : ¬ x.call.IsTransfer)
    (hslots : slots x.call.arguments.tokens ≤ cfg.parametersMaxNum) {display : MethodDisplay}
    (hnum : s.nbPairs ≤ 4) (hzero : s.buffers.Field cfg.totalPos amountSize []) :
    Ensures (nativeRows cfg x.encode (x.view .zero) beyond display) s fun ok t =>
      DrawsCall cfg x.call s t ok 13 := by
  have hcfg := cfg.target_cases
  have hpairs : cfg.numPairs = cfg.parametersMaxNum + 2 := rfl
  rw [nativeRows_other x htransfer]
  split
  · simp only [ensures_bind, ensures_appendPair]
    refine ⟨by omega, by omega, ?_⟩
    refine (pkAmountPairsRows_draws x hvm hslots ?_ ?_).mono fun ok u hu => ?_
    · exact Nat.succ_le_succ hnum
    · exact hzero
    · exact ⟨hu.ok_iff, hu.agree, hu.nbPairs_le, hu.total⟩
  · exact pkAmountPairsRows_draws x hvm hslots (by omega) hzero

theorem lt_slots_of_paramText {k : Nat} (h : (x.call.paramText k).isSome) :
    k < slots x.call.arguments.tokens := by
  by_contra hk
  rw [Call.paramText, List.getElem?_eq_none (by rw [length_fields]; omega)] at h
  cases h

omit [CryptoSdk] [FormatSdk] in
theorem Call.IsTransfer.not_hasTotal {c : Call} (h : c.IsTransfer) (item : String) :
    ¬ c.HasTotal item := by
  intro hitem
  have hother := transfer_other h
  simp only [List.forall_mem_cons] at hother
  have hnone : c.pairsItem = none := by simp [Call.pairsItem, hother]
  cases hnone.symm.trans hitem.item_eq

/-- The rows of any accepted call. -/
theorem handleParams_ensures (hslots : slots x.call.arguments.tokens ≤ cfg.parametersMaxNum)
    (hbeyond : x.call.vm = .native → x.call.IsTransfer →
      slots x.call.arguments.tokens = cfg.parametersMaxNum →
      ∃ p, beyond cfg.parametersMaxNum = .ok p)
    {display : MethodDisplay} (hd : displayOf cfg x.call.vm.contractType x.call.name = some display)
    (hzero : s.buffers.Field cfg.totalPos amountSize []) :
    Ensures (handleParams cfg x.encode (x.view .zero) beyond display) s fun ok t =>
      (ok = true ↔ x.call.Renders display.configs.length) ∧
      s.buffers.AgreeOff t.buffers 0 cfg.gasFeePos ∧
      (ok = true → t.nbPairs ≤ cfg.parametersMaxNum ∧
        ∀ item, x.call.HasTotal item → t.nbPairs ≠ 0 ∧
          t.pairs (t.nbPairs - 1) = ⟨.literal (totalPlus ++ item), .buffer cfg.totalPos⟩ ∧
          t.buffers.IsString cfg.totalPos x.call.totalText) := by
  have hcfg := cfg.target_cases
  have hpairs : cfg.numPairs = cfg.parametersMaxNum + 2 := rfl
  have hgas : cfg.gasFeePos = cfg.totalPos + amountSize := rfl
  obtain ⟨hnodup, hpos, hlen⟩ := display_configs cfg _ hd
  by_cases htransfer : x.call.vm = .native ∧ x.call.IsTransfer
  · obtain ⟨n, hn⟩ := slots_transfer x htransfer.2
    have hthree : display.configs.length = 3 := by
      rw [configs_of_transfer x htransfer.1 htransfer.2 hd]
      rfl
    have hread : 3 * n < cfg.parametersMaxNum ∨ ∃ p, beyond (3 * n) = .ok p := by
      rcases Nat.lt_or_ge (3 * n) cfg.parametersMaxNum with hlt | hge
      · exact .inl hlt
      · have hfull : 3 * n = cfg.parametersMaxNum := by omega
        rw [hfull]
        exact .inr (hbeyond htransfer.1 htransfer.2 (by omega))
    refine (handleParams_transfer x htransfer.1 htransfer.2 hn (by omega) hread hd).mono
      fun ok t hpost => ?_
    obtain ⟨hok, hag, hshow⟩ := hpost
    refine ⟨hok.trans ⟨fun h => ⟨fun k hk => h.2 k (by omega), fun _ _ k hk => h.2 k (by omega),
        fun item hitem => ?_⟩, fun h => ⟨?_, fun k hk => ?_⟩⟩,
      hag.mono (Nat.le_refl _) (by omega), fun ht => ⟨?_, fun item hitem => ?_⟩⟩
    · exact absurd hitem (htransfer.2.not_hasTotal item)
    · have := lt_slots_of_paramText x (h.configured 0 (by omega))
      omega
    · exact h.transfers htransfer.1 htransfer.2 k (by omega)
    · rw [(hshow ht).1]
      omega
    · exact absurd hitem (htransfer.2.not_hasTotal item)
  · have htransfers : x.call.vm = .native → x.call.IsTransfer →
        ∀ k < slots x.call.arguments.tokens, (x.call.paramText k).isSome :=
      fun hvm ht => absurd ⟨hvm, ht⟩ htransfer
    simp only [handleParams, ensures_bind, ensures_modify]
    refine (paramRows_ensures x hslots 4 display.configs 0 hnodup
      (fun c hc => by have := hpos c hc; omega) (by omega) (by omega)).mono
      fun ok t hpost => ?_
    obtain ⟨hok, hdraw, hn, -⟩ := hpost
    have hn : t.nbPairs = display.configs.length := hn
    have hle : (0 + display.configs.length + 0) * maxBufferLen ≤ cfg.totalPos :=
      Nat.mul_le_mul_right _ (by omega)
    have hag : s.buffers.AgreeOff t.buffers 0 cfg.totalPos := hdraw.agree.mono (by omega) hle
    have hconfigured : ok = true ↔ ∀ k < display.configs.length, (x.call.paramText k).isSome := by
      simpa using hok
    cases ok with
    | false =>
      refine ensures_pure.mpr ⟨⟨by simp, fun h => hconfigured.mpr h.configured⟩,
        hag.mono (Nat.le_refl _) (by omega), by simp⟩
    | true =>
      have hcfgd := hconfigured.mp rfl
      rw [if_pos rfl]
      split
      · rename_i hnative
        have hvm : x.call.vm ≠ .native := fun h => hnative (by
          change x.call.vm.contractType = .native
          rw [h]
          rfl)
        refine ensures_pure.mpr ⟨⟨fun _ => ⟨hcfgd, htransfers, fun item h => absurd h.native hvm⟩,
          fun _ => rfl⟩, hag.mono (Nat.le_refl _) (by omega), fun _ => ⟨by omega, fun item h =>
          absurd h.native hvm⟩⟩
      · rename_i hnative
        have hvm : x.call.vm = .native := Vm.contractType_inj (not_not.mp hnative)
        refine (nativeRows_draws x hvm (fun ht => htransfer ⟨hvm, ht⟩) hslots (by omega)
          (hzero.of_agreeOff hag (.inr (Nat.le_refl _)))).mono fun ok u hu => ⟨hu.ok_iff.trans
          ⟨fun h => ⟨hcfgd, htransfers, h⟩, fun h => h.total⟩,
          (hag.mono (Nat.le_refl _) (by omega)).trans hu.agree, fun hok => ⟨?_, hu.total hok⟩⟩
        have := hu.nbPairs_le
        omega

end

end AppOnt
