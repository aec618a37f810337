import AppOnt.Ui.Intact

/-!
# How a review ends

Which accepted transactions get to a review, and which ones make the display
leave an array on the way.
-/
namespace AppOnt

open Prog Token

section
variable [BufferSdk] [CryptoSdk] [FormatSdk] [CryptoSdk.Total]

/-- The parser and the display agree exactly on the calls whose arguments can be shown. -/
theorem accepted_renders_iff (cfg : Config) (raw : List UInt8) (t : ParserState)
    (h : (transactionDeserialize cfg).run ⟨.ofBytes raw, .zero⟩ = .ok (.ok, t))
    (beyond : Nat → TxParameter) :
    ∃ x : Signable, x.encode = raw ∧ t.tx = x.view .zero ∧
      (∀ s : Display, s.buffers.Field cfg.totalPos amountSize [] →
        ((∃ display, initDipslayPosAndItem cfg raw t.tx = .ok (some display) ∧
          Ensures (handleParams cfg raw t.tx (fun j => .ok (beyond j)) display) s
            fun ok _ => ok = true) ↔ x.call.Renderable)) ∧
      ∀ (path : List UInt32) (s : Display), (signerText maxBufferLen path).isSome →
        (Ensures (displayTransaction cfg raw t.tx (fun j => .ok (beyond j)) path false) s
          (fun drawn _ => drawn ≠ .sw swInvalidTransaction) ↔ x.call.Renderable) := by
  obtain ⟨x, hx⟩ := ((transactionDeserialize_returns cfg raw .zero).iff t).mp h
  obtain rfl := hx.encode_eq
  obtain ⟨display, hd⟩ := Option.isSome_iff_exists.mp
    (displayOf_isSome cfg x.call.vm.contractType x.call.registered x.call.method_mem)
  have hinit : initDipslayPosAndItem cfg x.encode (x.view .zero) = .ok (some display) := by
    rw [x.initDipslay_view, Call.name, hd]
  rw [hx.tx_eq]
  refine ⟨x, rfl, rfl, fun s hzero => ?_, fun path s hsigner => ?_⟩
  · have hrows : Ensures (handleParams cfg x.encode (x.view .zero) (fun j => .ok (beyond j)) display)
      s _ := handleParams_ensures x hx.admitted.slots_le (fun _ _ _ => ⟨_, rfl⟩) hd hzero
    obtain ⟨ok, u, hrun, hok, -⟩ := hrows
    rw [renders_iff x hd] at hok
    rw [← hok]
    constructor
    · rintro ⟨display', hinit', h'⟩
      obtain rfl := Option.some.inj (Except.ok.inj (hinit.symm.trans hinit'))
      exact h'.post hrun
    · intro hok
      exact ⟨display, hinit, ok, u, hrun, hok⟩
  · obtain ⟨drawn, u, hrun, -, hdrawn⟩ := displayTransaction_outcome hx.admitted beyond hsigner s
    rw [← not_not (a := x.call.Renderable), ← hdrawn]
    exact ⟨fun h' => h'.post hrun, fun hne => ⟨drawn, u, hrun, hne⟩⟩

end

theorem accepted_renders_iff_sample :
    let := CryptoSdk.reference
    let := FormatSdk.reference
    ∃ x : Signable, x.encode = sampleTransfer.encode ∧
      (Ensures (displayTransaction ⟨.nano, .w32⟩ sampleTransfer.encode (sampleTransfer.view .zero)
        (fun _ => .ok .zero) [] false) .zero (fun drawn _ => drawn ≠ .sw swInvalidTransaction) ↔
          x.call.Renderable) := by
  let := BufferSdk.reference
  let := CryptoSdk.reference
  let := FormatSdk.reference
  have := CryptoSdk.reference_total
  obtain ⟨x, hx, -, -, hdisplay⟩ := accepted_renders_iff ⟨.nano, .w32⟩ sampleTransfer.encode
    _ (sampleTransfer_admitted.run .zero) (fun _ => .zero)
  exact ⟨x, hx, hdisplay [] .zero (signerText_reference [])⟩

/-- A list of no transfers. -/
def emptyTransfer : Signable :=
  ⟨minimalHeader, .byte 0x3a (by decide) (by decide),
    ontTransfer [] ⟨.bytes [0] (by decide) (by decide), rfl⟩ (by simp)⟩

theorem emptyTransfer_admitted : emptyTransfer.Admitted ⟨.nano, .w32⟩ :=
  ⟨by decide +kernel, by unfold SizePrefix.Declares; decide +kernel, show 3 * 0 ≤ 90 by decide⟩

theorem emptyTransfer_notShown :
    let := CryptoSdk.reference
    let := FormatSdk.reference
    (∃ t, (@transactionDeserialize BufferSdk.reference ⟨.nano, .w32⟩).run
      ⟨.ofBytes emptyTransfer.encode, .zero⟩ = .ok (.ok, t) ∧ t.tx = emptyTransfer.view .zero) ∧
    Ensures (displayTransaction ⟨.nano, .w32⟩ emptyTransfer.encode (emptyTransfer.view .zero)
      (fun _ => .ok .zero) [] false) .zero fun drawn _ => drawn = .sw swInvalidTransaction := by
  let := BufferSdk.reference
  let := CryptoSdk.reference
  let := FormatSdk.reference
  have := CryptoSdk.reference_total
  refine ⟨⟨_, emptyTransfer_admitted.run .zero, rfl⟩, ?_⟩
  exact (displayTransaction_outcome emptyTransfer_admitted (fun _ => .zero) (signerText_reference [])
    .zero).mono fun drawn _ hdrawn => hdrawn.2.mpr fun hr => hr.transfers rfl rfl

section
variable [CryptoSdk] [FormatSdk] {cfg : Config} {s : Display} (x : Signable)
  {beyond : Nat → Except Fault TxParameter}

omit [CryptoSdk] [FormatSdk] in
theorem u8_yields {n : Nat} : Yields (u8 n) s fun m _ => m = n := by
  unfold u8
  split
  · exact yields_pure.mpr rfl
  · exact yields_throw

/-- The loop over a list that fills the array reads the parameter behind it. -/
theorem transferRows_faults {n : Nat} {e : Fault} (hslots : slots x.call.arguments.tokens = 3 * n)
    (hfull : 3 * n = cfg.parametersMaxNum) (hall : ∀ k < 3 * n, (x.call.paramText k).isSome)
    (hbeyond : beyond (3 * n) = .error e) {configs : List ParamConfig} (hlen : configs.length = 3)
    (hnodup : (configs.map (·.pos)).Nodup) (hpos : ∀ c ∈ configs, c.pos < 3) (fuel stateNum : Nat)
    (hle : stateNum ≤ n) :
    Yields (transferRows cfg x.encode (x.view .zero) beyond configs fuel stateNum) s
      fun _ _ => False := by
  have hpairs : cfg.numPairs = cfg.parametersMaxNum + 2 := rfl
  induction fuel generalizing stateNum s with
  | zero => exact yields_throw
  | succ fuel ih =>
    rw [transferRows, readParameter]
    refine yields_bind.mpr (yields_ofExcept.mpr fun p hp => ?_)
    rcases Nat.lt_or_ge stateNum n with hlt | hge
    · rw [if_pos (by omega)] at hp
      cases hp
      rw [if_pos ⟨x.present_of_lt .zero (by omega), by omega⟩, List.take_of_length_le (Nat.le_of_eq hlen)]
      refine yields_bind.mpr ((paramRows_ensures x (by omega) (3 * stateNum + 3) configs 0
        hnodup (fun c hc => by have := hpos c hc; omega) (by omega) (by omega)).yields.mono
        fun ok t hpost => ?_)
      obtain rfl := hpost.1.mpr fun j hj => hall _ (by omega)
      refine yields_bind.mpr (u8_yields.mono fun m u hm => ?_)
      subst hm
      refine yields_bind_of fun s₁ v => yields_bind_of fun nb w => yields_bind_of fun _ r => ?_
      exact ih (stateNum + 1) hlt
    · obtain rfl : stateNum = n := by omega
      rw [if_neg (by omega), hbeyond] at hp
      cases hp

/-- The calls whose display reads behind the parameter array. -/
structure Call.ReadsBeyond (c : Call) (cfg : Config) : Prop where
  native : c.vm = .native
  transfer : c.IsTransfer
  full : slots c.arguments.tokens = cfg.parametersMaxNum

theorem handleParams_faults [CryptoSdk.Total] (h : x.call.ReadsBeyond cfg) {e : Fault}
    (hbeyond : beyond cfg.parametersMaxNum = .error e) {display : MethodDisplay}
    (hd : displayOf cfg x.call.vm.contractType x.call.name = some display) :
    Yields (handleParams cfg x.encode (x.view .zero) beyond display) s fun _ _ => False := by
  have hcfg := cfg.target_cases
  have hpairs : cfg.numPairs = cfg.parametersMaxNum + 2 := rfl
  have hfull := h.full
  -- a signature of three parameters does not fill the array
  have hlist : x.call.method.parameters = [.transferStateList] := by
    rcases transfer_signature _ x.call.registered _ x.call.method_mem h.transfer with hlist | ⟨hp, hthree⟩
    · exact hlist
    · have := x.slots_fixed (fun hlist => by rw [hlist] at hthree; cases hthree) hp
      omega
  have hslots := x.slots_list hlist
  have hall : ∀ k < 3 * x.call.arguments.states.length, (x.call.paramText k).isSome :=
    fun k hk => paramText_isSome_of_list x hlist hk
  have hconfigs := configs_of_transfer x h.native h.transfer hd
  have hpos : ∀ c ∈ display.configs, c.pos < 3 := by rw [hconfigs]; decide
  have hnodup : (display.configs.map (·.pos)).Nodup := by rw [hconfigs]; decide
  have hlen : display.configs.length = 3 := by rw [hconfigs]; rfl
  have htype : (x.view .zero).contract.type = .native := by
    change x.call.vm.contractType = .native
    rw [h.native]
    rfl
  refine yields_bind.mpr (yields_modify.mpr ?_)
  refine yields_bind.mpr ((paramRows_ensures x (by omega) 3 display.configs 0 hnodup
    (fun c hc => by have := hpos c hc; omega) (by omega) (by omega)).yields.mono fun ok t ⟨hok, _⟩ => ?_)
  obtain rfl := hok.mpr fun j hj => hall _ (by omega)
  rw [if_pos rfl, if_neg (not_not.mpr htype), nativeRows_transfer x h.transfer]
  exact transferRows_faults x hslots (by omega) hall (by rw [← hslots, hfull]; exact hbeyond) hlen
    hnodup hpos _ 1 (by omega)

theorem uiDisplayNormalTransaction_faults [CryptoSdk.Total] (h : x.call.ReadsBeyond cfg) {e : Fault}
    (hbeyond : beyond cfg.parametersMaxNum = .error e) :
    Yields (uiDisplayNormalTransaction cfg x.encode (x.view .zero) beyond) s fun _ _ => False := by
  obtain ⟨display, hd⟩ := Option.isSome_iff_exists.mp
    (displayOf_isSome cfg x.call.vm.contractType x.call.registered x.call.method_mem)
  have hinit : initDipslayPosAndItem cfg x.encode (x.view .zero) = .ok (some display) := by
    rw [x.initDipslay_view, Call.name, hd]
  rw [uiDisplayNormalTransaction, hinit, ofExcept_ok, pure_bind]
  exact yields_bind.mpr ((handleParams_faults x h hbeyond hd).mono fun _ _ hf => hf.elim)

theorem displayTransaction_faults [BufferSdk] [CryptoSdk.Total] (h : x.call.ReadsBeyond cfg)
    {e : Fault} (hbeyond : beyond cfg.parametersMaxNum = .error e) {path : List UInt32}
    (hsigner : (signerText maxBufferLen path).isSome) :
    Yields (displayTransaction cfg x.encode (x.view .zero) beyond path false) s
      fun _ _ => False := by
  obtain ⟨signer, hsigner⟩ := Option.isSome_iff_exists.mp hsigner
  obtain ⟨u, hdisplay⟩ := displayTransaction_run cfg x.encode (x.view .zero) beyond path false s
  rw [hsigner] at hdisplay
  intro drawn d hd
  exact uiDisplayNormalTransaction_faults x h hbeyond drawn d (hdisplay.2.symm.trans hd)

omit [CryptoSdk] in
/-- The blind review of an accepted transaction. -/
theorem uiDisplayBsTransaction_ensures (hnum : s.nbPairs = 0) :
    Ensures (uiDisplayBsTransaction cfg x.encode (x.view .zero)) s fun _ _ => True := by
  have hcfg := cfg.target_cases
  have hmax : maxBufferLen = 67 := rfl
  have hpairs : cfg.numPairs = cfg.parametersMaxNum + 2 := rfl
  have hread : readPtr x.encode (x.view .zero).contract.addr.data (x.view .zero).contract.addr.len =
      .ok x.call.payload.contractAddr := x.read_contract .zero
  have haddr := length_contractAddr _ x.call.registered
  have hroom : 2 * x.call.payload.contractAddr.length < maxBufferLen := by rw [haddr]; decide
  obtain ⟨text, htext, hlen⟩ := FormatSdk.hex_length hroom
  rw [haddr, addressScriptHashLen] at hlen
  simp only [uiDisplayBsTransaction, hread, ofExcept_ok, pure_bind, htext, ensures_bind,
    ensures_appendPair]
  refine ⟨by omega, by omega, (storeText_ensures (by omega) ?_).mono fun _ t hpost => ?_⟩
  · rw [hpairs, Nat.add_mul]
    omega
  · have hn : t.nbPairs = s.nbPairs + 1 := hpost.1.nbPairs_eq
    refine ⟨by omega, by omega, (feeAndSignerRows_ensures ?_).mono fun _ _ _ => ensures_pure.mpr trivial⟩
    dsimp only
    omega

end

/-- The display of an accepted transaction leaves no array exactly if it is not the clear review of
a native list of transfers that fills the parameter array. -/
theorem displayTransaction_inBounds_iff [BufferSdk] [CryptoSdk] [FormatSdk] [CryptoSdk.Total]
    (cfg : Config) (raw : List UInt8) (t : ParserState)
    (h : (transactionDeserialize cfg).run ⟨.ofBytes raw, .zero⟩ = .ok (.ok, t))
    (path : List UInt32) (isBlindSigned : Bool) (s : Display) :
    ∃ x : Signable, x.encode = raw ∧ t.tx = x.view .zero ∧
      ((∃ drawn d, (displayTransaction cfg raw t.tx (fun j => .error (.parameter j)) path
          isBlindSigned).run s = .ok (drawn, d)) ↔
        isBlindSigned = true ∨ signerText maxBufferLen path = none ∨ ¬ x.call.ReadsBeyond cfg) := by
  obtain ⟨x, hx⟩ := ((transactionDeserialize_returns cfg raw .zero).iff t).mp h
  obtain rfl := hx.encode_eq
  rw [hx.tx_eq]
  refine ⟨x, rfl, rfl, ?_⟩
  obtain ⟨u, hdisplay⟩ := displayTransaction_run cfg x.encode (x.view .zero)
    (fun j => .error (.parameter j)) path isBlindSigned s
  cases hsigner : signerText maxBufferLen path with
  | none =>
    rw [hsigner] at hdisplay
    exact iff_of_true ⟨_, u, hdisplay⟩ (.inr (.inl rfl))
  | some signer =>
    rw [hsigner] at hdisplay
    obtain ⟨hp, hrun⟩ := hdisplay
    cases isBlindSigned with
    | true =>
      have hdraw : Ensures (uiDisplayBsTransaction cfg x.encode (x.view .zero)) u fun _ _ => True :=
        uiDisplayBsTransaction_ensures x hp.nbPairs_eq
      obtain ⟨drawn, d, hd, -⟩ := hdraw
      exact iff_of_true ⟨drawn, d, hrun.trans hd⟩ (.inl rfl)
    | false =>
      by_cases hbeyond : x.call.ReadsBeyond cfg
      · refine iff_of_false (fun ⟨drawn, d, hd⟩ => ?_) (by simpa using hbeyond)
        rw [hrun] at hd
        exact uiDisplayNormalTransaction_faults x hbeyond rfl drawn d hd
      · refine iff_of_true ?_ (.inr (.inr hbeyond))
        have hdraw : Ensures (displayTransaction cfg x.encode (x.view .zero)
            (fun j => .error (.parameter j)) path false) s _ :=
          displayTransaction_ensures hx.admitted
            (fun hvm ht hfull => absurd ⟨hvm, ht, hfull⟩ hbeyond) path s
        obtain ⟨drawn, d, hd, -⟩ := hdraw
        exact ⟨drawn, d, hd⟩

theorem displayTransaction_inBounds_iff_sample :
    let := CryptoSdk.reference
    let := FormatSdk.reference
    ∃ x : Signable, x.encode = sampleTransfer.encode ∧
      ((∃ drawn d, (displayTransaction ⟨.nano, .w32⟩ sampleTransfer.encode (sampleTransfer.view .zero)
          (fun j => .error (.parameter j)) [] false).run .zero = .ok (drawn, d)) ↔
        false = true ∨ signerText maxBufferLen [] = none ∨ ¬ x.call.ReadsBeyond ⟨.nano, .w32⟩) := by
  let := BufferSdk.reference
  let := CryptoSdk.reference
  let := FormatSdk.reference
  have := CryptoSdk.reference_total
  obtain ⟨x, hx, -, hdisplay⟩ := displayTransaction_inBounds_iff ⟨.nano, .w32⟩ sampleTransfer.encode
    _ (sampleTransfer_admitted.run .zero) [] false .zero
  exact ⟨x, hx, hdisplay⟩

/-- As many transfers as a nano has parameters for. -/
def thirtyTransfers : Signable :=
  ⟨minimalHeader, .uint16 ⟨[0xca, 0x06], rfl⟩,
    ontTransfer (List.replicate 30 fiveOnt) ⟨.bytes [30] (by decide) (by decide), rfl⟩ (by simp)⟩

theorem thirtyTransfers_admitted : thirtyTransfers.Admitted ⟨.nano, .w32⟩ :=
  ⟨by decide +kernel, by unfold SizePrefix.Declares; decide +kernel, show 3 * 30 ≤ 90 by decide⟩

theorem thirtyTransfers_readBeyond :
    let := CryptoSdk.reference
    let := FormatSdk.reference
    (∃ t, (@transactionDeserialize BufferSdk.reference ⟨.nano, .w32⟩).run
      ⟨.ofBytes thirtyTransfers.encode, .zero⟩ = .ok (.ok, t) ∧ t.tx = thirtyTransfers.view .zero) ∧
    ∀ drawn d, (displayTransaction ⟨.nano, .w32⟩ thirtyTransfers.encode (thirtyTransfers.view .zero)
      (fun j => .error (.parameter j)) [] false).run .zero ≠ .ok (drawn, d) := by
  let := BufferSdk.reference
  let := CryptoSdk.reference
  let := FormatSdk.reference
  have := CryptoSdk.reference_total
  exact ⟨⟨_, thirtyTransfers_admitted.run .zero, rfl⟩,
    displayTransaction_faults thirtyTransfers ⟨rfl, .inl rfl, rfl⟩ rfl (signerText_reference [])⟩

end AppOnt
