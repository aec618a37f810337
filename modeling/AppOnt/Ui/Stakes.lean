import AppOnt.Transaction.Unambiguous
import AppOnt.Ui.Intact

/-!
# Staking several nodes

The review of a call with a list of nodes: the keys stay with their amounts,
every text of their rows has a field of its own, the fee and the signer come
behind the total, and what the total is when it is shown.
-/
namespace AppOnt

open Prog Token

/-- The texts behind the rows of the call: the signer, and in front of it the fee, which is whole where
it is short. -/
def Display.ShowsEnds [CryptoSdk] [FormatSdk] (d : Display) (cfg : Config) (path : List UInt32) (h : Header) :
    Prop :=
  let fee := leNat h.gasPrice.1 * leNat h.gasLimit.1
  (∃ signer, signerText maxBufferLen path = some signer ∧ d.buffers.IsString cfg.signerPos signer) ∧
    ((∃ k ≤ 9, 10 ^ k ∣ fee ∧ fee < 10 ^ (11 + k)) →
      d.buffers.IsString cfg.gasFeePos (feeText fee) ∧ cfg.gasFeePos + (feeText fee).length < cfg.signerPos)

section
variable [CryptoSdk] [FormatSdk] {cfg : Config} {s : Display} (x : Signable)
  {beyond : Nat → Except Fault TxParameter}

omit [CryptoSdk] [FormatSdk] in
theorem pairs_display (cfg : Config) (type : TxContractType) {name : List UInt8}
    (h : chars methodAuthorizeForPeer = name ∨ chars methodUnauthorizeForPeer = name ∨
      chars methodWithdraw = name) :
    (displayOf cfg type name).map (·.configs) = some [⟨stakeAddress, 0⟩] := by
  rcases h with rfl | rfl | rfl <;> rw [displayOf_target] <;> cases cfg.target <;> cases type <;>
    decide +kernel

omit [CryptoSdk] [FormatSdk] in
/-- A method with a list of nodes has no other rows of its own. -/
theorem pairs_other {name : List UInt8}
    (h : chars methodAuthorizeForPeer = name ∨ chars methodUnauthorizeForPeer = name ∨
      chars methodWithdraw = name) :
    ∀ other ∈ [methodRegisterCandidate, methodTransfer, methodTransferV2], chars other ≠ name := by
  rcases h with rfl | rfl | rfl <;> decide +kernel

omit [CryptoSdk] [FormatSdk] in
theorem pairsItem_of_name
    (h : ∃ name ∈ [methodAuthorizeForPeer, methodUnauthorizeForPeer, methodWithdraw],
      readPtr x.encode (x.view .zero).method.name.data (x.view .zero).method.name.len =
        .ok (chars name)) : ∃ item, x.call.pairsItem = some item := by
  obtain ⟨name, hmem, hread⟩ := h
  rw [x.read_name .zero] at hread
  have hname := Except.ok.inj hread
  simp only [List.mem_cons, List.not_mem_nil, or_false] at hmem
  unfold Call.pairsItem
  rw [hname]
  rcases hmem with rfl | rfl | rfl
  · exact ⟨_, if_pos rfl⟩
  · exact ⟨_, by rw [if_neg (by decide +kernel), if_pos rfl]⟩
  · exact ⟨_, by rw [if_neg (by decide +kernel), if_neg (by decide +kernel), if_pos rfl]⟩

theorem nativeRows_nodes {item : String} (hitem : x.call.pairsItem = some item) {tx : Transaction}
    {display : MethodDisplay} :
    nativeRows cfg x.encode (x.view tx) beyond display =
      pkAmountPairsRows cfg x.encode (x.view tx) beyond := by
  have hother := pairs_other (name_of_pairsItem x hitem)
  simp only [List.forall_mem_cons] at hother
  rw [nativeRows_other x (not_or.mpr ⟨hother.2.1, hother.2.2.1⟩), if_neg hother.1]

/-- The rows of a call with a list of nodes: the stake address, and in a native call the nodes. -/
def Call.stakeRows (c : Call) (cfg : Config) (item : String) (address : List UInt8) : List Row :=
  ⟨chars stakeAddress, address⟩ :: if c.vm = .native then c.nodesRows cfg item else []

theorem handleParams_nodes {item : String} (hitem : x.call.pairsItem = some item)
    (hslots : slots x.call.arguments.tokens ≤ cfg.parametersMaxNum) {display : MethodDisplay}
    (hd : displayOf cfg x.call.vm.contractType x.call.name = some display)
    (hzero : s.buffers.Field cfg.totalPos amountSize []) :
    Ensures (handleParams cfg x.encode (x.view .zero) beyond display) s fun ok t => ok = true →
      ∃ address text, (fields x.call.arguments.tokens)[0]? = some (.addr, address) ∧
        addressText maxBufferLen address = some text ∧
        t.LaidOut 0 t.rows (x.call.stakeRows cfg item text) (cfg.parametersMaxNum + 1) := by
  have hcfg := cfg.target_cases
  have hpairs : cfg.numPairs = cfg.parametersMaxNum + 2 := rfl
  have hnodes := parameters_of_pairsItem x hitem
  have hconfigs : display.configs = [⟨stakeAddress, 0⟩] := by
    have h := pairs_display cfg x.call.vm.contractType (name_of_pairsItem x hitem)
    rw [hd] at h
    exact Option.some.inj h
  obtain ⟨a, p, -, hfields⟩ := x.call.arguments.fields_nodes hnodes
  have hfirst : (fields x.call.arguments.tokens)[0]? = some (.addr, a.1) := by rw [hfields]; rfl
  have htext : x.call.paramText 0 = addressText maxBufferLen a.1 := by
    rw [Call.paramText, hfirst]
    rfl
  simp only [handleParams, hconfigs, ensures_bind, ensures_modify]
  refine (paramRows_ensures x hslots 1 [⟨stakeAddress, 0⟩] 0 (by simp) (by simp) (by omega)
    (by simp; omega)).mono fun ok t hpost => ?_
  obtain ⟨-, hdraw, hn, hrows⟩ := hpost
  cases ok with
  | false => exact ensures_pure.mpr (by simp)
  | true =>
    obtain ⟨hpair, text, haddress, hfield⟩ := hrows rfl 0 _ rfl
    rw [Nat.zero_add, htext] at haddress
    have hlen := addressText_spec a.2 (by decide) haddress
    have hn : t.nbPairs = 1 := hn
    have hstake : t.rows = [⟨.literal stakeAddress, .buffer (0 * maxBufferLen)⟩] := by
      rw [Display.rows, hn]
      exact congrArg (· :: []) hpair
    have hlaid : t.LaidOut 0 t.rows [⟨chars stakeAddress, text⟩] 1 := by
      have hshort : text.length < maxBufferLen := by rw [hlen.1]; decide
      rw [hstake]
      exact .single ⟨rfl, Nat.le_refl 0⟩
        ⟨0, rfl, Nat.le_refl _, Nat.one_pos, hshort, hfield.holds hshort⟩
    rw [if_pos rfl]
    split
    · rename_i hnative
      have hvm : x.call.vm ≠ .native := fun h => hnative (by
        change x.call.vm.contractType = .native
        rw [h]
        rfl)
      refine ensures_pure.mpr fun _ => ⟨a.1, text, hfirst, haddress, ?_⟩
      rw [Call.stakeRows, if_neg hvm, ← List.append_nil t.rows]
      exact hlaid.append (.nil (by omega))
    · rename_i hnative
      have hvm : x.call.vm = .native := Vm.contractType_inj (not_not.mp hnative)
      have hbelow : maxBufferLen ≤ cfg.totalPos := Nat.le_mul_of_pos_left _ (by omega)
      rw [nativeRows_nodes x hitem]
      have hzero' : t.buffers.Field cfg.totalPos amountSize [] :=
        hzero.of_agreeOff hdraw.agree (.inr (by simpa using hbelow))
      refine (pkAmountPairsRows_ensures x hitem (by rw [hvm]; decide) hslots (by omega)
        hzero').mono fun ok u hpost hok => ?_
      obtain ⟨-, hag, -, hadded, -⟩ := hpost
      obtain ⟨pairs, hu, hlaid'⟩ := hadded hok
      refine ⟨a.1, text, hfirst, haddress, ?_⟩
      rw [hn] at hag hlaid'
      rw [Call.stakeRows, if_pos hvm, hu]
      exact (hlaid.of_agreeOff hag (Nat.le_refl _)).append hlaid'

omit [CryptoSdk] [FormatSdk] in
theorem DrawsEnds.rows_eq {t : Display} (h : DrawsEnds cfg s t) : t.rows = s.rows ++
    [⟨.literal itemGasFee, .buffer cfg.gasFeePos⟩, ⟨.literal itemSigner, .buffer cfg.signerPos⟩] := by
  have hfee := h.fee_row
  have hsigner := h.signer_row
  rw [h.nbPairs_eq] at hfee hsigner
  rw [Display.rows, h.nbPairs_eq, List.range_succ, List.range_succ, List.append_assoc, List.map_append]
  refine congrArg₂ _ (List.map_congr_left fun k hk => h.pairs_eq k (List.mem_range.mp hk)) ?_
  exact congrArg₂ (fun p q => [p, q]) hfee hsigner

omit [CryptoSdk] [FormatSdk] in
theorem not_isTransfer_of_pairsItem {item : String} (hitem : x.call.pairsItem = some item) :
    ¬ x.call.IsTransfer := by
  intro htransfer
  have hother := pairs_other (name_of_pairsItem x hitem)
  simp only [List.forall_mem_cons] at hother
  exact htransfer.elim hother.2.1 hother.2.2.1

theorem uiDisplayNormalTransaction_nodes {item : String} (hitem : x.call.pairsItem = some item)
    (hslots : slots x.call.arguments.tokens ≤ cfg.parametersMaxNum)
    (hzero : s.buffers.Field cfg.totalPos amountSize []) :
    Yields (uiDisplayNormalTransaction cfg x.encode (x.view .zero) beyond) s fun drawn d => drawn = .review →
      ∃ u, s.buffers.AgreeOff u.buffers 0 cfg.gasFeePos ∧ DrawsEnds cfg u d ∧
        ∃ address text, (fields x.call.arguments.tokens)[0]? = some (.addr, address) ∧
          addressText maxBufferLen address = some text ∧
          u.LaidOut 0 u.rows (x.call.stakeRows cfg item text) (cfg.parametersMaxNum + 1) := by
  obtain ⟨display, hd⟩ := Option.isSome_iff_exists.mp
    (displayOf_isSome cfg x.call.vm.contractType x.call.registered x.call.method_mem)
  have hinit : initDipslayPosAndItem cfg x.encode (x.view .zero) = .ok (some display) := by
    rw [x.initDipslay_view, Call.name, hd]
  have hrows : Ensures (handleParams cfg x.encode (x.view .zero) beyond display) s _ :=
    handleParams_nodes x hitem hslots hd hzero
  have hag : Ensures (handleParams cfg x.encode (x.view .zero) beyond display) s _ :=
    handleParams_ensures x hslots (fun _ ht => absurd ht (not_isTransfer_of_pairsItem x hitem)) hd hzero
  rw [uiDisplayNormalTransaction, hinit, ofExcept_ok, pure_bind]
  refine yields_bind.mpr fun ok u hrun => ?_
  cases ok with
  | false => exact yields_pure.mpr (by simp)
  | true =>
    refine yields_bind.mpr (feeAndSignerRows_yields.mono fun _ d hends => yields_pure.mpr fun _ => ?_)
    exact ⟨u, (hag.post hrun).2.1, hends, hrows.post hrun rfl⟩

/-- The clear review of a call with a list of nodes. -/
theorem displayTransaction_nodes {item : String} (hitem : x.call.pairsItem = some item)
    (hslots : slots x.call.arguments.tokens ≤ cfg.parametersMaxNum) {path : List UInt32} {d : Display}
    (hrun : (displayTransaction cfg x.encode (x.view .zero) beyond path false).run s =
      .ok (.review, d)) :
    ∃ address text pairs, (fields x.call.arguments.tokens)[0]? = some (.addr, address) ∧
      addressText maxBufferLen address = some text ∧
      d.rows = pairs ++ [⟨.literal itemGasFee, .buffer cfg.gasFeePos⟩,
        ⟨.literal itemSigner, .buffer cfg.signerPos⟩] ∧
      d.LaidOut 0 pairs (x.call.stakeRows cfg item text) (cfg.parametersMaxNum + 1) ∧
      d.ShowsEnds cfg path x.header := by
  obtain ⟨u, signer, hsigner, hp, hdraw⟩ := displayTransaction_review hrun
  obtain ⟨v, hag, hends, address, text, hfield, htext, hlaid⟩ :=
    uiDisplayNormalTransaction_nodes x hitem hslots hp.total .review d hdraw rfl
  have hsame : v.buffers.AgreeOff d.buffers ((cfg.parametersMaxNum + 1) * maxBufferLen) 0 := by
    rw [hends.buffers_eq]
    exact Memory.AgreeOff.refl _ _ _
  refine ⟨address, text, v.rows, hfield, htext, hends.rows_eq, hlaid.of_agreeOff hsame (Nat.le_refl _),
    ⟨signer, hsigner, hp.signer_drawn hag hends⟩, fun hfee => ?_⟩
  have hintact := (hp.endsIntact_iff hsigner hag hends x.header.fee_max).mpr hfee
  have hshort := (length_feeText_le_iff x.header.fee_max).mpr hfee
  have hpos := gasFeePos_add cfg
  exact ⟨hintact.fee, by omega⟩

end

/-- The rows of an accepted native call with a list of nodes: the stake address, and each key with
the amount of the same node, or three keys and what there is of the others. The texts of these rows
are in different fields, and as they were written when the review is shown; the total ends before the
place of the fee, in the same field, and a short fee before the place of the signer. -/
theorem handleParams_shows_nodes [BufferSdk] [CryptoSdk] [FormatSdk] (cfg : Config)
    (raw : List UInt8) (t : ParserState)
    (h : (transactionDeserialize cfg).run ⟨.ofBytes raw, .zero⟩ = .ok (.ok, t))
    (hnative : t.tx.contract.type = .native)
    (hname : ∃ name ∈ [methodAuthorizeForPeer, methodUnauthorizeForPeer, methodWithdraw],
      readPtr raw t.tx.method.name.data t.tx.method.name.len = .ok (chars name))
    (beyond : Nat → Except Fault TxParameter) :
    ∃ (x : Signable) (item : String), x.encode = raw ∧ t.tx = x.view .zero ∧
      x.call.pairsItem = some item ∧ x.call.arguments.nodes ≠ [] ∧
      ∃ display, initDipslayPosAndItem cfg raw t.tx = .ok (some display) ∧
        (∀ (s d : Display), s.buffers.Field cfg.totalPos amountSize [] →
          (handleParams cfg raw t.tx beyond display).run s = .ok (true, d) →
          ∃ address text, (fields x.call.arguments.tokens)[0]? = some (.addr, address) ∧
            addressText maxBufferLen address = some text ∧
            d.LaidOut 0 d.rows (⟨chars stakeAddress, text⟩ :: x.call.nodesRows cfg item)
              (cfg.parametersMaxNum + 1)) ∧
        ∀ (path : List UInt32) (s d : Display),
          (displayTransaction cfg raw t.tx beyond path false).run s = .ok (.review, d) →
          ∃ address text pairs, (fields x.call.arguments.tokens)[0]? = some (.addr, address) ∧
            addressText maxBufferLen address = some text ∧
            d.rows = pairs ++ [⟨.literal itemGasFee, .buffer cfg.gasFeePos⟩,
              ⟨.literal itemSigner, .buffer cfg.signerPos⟩] ∧
            d.LaidOut 0 pairs (⟨chars stakeAddress, text⟩ :: x.call.nodesRows cfg item)
              (cfg.parametersMaxNum + 1) ∧
            cfg.totalPos + x.call.totalText.length < cfg.gasFeePos ∧ d.ShowsEnds cfg path x.header := by
  obtain ⟨x, hx⟩ := ((transactionDeserialize_returns cfg raw .zero).iff t).mp h
  obtain rfl := hx.encode_eq
  rw [hx.tx_eq] at hnative hname ⊢
  have hvm : x.call.vm = .native := Vm.contractType_inj hnative
  obtain ⟨item, hitem⟩ := pairsItem_of_name x hname
  obtain ⟨display, hd⟩ := Option.isSome_iff_exists.mp
    (displayOf_isSome cfg x.call.vm.contractType x.call.registered x.call.method_mem)
  have hrows : ∀ text, x.call.stakeRows cfg item text =
      ⟨chars stakeAddress, text⟩ :: x.call.nodesRows cfg item := fun text => by
    rw [Call.stakeRows, if_pos hvm]
  refine ⟨x, item, rfl, rfl, hitem, x.nodes_ne_nil (parameters_of_pairsItem x hitem), display,
    by rw [x.initDipslay_view, Call.name, hd], fun s d hzero hrun => ?_, fun path s d hrun => ?_⟩
  · obtain ⟨address, text, hfield, htext, hlaid⟩ :=
      (handleParams_nodes x hitem hx.admitted.slots_le hd hzero).post hrun rfl
    exact ⟨address, text, hfield, htext, hrows text ▸ hlaid⟩
  · obtain ⟨address, text, pairs, hfield, htext, hend, hlaid, hends⟩ :=
      displayTransaction_nodes x hitem hx.admitted.slots_le hrun
    have htotal := (length_totalText x.call).1
    refine ⟨address, text, pairs, hfield, htext, hend, hrows text ▸ hlaid, ?_, hends⟩
    simp only [Config.totalPos, Config.gasFeePos, amountSize]
    omega

/-- A stake on four nodes, of the same amount each. -/
def stakeFour (a : AmountCode) : Call where
  vm := .native
  payload := ⟨ontDecimals, ontTicker, govAddr, getNativeGovernanceMethods⟩
  registered := by decide
  method := ⟨methodAuthorizeForPeer, [.addr, .pkAmountPairs]⟩
  method_mem := by decide
  arguments := .native (.cons (.addr ⟨List.replicate 20 0x22, by decide⟩) (.cons (.pkAmountPairs
    ⟨List.replicate 4 (⟨List.replicate 66 0x30, by decide⟩, a), by simp, ⟨.push ⟨3, by decide⟩, rfl⟩,
      ⟨.push ⟨3, by decide⟩, rfl⟩⟩) .nil))
  remaining_lt := fun h => absurd h (by decide)

def sampleStake : Signable := ⟨minimalHeader, .uint16 ⟨[0x8b, 0x01], by decide⟩, stakeFour fiveOnt.amount⟩

theorem sampleStake_admitted : sampleStake.Admitted ⟨.nano, .w32⟩ :=
  ⟨by decide +kernel, by unfold SizePrefix.Declares; decide +kernel,
    (sampleStake.call.arguments.fits_iff (by decide)).mpr (by decide)⟩

theorem renderable_stakeFour {a : AmountCode} (h : a.uint64?.isSome) : (stakeFour a).Renderable where
  wasmvm hvm := absurd hvm (by simp [stakeFour])
  others _ := by simp [stakeFour]
  transfers hlist := absurd hlist (by simp [stakeFour])
  total _ _ q hq := by
    have hmem : q ∈ List.replicate 4 (⟨List.replicate 66 0x30, rfl⟩, a) := by
      simpa [stakeFour, Arguments.nodes, Args.nodes, Arg.nodes] using hq
    rw [List.eq_of_mem_replicate hmem]
    exact h

theorem handleParams_shows_nodes_sample :
    let := CryptoSdk.reference
    let := FormatSdk.reference
    ∃ d, (displayTransaction ⟨.nano, .w32⟩ sampleStake.encode (sampleStake.view .zero) (fun _ => .ok .zero)
        [] false).run .zero = .ok (.review, d) ∧
      ∃ text pairs, d.LaidOut 0 pairs
          (⟨chars stakeAddress, text⟩ :: sampleStake.call.nodesRows ⟨.nano, .w32⟩ stakeAmount) 91 ∧
        d.rows = pairs ++ [⟨.literal itemGasFee, .buffer (90 * 67 + 50)⟩,
          ⟨.literal itemSigner, .buffer (91 * 67)⟩] ∧
        d.buffers.IsString (90 * 67 + 50) (feeText (2500 * 20000)) := by
  let := BufferSdk.reference
  let := CryptoSdk.reference
  let := FormatSdk.reference
  have := CryptoSdk.reference_total
  obtain ⟨d, hd⟩ := displayTransaction_reviews sampleStake_admitted (renderable_stakeFour rfl)
    (fun _ => .zero) (signerText_reference []) .zero
  obtain ⟨x, item, hx, hview, hitem, -, display, -, -, hreview⟩ := handleParams_shows_nodes ⟨.nano, .w32⟩
    sampleStake.encode _ (sampleStake_admitted.run .zero) rfl
    ⟨methodAuthorizeForPeer, by simp, sampleStake.read_name .zero⟩ (fun _ => .ok .zero)
  obtain rfl := Signable.eq_of_view hx hview.symm
  obtain rfl : stakeAmount = item := Option.some.inj hitem
  obtain ⟨address, text, pairs, -, -, hrows, hlaid, -, -, hfee⟩ := hreview [] .zero d hd
  exact ⟨d, hd, text, pairs, hlaid, hrows, (hfee ⟨0, by decide, by decide, by decide⟩).1⟩

/-- A stake on four nodes, with a fee of 200.010020001 ONG. -/
def longFeeStake : Signable := ⟨longFeeTransfer.header, sampleStake.sizePrefix, sampleStake.call⟩

theorem longFeeStake_admitted : longFeeStake.Admitted ⟨.nano, .w32⟩ :=
  ⟨by decide +kernel, by unfold SizePrefix.Declares; decide +kernel,
    (longFeeStake.call.arguments.fits_iff (by decide)).mpr (by decide)⟩

/-- The total and the fee are in one field, and the fee is not what was written. -/
theorem longFeeStake_shared :
    let := CryptoSdk.reference
    let := FormatSdk.reference
    (∃ t, (@transactionDeserialize BufferSdk.reference ⟨.nano, .w32⟩).run
        ⟨.ofBytes longFeeStake.encode, .zero⟩ = .ok (.ok, t) ∧ t.tx = longFeeStake.view .zero) ∧
    ∃ d total fee, (displayTransaction ⟨.nano, .w32⟩ longFeeStake.encode (longFeeStake.view .zero)
        (fun _ => .ok .zero) [] false).run .zero = .ok (.review, d) ∧
      d.pairs (d.nbPairs - 3) = ⟨.literal (totalPlus ++ stakeAmount), .buffer total⟩ ∧
      d.pairs (d.nbPairs - 2) = ⟨.literal itemGasFee, .buffer fee⟩ ∧
      total / maxBufferLen = fee / maxBufferLen ∧ ¬ d.buffers.IsString fee (feeText 200010020001) := by
  let := BufferSdk.reference
  let := CryptoSdk.reference
  let := FormatSdk.reference
  have := CryptoSdk.reference_total
  refine ⟨⟨_, longFeeStake_admitted.run .zero, rfl⟩, ?_⟩
  obtain ⟨d, hd⟩ := displayTransaction_reviews longFeeStake_admitted (renderable_stakeFour rfl)
    (fun _ => .zero) (signerText_reference []) .zero
  obtain ⟨u, signer, hsigner, hp, hrun⟩ := displayTransaction_review hd
  obtain ⟨v, hag, hends, htotal⟩ := uiDisplayNormalTransaction_review longFeeStake_admitted hp hrun
  refine ⟨d, _, _, hd, (htotal stakeAmount ⟨rfl, rfl, by decide⟩).1, hends.fee_row, by decide, fun hfee => ?_⟩
  have hshort := (hp.fee_drawn_iff hag hends).mp hfee
  exact absurd ((length_feeText_le_iff (by decide)).mp hshort) (by decide)

/-- The last row has the label, and a text behind its value. -/
def Display.EndsWith (d : Display) (label : String) (text : List UInt8) : Prop :=
  ∃ pos, d.rows.getLast? = some ⟨.literal label, .buffer pos⟩ ∧ d.buffers.IsString pos text

theorem Display.getLast?_rows (d : Display) (h : d.nbPairs ≠ 0) :
    d.rows.getLast? = some (d.pairs (d.nbPairs - 1)) := by
  obtain ⟨n, hn⟩ := Nat.exists_eq_succ_of_ne_zero h
  rw [Display.rows, hn, List.range_succ, List.map_append, List.map_singleton, List.getLast?_concat]
  rfl

/-- The sum of the amounts of all nodes. -/
def Call.amountSum (c : Call) : Nat := (c.arguments.nodes.map (·.2.value)).sum

theorem totalText_eq_iff (c : Call) : c.totalText =
    numeral c.amountSum ++ chars " " ++ chars c.payload.ticker ↔ c.amountSum < 2 ^ 64 := by
  rw [Call.totalText, List.append_left_inj, List.append_left_inj, numeral_injective.eq_iff]
  exact ⟨fun h => h ▸ Nat.mod_lt _ (by decide), Nat.mod_eq_of_lt⟩

section
variable [CryptoSdk] [FormatSdk] {cfg : Config} {s : Display} (x : Signable)
  {beyond : Nat → Except Fault TxParameter}

omit [CryptoSdk] [FormatSdk] in
theorem total_ne_stakeAddress {item : String} (h : x.call.pairsItem = some item) :
    chars stakeAddress ≠ chars (totalPlus ++ item) := by
  have hmem : item ∈ [stakeAmount, unstakeAmount, withdrawAmount] := by
    unfold Call.pairsItem at h
    grind
  have hall : ∀ item ∈ [stakeAmount, unstakeAmount, withdrawAmount],
      chars stakeAddress ≠ chars (totalPlus ++ item) := by decide +kernel
  exact hall item hmem

/-- Only a native call has a total, and it is right below `2 ^ 64`. -/
theorem handleParams_total {item : String} (hitem : x.call.pairsItem = some item)
    (hlong : maxPubkeyDisplay < x.call.arguments.nodes.length)
    (hslots : slots x.call.arguments.tokens ≤ cfg.parametersMaxNum) {display : MethodDisplay}
    (hd : displayOf cfg x.call.vm.contractType x.call.name = some display)
    (hzero : s.buffers.Field cfg.totalPos amountSize []) {d : Display}
    (hrun : (handleParams cfg x.encode (x.view .zero) beyond display).run s = .ok (true, d)) :
    d.EndsWith (totalPlus ++ item)
        (numeral x.call.amountSum ++ chars " " ++ chars x.call.payload.ticker) ↔
      x.call.vm = .native ∧ x.call.amountSum < 2 ^ 64 := by
  by_cases hvm : x.call.vm = .native
  · rw [and_iff_right hvm, ← totalText_eq_iff]
    obtain ⟨-, -, htotal⟩ := (handleParams_ensures x hslots
      (fun _ ht => absurd ht (not_isTransfer_of_pairsItem x hitem)) hd hzero).post hrun
    obtain ⟨hne, hrow, hstring⟩ := (htotal rfl).2 item ⟨hvm, hitem, hlong⟩
    have hlast := (d.getLast?_rows hne).trans (congrArg some hrow)
    constructor
    · rintro ⟨pos, hpos, htext⟩
      obtain rfl : cfg.totalPos = pos := by simpa using hlast.symm.trans hpos
      exact hstring.unique htext
    · intro heq
      exact ⟨cfg.totalPos, hlast, heq ▸ hstring⟩
  · refine iff_of_false (fun ⟨pos, hpos, _⟩ => ?_) (fun h => hvm h.1)
    obtain ⟨address, text, -, -, hlaid⟩ := (handleParams_nodes x hitem hslots hd hzero).post hrun rfl
    rw [Call.stakeRows, if_neg hvm] at hlaid
    generalize d.rows = rows at hlaid hpos
    obtain _ | ⟨hlabel, -, hrest⟩ := hlaid
    cases hrest
    obtain rfl := Option.some.inj hpos
    exact total_ne_stakeAddress x hitem hlabel.1

theorem handleParams_renders [CryptoSdk.Total] (hx : x.Admitted cfg) (hr : x.call.Renderable)
    {rest : Nat → TxParameter} {display : MethodDisplay}
    (hd : displayOf cfg x.call.vm.contractType x.call.name = some display)
    (hzero : s.buffers.Field cfg.totalPos amountSize []) :
    ∃ d, (handleParams cfg x.encode (x.view .zero) (fun j => .ok (rest j)) display).run s = .ok (true, d) := by
  have hrows : Ensures (handleParams cfg x.encode (x.view .zero) (fun j => .ok (rest j)) display) s _ :=
    handleParams_ensures x hx.slots_le (fun _ _ _ => ⟨_, rfl⟩) hd hzero
  obtain ⟨ok, d, hrun, hok, -⟩ := hrows
  obtain rfl := hok.mpr ((renders_iff x hd).mpr hr)
  exact ⟨d, hrun⟩

end

/-- The total of a list of more than three nodes is the sum of the amounts exactly if the call is
native and the sum fits in 64 bits. -/
theorem total_exact_iff [BufferSdk] [CryptoSdk] [FormatSdk] (cfg : Config) (raw : List UInt8)
    (t : ParserState) (h : (transactionDeserialize cfg).run ⟨.ofBytes raw, .zero⟩ = .ok (.ok, t))
    (hname : ∃ name ∈ [methodAuthorizeForPeer, methodUnauthorizeForPeer, methodWithdraw],
      readPtr raw t.tx.method.name.data t.tx.method.name.len = .ok (chars name))
    (beyond : Nat → Except Fault TxParameter) :
    ∃ (x : Signable) (item : String), x.encode = raw ∧ t.tx = x.view .zero ∧
      x.call.pairsItem = some item ∧
      ∃ display, initDipslayPosAndItem cfg raw t.tx = .ok (some display) ∧
        (maxPubkeyDisplay < x.call.arguments.nodes.length →
          ∀ (s d : Display), s.buffers.Field cfg.totalPos amountSize [] →
            (handleParams cfg raw t.tx beyond display).run s = .ok (true, d) →
            (d.EndsWith (totalPlus ++ item)
                (numeral x.call.amountSum ++ chars " " ++ chars x.call.payload.ticker) ↔
              t.tx.contract.type = .native ∧ x.call.amountSum < 2 ^ 64)) := by
  obtain ⟨x, hx⟩ := ((transactionDeserialize_returns cfg raw .zero).iff t).mp h
  obtain rfl := hx.encode_eq
  rw [hx.tx_eq] at hname ⊢
  obtain ⟨item, hitem⟩ := pairsItem_of_name x hname
  obtain ⟨display, hd⟩ := Option.isSome_iff_exists.mp
    (displayOf_isSome cfg x.call.vm.contractType x.call.registered x.call.method_mem)
  refine ⟨x, item, rfl, rfl, hitem, display, by rw [x.initDipslay_view, Call.name, hd],
    fun hlong s d hzero hrun => ?_⟩
  have htype : (x.view .zero).contract.type = .native ↔ x.call.vm = .native :=
    ⟨fun hvm => Vm.contractType_inj hvm, fun hvm => congrArg Vm.contractType hvm⟩
  rw [htype]
  exact handleParams_total x hitem hlong hx.admitted.slots_le hd hzero hrun

theorem total_exact_iff_sample :
    let := CryptoSdk.reference
    let := FormatSdk.reference
    ∃ display, initDipslayPosAndItem ⟨.nano, .w32⟩ sampleStake.encode (sampleStake.view .zero) =
        .ok (some display) ∧
      Ensures (handleParams ⟨.nano, .w32⟩ sampleStake.encode (sampleStake.view .zero) (fun _ => .ok .zero)
        display) .zero fun ok d => ok = true ∧
          d.EndsWith (totalPlus ++ stakeAmount) (numeral 20 ++ chars " " ++ chars ontTicker) := by
  let := BufferSdk.reference
  let := CryptoSdk.reference
  let := FormatSdk.reference
  have := CryptoSdk.reference_total
  obtain ⟨x, item, hx, hview, hitem, display, hinit, htotal⟩ := total_exact_iff ⟨.nano, .w32⟩
    sampleStake.encode _ (sampleStake_admitted.run .zero)
    ⟨methodAuthorizeForPeer, by simp, sampleStake.read_name .zero⟩ (fun _ => .ok .zero)
  obtain rfl := Signable.eq_of_view hx hview.symm
  obtain rfl : stakeAmount = item := Option.some.inj hitem
  have hd : displayOf ⟨.nano, .w32⟩ sampleStake.call.vm.contractType sampleStake.call.name = some display :=
    Except.ok.inj ((sampleStake.initDipslay_view _ _).symm.trans hinit)
  have hzero : Display.zero.buffers.Field (Config.totalPos ⟨.nano, .w32⟩) amountSize [] :=
    Memory.field_nil.mpr fun _ _ => rfl
  obtain ⟨d, hrun⟩ := handleParams_renders sampleStake sampleStake_admitted (renderable_stakeFour rfl) hd hzero
  refine ⟨display, hinit, true, d, hrun, rfl, ?_⟩
  exact (htotal (by decide) .zero d hzero hrun).mpr ⟨rfl, by decide⟩

/-- A stake of `2 ^ 62` on each of four nodes. -/
def overflowStake : Signable :=
  ⟨minimalHeader, .uint16 ⟨[0xab, 0x01], rfl⟩,
    stakeFour (.bytes [0, 0, 0, 0, 0, 0, 0, 0x40] (by decide) (by decide))⟩

theorem overflowStake_admitted : overflowStake.Admitted ⟨.nano, .w32⟩ :=
  ⟨by decide +kernel, by unfold SizePrefix.Declares; decide +kernel,
    (overflowStake.call.arguments.fits_iff (by decide)).mpr (by decide)⟩

theorem overflowStake_total :
    let := CryptoSdk.reference
    let := FormatSdk.reference
    (∃ t, (@transactionDeserialize BufferSdk.reference ⟨.nano, .w32⟩).run
      ⟨.ofBytes overflowStake.encode, .zero⟩ = .ok (.ok, t) ∧ t.tx = overflowStake.view .zero) ∧
    overflowStake.call.arguments.nodes.length = 4 ∧
    ∃ display, initDipslayPosAndItem ⟨.nano, .w32⟩ overflowStake.encode (overflowStake.view .zero) =
        .ok (some display) ∧
      Ensures (handleParams ⟨.nano, .w32⟩ overflowStake.encode (overflowStake.view .zero)
        (fun _ => .ok .zero) display) .zero fun ok d => ok = true ∧
          ¬ d.EndsWith (totalPlus ++ stakeAmount)
            (numeral overflowStake.call.amountSum ++ chars " " ++ chars ontTicker) := by
  let := BufferSdk.reference
  let := CryptoSdk.reference
  let := FormatSdk.reference
  have := CryptoSdk.reference_total
  obtain ⟨display, hd⟩ := Option.isSome_iff_exists.mp
    (displayOf_isSome ⟨.nano, .w32⟩ overflowStake.call.vm.contractType overflowStake.call.registered
      overflowStake.call.method_mem)
  have hinit : initDipslayPosAndItem ⟨.nano, .w32⟩ overflowStake.encode (overflowStake.view .zero) =
      .ok (some display) := by
    rw [overflowStake.initDipslay_view, Call.name, hd]
  have hslots := overflowStake_admitted.slots_le
  have hzero : Display.zero.buffers.Field (Config.totalPos ⟨.nano, .w32⟩) amountSize [] :=
    Memory.field_nil.mpr fun _ _ => rfl
  obtain ⟨d, hrun⟩ := handleParams_renders overflowStake overflowStake_admitted (renderable_stakeFour rfl) hd hzero
  have hitem : overflowStake.call.pairsItem = some stakeAmount := if_pos rfl
  have htotal := handleParams_total overflowStake hitem (by decide) hslots hd hzero hrun
  refine ⟨⟨_, overflowStake_admitted.run .zero, rfl⟩, rfl, display, hinit, true, d, hrun, rfl,
    fun hends => ?_⟩
  exact absurd (htotal.mp hends).2 (by decide +kernel)

end AppOnt
