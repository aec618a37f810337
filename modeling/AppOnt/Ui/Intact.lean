import AppOnt.Transaction.Foreign
import AppOnt.Ui.Agreement
import AppOnt.Ui.Fee

/-!
# The end of a review

The last rows of a review, clear or blind, when it is handed to the screen: the
total, the fee and the signer, and which of the texts behind them are intact.
-/
namespace AppOnt

open Prog Token

section
variable {cfg : Config} {s t : Display} {pos len : Nat}

theorem store_yields {bs : List UInt8} : Yields (store cfg pos len bs) s fun _ t =>
    bs.length ≤ len ∧ t = { s with buffers := s.buffers.write pos bs } := by
  unfold store
  split
  · exact yields_throw
  · split
    · exact yields_throw
    · exact yields_modify.mpr ⟨by omega, rfl⟩

theorem appendPair_yields {pair : TagValue} : Yields (appendPair cfg pair) s fun _ t =>
    t = { s.putPair s.nbPairs pair with nbPairs := s.nbPairs + 1 } := by
  refine yields_bind.mpr (yields_get.mpr (yields_bind.mpr ?_))
  unfold setPair u8
  split
  · refine yields_modify.mpr (yields_bind.mpr ?_)
    split
    · exact yields_pure.mpr (yields_modify.mpr rfl)
    · exact yields_throw
  · exact yields_throw

/-- The two last rows are drawn after the others. -/
structure DrawsEnds (cfg : Config) (s t : Display) : Prop where
  buffers_eq : t.buffers = s.buffers
  nbPairs_eq : t.nbPairs = s.nbPairs + 2
  fee_row : t.pairs (t.nbPairs - 2) = ⟨.literal itemGasFee, .buffer cfg.gasFeePos⟩
  signer_row : t.pairs (t.nbPairs - 1) = ⟨.literal itemSigner, .buffer cfg.signerPos⟩
  pairs_eq : ∀ k < s.nbPairs, t.pairs k = s.pairs k

theorem feeAndSignerRows_yields :
    Yields (feeAndSignerRows cfg) s fun _ t => DrawsEnds cfg s t := by
  refine yields_bind.mpr (appendPair_yields.mono fun _ u hu => appendPair_yields.mono fun _ t ht => ?_)
  subst hu ht
  refine ⟨rfl, rfl, ?_, ?_, fun k hk => ?_⟩
  · simp [Display.putPair]
  · simp [Display.putPair]
  · simp only [Display.putPair]
    rw [Function.update_of_ne (by omega), Function.update_of_ne (by omega)]

/-- What of a review is said here: the product of price and limit did not wrap, and the C strings
behind the last two rows are the fee and the address of the path. -/
structure EndsIntact [CryptoSdk] [FormatSdk] (cfg : Config) (header : TxHeader)
    (path : List UInt32) (d : Display) : Prop where
  product_lt : header.gasPrice * header.gasLimit < 2 ^ 64
  fee_row : d.pairs (d.nbPairs - 2) = ⟨.literal itemGasFee, .buffer cfg.gasFeePos⟩
  fee : d.buffers.IsString cfg.gasFeePos (feeText (header.gasPrice * header.gasLimit))
  signer_row : d.pairs (d.nbPairs - 1) = ⟨.literal itemSigner, .buffer cfg.signerPos⟩
  signer : ∃ text, signerText maxBufferLen path = some text ∧ d.buffers.IsString cfg.signerPos text

/-- The C string behind the total, where the call has one, is the one that was written. -/
def TotalIntact (cfg : Config) (raw : List UInt8) (tx : Transaction) (d : Display) : Prop :=
  ∃ x : Signable, x.encode = raw ∧ tx = x.view .zero ∧ ∀ item, x.call.HasTotal item →
    d.pairs (d.nbPairs - 3) = ⟨.literal (totalPlus ++ item), .buffer cfg.totalPos⟩ ∧
      d.buffers.IsString cfg.totalPos x.call.totalText

theorem gasFeePos_add (cfg : Config) : cfg.gasFeePos + 17 = cfg.signerPos := by
  simp only [Config.signerPos, Config.gasFeePos, Nat.add_mul, maxBufferLen, amountSize]

/-- Nothing is written behind the signer. -/
theorem Prepared.signer_drawn {fee : Nat} {signer : List UInt8} {u d : Display} (hp : Prepared cfg s fee signer)
    (hag : s.buffers.AgreeOff u.buffers 0 cfg.gasFeePos) (hd : DrawsEnds cfg u d) :
    d.buffers.IsString cfg.signerPos signer := by
  have hpos := gasFeePos_add cfg
  rw [hd.buffers_eq]
  exact hp.signer.of_agreeOff hag (.inr (by omega))

/-- The rows leave the fee as it was when the signer had been written. -/
theorem Prepared.fee_drawn_iff {fee : Nat} {signer : List UInt8} {u d : Display} (hp : Prepared cfg s fee signer)
    (hag : s.buffers.AgreeOff u.buffers 0 cfg.gasFeePos) (hd : DrawsEnds cfg u d) :
    d.buffers.IsString cfg.gasFeePos (feeText fee) ↔ (feeText fee).length ≤ 16 := by
  have hback : u.buffers.AgreeOff s.buffers 0 cfg.gasFeePos := fun i hi => (hag i hi).symm
  rw [← hp.fee_iff, hd.buffers_eq]
  constructor
  · exact fun h => h.of_agreeOff hback (.inr (Nat.le_refl _))
  · exact fun h => h.of_agreeOff hag (.inr (Nat.le_refl _))

/-- After the fee and the signer are written, the rows before them leave both alone. -/
theorem Prepared.endsIntact_iff [CryptoSdk] [FormatSdk] {header : TxHeader} {path : List UInt32}
    {signer : List UInt8} {u d : Display}
    (hp : Prepared cfg s (header.gasPrice * header.gasLimit % 2 ^ 64) signer)
    (hsigner : signerText maxBufferLen path = some signer)
    (hag : s.buffers.AgreeOff u.buffers 0 cfg.gasFeePos) (hd : DrawsEnds cfg u d)
    (hfee : header.gasPrice * header.gasLimit ≤ tokenAmount) :
    EndsIntact cfg header path d ↔ ∃ k ≤ 9, 10 ^ k ∣ header.gasPrice * header.gasLimit ∧
      header.gasPrice * header.gasLimit < 10 ^ (11 + k) := by
  have hlt : header.gasPrice * header.gasLimit < 2 ^ 64 := Nat.lt_of_le_of_lt hfee (by decide)
  have hiff := hp.fee_drawn_iff hag hd
  rw [Nat.mod_eq_of_lt hlt] at hiff
  rw [← length_feeText_le_iff hfee, ← hiff]
  constructor
  · exact EndsIntact.fee
  · intro h
    exact ⟨hlt, hd.fee_row, h, hd.signer_row, signer, hsigner, hp.signer_drawn hag hd⟩

variable [CryptoSdk] [FormatSdk]

omit [CryptoSdk] in
theorem uiDisplayBsTransaction_yields {raw : List UInt8} {tx : Transaction} :
    Yields (uiDisplayBsTransaction cfg raw tx) s fun _ d =>
      ∃ u, s.buffers.AgreeOff u.buffers 0 cfg.gasFeePos ∧ DrawsEnds cfg u d := by
  have hmax : maxBufferLen = 67 := rfl
  have hgas : maxBufferLen ≤ cfg.gasFeePos := by
    have := cfg.target_cases
    simp only [Config.gasFeePos, hmax, amountSize]
    omega
  refine yields_bind.mpr (appendPair_yields.mono fun _ t₁ h₁ => ?_)
  refine yields_bind.mpr (yields_ofExcept.mpr fun addr _ => ?_)
  have hstore : Yields (storeText cfg 0 maxBufferLen (FormatSdk.formatHex addr maxBufferLen)) t₁
      fun _ t₂ => t₁.buffers.AgreeOff t₂.buffers 0 cfg.gasFeePos := by
    cases FormatSdk.formatHex addr maxBufferLen with
    | none => exact yields_pure.mpr (Memory.AgreeOff.refl _ _ _)
    | some text =>
      refine store_yields.mono fun _ t₂ hpost => ?_
      obtain ⟨hlen, ht⟩ := hpost
      subst ht
      exact (Memory.write_agreeOff _ _ _).mono (Nat.le_refl _) (by omega)
  refine yields_bind.mpr (hstore.mono fun _ t₂ h₂ => yields_bind.mpr (appendPair_yields.mono
    fun _ t₃ h₃ => yields_bind.mpr (feeAndSignerRows_yields.mono fun _ d hd => yields_pure.mpr ?_)))
  subst h₁ h₃
  refine ⟨_, ?_, hd⟩
  exact h₂

/-- A review is clear or blind, with what its rows leave alone. -/
theorem displayTransaction_review {raw : List UInt8} {tx : Transaction}
    {beyond : Nat → Except Fault TxParameter} {path : List UInt32} {isBlindSigned : Bool} {d : Display}
    (hrun : (displayTransaction cfg raw tx beyond path isBlindSigned).run s = .ok (.review, d)) :
    ∃ u signer, signerText maxBufferLen path = some signer ∧
      Prepared cfg u (tx.header.gasPrice * tx.header.gasLimit % 2 ^ 64) signer ∧
      (if isBlindSigned then uiDisplayBsTransaction cfg raw tx
        else uiDisplayNormalTransaction cfg raw tx beyond).run u = .ok (.review, d) := by
  obtain ⟨u, h⟩ := displayTransaction_run cfg raw tx beyond path isBlindSigned s
  split at h
  · rename_i signer hsigner
    exact ⟨u, signer, hsigner, h.1, by rw [← h.2, hrun]⟩
  · rw [hrun] at h
    cases h

/-- A clear review of an accepted transaction. -/
theorem uiDisplayNormalTransaction_review {x : Signable}
    {beyond : Nat → TxParameter} {d : Display} {fee : Nat} {signer : List UInt8}
    (hx : x.Admitted cfg) (hp : Prepared cfg s fee signer) (hrun : (uiDisplayNormalTransaction cfg x.encode
      (x.view .zero) fun j => .ok (beyond j)).run s = .ok (.review, d)) :
    ∃ u, s.buffers.AgreeOff u.buffers 0 cfg.gasFeePos ∧ DrawsEnds cfg u d ∧
      ∀ item, x.call.HasTotal item →
        d.pairs (d.nbPairs - 3) = ⟨.literal (totalPlus ++ item), .buffer cfg.totalPos⟩ ∧
          d.buffers.IsString cfg.totalPos x.call.totalText := by
  obtain ⟨display, hd⟩ := Option.isSome_iff_exists.mp
    (displayOf_isSome cfg x.call.vm.contractType x.call.registered x.call.method_mem)
  have hinit : initDipslayPosAndItem cfg x.encode (x.view .zero) = .ok (some display) := by
    rw [x.initDipslay_view, Call.name, hd]
  suffices hyields : Yields (uiDisplayNormalTransaction cfg x.encode (x.view .zero)
      fun j => .ok (beyond j)) s fun drawn d => drawn = .review →
        ∃ u, s.buffers.AgreeOff u.buffers 0 cfg.gasFeePos ∧ DrawsEnds cfg u d ∧
          ∀ item, x.call.HasTotal item →
            d.pairs (d.nbPairs - 3) = ⟨.literal (totalPlus ++ item), .buffer cfg.totalPos⟩ ∧
              d.buffers.IsString cfg.totalPos x.call.totalText from
    hyields .review d hrun rfl
  rw [uiDisplayNormalTransaction, hinit, ofExcept_ok, pure_bind]
  refine yields_bind.mpr ((handleParams_ensures x hx.slots_le (fun _ _ _ => ⟨_, rfl⟩) hd
    hp.total).yields.mono fun ok u hpost => ?_)
  obtain ⟨_, hag, htotal⟩ := hpost
  cases ok with
  | false => exact yields_pure.mpr (by simp)
  | true =>
    refine yields_bind.mpr (feeAndSignerRows_yields.mono fun _ t ht => yields_pure.mpr fun _ => ?_)
    refine ⟨u, hag, ht, fun item hitem => ?_⟩
    obtain ⟨hne, hrow, hstring⟩ := (htotal rfl).2 item hitem
    have hlast : t.nbPairs - 3 = u.nbPairs - 1 := by
      have := ht.nbPairs_eq
      omega
    rw [hlast, ht.pairs_eq _ (by omega), ht.buffers_eq]
    exact ⟨hrow, hstring⟩

omit [CryptoSdk] [FormatSdk] in
/-- The two last rows have their places. -/
theorem feeAndSignerRows_ensures (hnum : s.nbPairs ≤ cfg.parametersMaxNum) :
    Ensures (feeAndSignerRows cfg) s fun _ _ => True := by
  have hcfg := cfg.target_cases
  have hpairs : cfg.numPairs = cfg.parametersMaxNum + 2 := rfl
  simp only [feeAndSignerRows, ensures_bind, ensures_appendPair]
  exact ⟨by omega, by omega, by omega, by omega, trivial⟩

/-- The display of an accepted transaction, where the parameter array is not left. -/
theorem displayTransaction_ensures [CryptoSdk.Total] {x : Signable}
    {beyond : Nat → Except Fault TxParameter} (hx : x.Admitted cfg)
    (hbeyond : x.call.vm = .native → x.call.IsTransfer →
      slots x.call.arguments.tokens = cfg.parametersMaxNum →
      ∃ p, beyond cfg.parametersMaxNum = .ok p) (path : List UInt32) (s : Display) :
    Ensures (displayTransaction cfg x.encode (x.view .zero) beyond path false) s fun drawn _ =>
      match signerText maxBufferLen path with
      | none => drawn = .sw swDisplayAddressFail
      | some _ => (drawn = .review ↔ x.call.Renderable) ∧
          (drawn = .sw swInvalidTransaction ↔ ¬ x.call.Renderable) := by
  obtain ⟨display, hd⟩ := Option.isSome_iff_exists.mp
    (displayOf_isSome cfg x.call.vm.contractType x.call.registered x.call.method_mem)
  have hinit : initDipslayPosAndItem cfg x.encode (x.view .zero) = .ok (some display) := by
    rw [x.initDipslay_view, Call.name, hd]
  obtain ⟨t, h⟩ := displayTransaction_run cfg x.encode (x.view .zero) beyond path false s
  cases hsigner : signerText maxBufferLen path with
  | none =>
    rw [hsigner] at h
    exact ⟨_, t, h, rfl⟩
  | some signer =>
    rw [hsigner] at h
    obtain ⟨hp, hrun⟩ := h
    suffices hdraw : Ensures (uiDisplayNormalTransaction cfg x.encode (x.view .zero) beyond) t
        fun drawn _ => (drawn = .review ↔ x.call.Renderable) ∧
          (drawn = .sw swInvalidTransaction ↔ ¬ x.call.Renderable) by
      obtain ⟨drawn, u, hu, hq⟩ := hdraw
      exact ⟨drawn, u, hrun.trans hu, hq⟩
    rw [uiDisplayNormalTransaction, hinit, ofExcept_ok, pure_bind, ensures_bind]
    refine (handleParams_ensures x hx.slots_le hbeyond hd hp.total).mono
      fun ok u hpost => ?_
    obtain ⟨hok, _, hrows⟩ := hpost
    rw [renders_iff x hd] at hok
    cases ok with
    | false => exact ensures_pure.mpr (by simpa using hok)
    | true =>
      rw [if_pos rfl, ensures_bind]
      refine (feeAndSignerRows_ensures (hrows rfl).1).mono fun _ _ _ => ensures_pure.mpr ?_
      simpa using hok

/-- With a signer the arguments decide, whatever lies behind the parameter array. -/
theorem displayTransaction_outcome [CryptoSdk.Total] {x : Signable} (hx : x.Admitted cfg)
    (beyond : Nat → TxParameter) {path : List UInt32}
    (hsigner : (signerText maxBufferLen path).isSome) (s : Display) :
    Ensures (displayTransaction cfg x.encode (x.view .zero) (fun j => .ok (beyond j)) path false) s
      fun drawn _ => (drawn = .review ↔ x.call.Renderable) ∧
        (drawn = .sw swInvalidTransaction ↔ ¬ x.call.Renderable) := by
  obtain ⟨signer, hsigner⟩ := Option.isSome_iff_exists.mp hsigner
  refine (displayTransaction_ensures hx (fun _ _ _ => ⟨_, rfl⟩) path s).mono fun drawn _ h => ?_
  rwa [hsigner] at h

theorem displayTransaction_reviews [CryptoSdk.Total] {x : Signable} (hx : x.Admitted cfg)
    (hr : x.call.Renderable) (beyond : Nat → TxParameter) {path : List UInt32}
    (hsigner : (signerText maxBufferLen path).isSome) (s : Display) :
    ∃ d, (displayTransaction cfg x.encode (x.view .zero) (fun j => .ok (beyond j)) path false).run s =
      .ok (.review, d) := by
  obtain ⟨drawn, d, hrun, hdrawn, -⟩ := displayTransaction_outcome hx beyond hsigner s
  exact ⟨d, by rw [hrun, hdrawn.mpr hr]⟩

end

/-- The texts at the end of a review are intact exactly if the fee, written in ONG without trailing
zeros, takes at most twelve characters. -/
theorem review_intact_iff [BufferSdk] [CryptoSdk] [FormatSdk] (cfg : Config) (raw : List UInt8)
    (t : ParserState) (isBlindSigned : Bool)
    (hparse : (transactionDeserialize cfg).run ⟨.ofBytes raw, .zero⟩ =
      .ok (if isBlindSigned then .txNotDefined else .ok, t))
    (beyond : Nat → TxParameter) (path : List UInt32) (s d : Display)
    (hreview : (displayTransaction cfg raw t.tx (fun j => .ok (beyond j)) path isBlindSigned).run s =
      .ok (.review, d)) :
    EndsIntact cfg t.tx.header path d ∧ (isBlindSigned = false → TotalIntact cfg raw t.tx d) ↔
      ∃ k ≤ 9, 10 ^ k ∣ t.tx.header.gasPrice * t.tx.header.gasLimit ∧
        t.tx.header.gasPrice * t.tx.header.gasLimit < 10 ^ (11 + k) := by
  obtain ⟨u, signer, hsigner, hp, hrun⟩ := displayTransaction_review hreview
  cases isBlindSigned with
  | true =>
    obtain ⟨v, hag, hd⟩ := uiDisplayBsTransaction_yields .review d hrun
    obtain ⟨x, -, -, hheader, -⟩ := undefined_contract hparse
    rw [← hp.endsIntact_iff hsigner hag hd (by rw [hheader]; exact x.header.fee_max)]
    simp
  | false =>
    obtain ⟨x, hx⟩ := ((transactionDeserialize_returns cfg raw .zero).iff t).mp hparse
    obtain rfl := hx.encode_eq
    rw [hx.tx_eq] at hp hrun ⊢
    obtain ⟨v, hag, hd, htotal⟩ := uiDisplayNormalTransaction_review hx.admitted hp hrun
    rw [← hp.endsIntact_iff hsigner hag hd x.header.fee_max]
    exact and_iff_left fun _ => ⟨x, rfl, rfl, htotal⟩

theorem renderable_ontTransfer {states : List TransferState} {count : Count states.length}
    {marked : count.code ≠ .zero} (hne : states ≠ []) :
    (ontTransfer states count marked).Renderable where
  wasmvm hw := absurd (show Vm.native = .wasmvm from hw) (by decide)
  others _ := show .uint128 ∉ [TxParameterType.transferStateList] by decide
  transfers _ := hne
  total item hitem := absurd hitem (Call.IsTransfer.not_hasTotal (.inl rfl) item)

theorem review_intact_iff_sample :
    let := CryptoSdk.reference
    let := FormatSdk.reference
    ∃ d, (displayTransaction ⟨.nano, .w32⟩ sampleTransfer.encode (sampleTransfer.view .zero)
        (fun _ => .ok .zero) [] false).run .zero = .ok (.review, d) ∧
      EndsIntact ⟨.nano, .w32⟩ (sampleTransfer.view .zero).header [] d ∧
      TotalIntact ⟨.nano, .w32⟩ sampleTransfer.encode (sampleTransfer.view .zero) d := by
  let := BufferSdk.reference
  let := CryptoSdk.reference
  let := FormatSdk.reference
  have := CryptoSdk.reference_total
  obtain ⟨d, hd⟩ := displayTransaction_reviews sampleTransfer_admitted
    (renderable_ontTransfer (by decide)) (fun _ => .zero) (signerText_reference []) .zero
  obtain ⟨hends, htotal⟩ := (review_intact_iff ⟨.nano, .w32⟩ sampleTransfer.encode
    _ false (sampleTransfer_admitted.run .zero) (fun _ => .zero) [] .zero d hd).mpr
    ⟨0, by decide, by decide, by decide⟩
  exact ⟨d, hd, hends, htotal rfl⟩

/-- A fee of 200.010020001 ONG. -/
def longFeeTransfer : Signable where
  header :=
    { nonce := minimalHeader.nonce
      gasPrice := ⟨[0x81, 0x96, 0x98, 0, 0, 0, 0, 0], by decide⟩
      gasLimit := ⟨[0x21, 0x4e, 0, 0, 0, 0, 0, 0], by decide⟩
      payer := minimalHeader.payer
      gasPrice_min := by decide
      gasLimit_min := by decide
      fee_max := by decide }
  sizePrefix := sampleTransfer.sizePrefix
  call := sampleTransfer.call

theorem longFeeTransfer_admitted : longFeeTransfer.Admitted ⟨.nano, .w32⟩ :=
  ⟨by decide +kernel, by unfold SizePrefix.Declares; decide +kernel, show 3 * 1 ≤ 90 by decide⟩

theorem longFeeTransfer_overwritten :
    let := CryptoSdk.reference
    let := FormatSdk.reference
    (∃ t, (@transactionDeserialize BufferSdk.reference ⟨.nano, .w32⟩).run
        ⟨.ofBytes longFeeTransfer.encode, .zero⟩ = .ok (.ok, t) ∧ t.tx = longFeeTransfer.view .zero) ∧
    ∃ d, (displayTransaction ⟨.nano, .w32⟩ longFeeTransfer.encode (longFeeTransfer.view .zero)
        (fun _ => .ok .zero) [] false).run .zero = .ok (.review, d) ∧
      ¬ d.buffers.IsString (Config.gasFeePos ⟨.nano, .w32⟩) (feeText 200010020001) := by
  let := BufferSdk.reference
  let := CryptoSdk.reference
  let := FormatSdk.reference
  have := CryptoSdk.reference_total
  refine ⟨⟨_, longFeeTransfer_admitted.run .zero, rfl⟩, ?_⟩
  obtain ⟨d, hd⟩ := displayTransaction_reviews longFeeTransfer_admitted
    (renderable_ontTransfer (by decide)) (fun _ => .zero) (signerText_reference []) .zero
  refine ⟨d, hd, fun hfee => ?_⟩
  obtain ⟨u, signer, hsigner, hp, hrun⟩ := displayTransaction_review hd
  obtain ⟨v, hag, hends, -⟩ := uiDisplayNormalTransaction_review longFeeTransfer_admitted hp hrun
  have hshort := (hp.fee_drawn_iff hag hends).mp hfee
  exact absurd ((length_feeText_le_iff (by decide)).mp hshort) (by decide)

end AppOnt
