import AppOnt.App.Reached
import AppOnt.Library.Simulation

/-!
# The application refines the protocol

Every step of the protocol is one of the application between states that represent
each other, so no interleaving that the protocol covers makes the device fault, or
sign and answer anything else. What a review reads beyond the parameter array may
be anything.
-/
namespace AppOnt

open CryptoSdk Prog

section
variable [BufferSdk] [CryptoSdk] [FormatSdk] {cfg : Config} {p : Protocol} {s t : App} {offer : Offer}
  {bs : List UInt8}

/-- After a chunk is stored it is answered, or the last one makes the offer. -/
theorem stored_reached (hr : p.Represents cfg s) (hshown : visible s.shown = []) {finish : AppM Unit}
    {offer : List UInt32 → Except StatusWord Offer} (hfinish : ∀ path, p.session.path = some path →
      Ensures finish s fun _ t => Protocol.Reached cfg (p.propose (offer path)) t) {more : Bool}
    {r : List Visible × Protocol} (hstep : (if more then some ([.answer [] swOk], p)
      else p.session.path.map fun path => p.propose (offer path)) = some r) :
    Ensures (if more then ioSendSw swOk else finish) s fun _ t => Protocol.Reached cfg r t := by
  cases more with
  | true =>
    cases hstep
    exact ioSendSw_reached hr hshown _
  | false =>
    obtain ⟨path, hpath, rfl⟩ := Option.map_eq_some_iff.mp hstep
    exact hfinish path hpath

section
variable [CryptoSdk.Documented]

omit [CryptoSdk.Documented] in
/-- The offer is closed by an answer. -/
theorem closed_reached (hr : p.Represents cfg s) {c : Context} (hsession : p.session.Represents cfg c)
    {shown : List Observation} {w : List Visible} (hshown : visible shown = w) :
    Protocol.Reached cfg (w, { p with offer := none })
      { s with context := c, screen := none, shown := shown } := by
  refine ⟨hshown, hsession, rfl, ?_, hr.blindSignedAllowed_eq⟩
  intro offer hmem
  cases hmem

/-- The approval of a transaction. -/
theorem validateTransaction_reached (hr : p.Represents cfg s) (hshown : visible s.shown = [])
    (hlen : s.context.bip32PathLen.toNat ≤ maxBip32Path) :
    Ensures (validateTransaction true) s fun _ t => Protocol.Reached cfg
      (signatureRelease s.context.path s.context.mHash, { p with offer := none }) { t with screen := none } := by
  rw [validateTransaction, if_pos rfl, ensures_bind, ensures_setState, ensures_bind, ensures_getContext, ensures_bind,
    ensures_cryptoSign (by exact hlen), signatureRelease]
  have hpath : Context.path { s.context with state := .approved } = s.context.path := rfl
  rw [hpath]
  cases hsign : bip32DeriveEcdsaSignHash256 s.context.path s.context.mHash with
  | error code =>
    simp only [Except.toOption, ensures_bind, ensures_setState, ensures_ioSendSw]
    refine closed_reached hr (hr.session.settled _ _ _) ?_
    rw [visible_append, visible_append, hshown]
    rfl
  | ok sig =>
    simp only [Except.toOption, ensures_bind, ensures_modifyContext, helperTxSendResponseSig, ensures_getContext,
      ensures_ioSendResponse]
    refine closed_reached hr (hr.session.settled _ _ _) ?_
    rw [visible_append, visible_append, hshown]
    rfl

/-- The approval of a message. -/
theorem validatePersonalMsg_reached (hr : p.Represents cfg s) (hshown : visible s.shown = [])
    (hmsg : p.session.reqType = .confirmMessage) (hlen : s.context.bip32PathLen.toNat ≤ maxBip32Path) :
    Ensures (validatePersonalMsg cfg true) s fun _ t => Protocol.Reached cfg
      (signatureRelease s.context.path (s.context.msgHash cfg), { p with offer := none }) { t with screen := none } := by
  rw [validatePersonalMsg, if_pos rfl, ensures_bind, ensures_setState, ensures_bind, ensures_getContext, ensures_bind,
    ensures_cryptoSign (by exact hlen), signatureRelease]
  have hpath : Context.path { s.context with state := .approved } = s.context.path := rfl
  have hhash : Context.msgHash cfg { s.context with state := .approved } = s.context.msgHash cfg := rfl
  rw [hpath, hhash]
  cases hsign : bip32DeriveEcdsaSignHash256 s.context.path (s.context.msgHash cfg) with
  | error code =>
    simp only [Except.toOption, ensures_bind, ensures_setState, ensures_ioSendSw]
    refine closed_reached hr (hr.session.settled .none _ _) ?_
    rw [visible_append, visible_append, hshown]
    rfl
  | ok sig =>
    have hder : sig.der.length ≤ maxSignatureLen := CryptoSdk.Documented.der_length hsign
    have hroom : cfg.msgSignaturePos + maxSignatureLen + 2 ≤ cfg.maxTransactionLen := by
      have hpos : cfg.msgSignaturePos = 1024 + cfg.sizeBytes + 32 := rfl
      have hsize : cfg.sizeBytes ≤ 8 := by
        unfold Config.sizeBytes
        split <;> decide
      have hmax : maxSignatureLen = 72 := rfl
      have := cfg.target_cases
      omega
    obtain ⟨hcount, hread, hparity⟩ := read_msgSignature cfg (c := { s.context with state := .approved }) hder
    have hnat : (UInt8.ofNat sig.der.length).toNat = sig.der.length :=
      UInt8.toNat_ofNat_of_lt (Nat.lt_of_le_of_lt hder (by decide))
    have hsession := hr.session.signedMsg hmsg sig .approved
    simp only [Context.storeMsgSignature] at hcount hread hparity hsession
    simp only [Except.toOption, ensures_bind, ensures_writeRaw, helperPersonalMsgSendResponseSig, ensures_getContext,
      ensures_ioSendResponse]
    refine ⟨by omega, hroom, closed_reached hr hsession ?_⟩
    rw [visible_append, visible_append, hshown, hcount, hnat, hread, hparity]
    rfl

/-- The user's choice. -/
theorem reviewChoice_reached (hr : p.Represents cfg s) (hshown : visible s.shown = []) (confirm : Bool) :
    Ensures (reviewChoice cfg confirm) s fun _ t => Protocol.Reached cfg (p.choice confirm) t := by
  rw [reviewChoice, ensures_bind, ensures_get, hr.screen_eq, Protocol.choice]
  cases hoffer : p.offer with
  | none => exact ensures_pure.mpr ⟨hshown, hr⟩
  | some offer =>
    obtain ⟨hp, hrelease, -⟩ := hr.offer offer hoffer
    have hreq := hr.session.reqType_eq.symm.trans hp.reqType_eq
    have hdeny : visible (s.shown ++ [.answer [] swDeny]) = [.answer [] swDeny] := by
      rw [visible_append, hshown]
      rfl
    have hnone : p.session.Represents cfg { s.context with state := .none } := hr.session.settled _ _ _
    dsimp only [Option.map_some]
    rw [hrelease]
    cases hreview : offer.review with
    | transaction raw path =>
      rw [hreview] at hp
      rw [ensures_bind]
      cases confirm with
      | true =>
        refine (validateTransaction_reached hr hshown hp.2.2.2.1).mono fun _ t ht => ?_
        exact ensures_modify.mpr ht
      | false =>
        simp only [validateTransaction, Bool.false_eq_true, if_false, ensures_bind, ensures_setState, ensures_ioSendSw,
          ensures_modify]
        exact closed_reached hr hnone hdeny
    | message msg path =>
      rw [hreview] at hp hreq
      rw [ensures_bind]
      cases confirm with
      | true =>
        refine (validatePersonalMsg_reached hr hshown hreq hp.2.2.2.1).mono fun _ t ht => ?_
        exact ensures_modify.mpr ht
      | false =>
        simp only [validatePersonalMsg, Bool.false_eq_true, if_false, ensures_bind, ensures_setState, ensures_ioSendSw,
          ensures_modify]
        exact closed_reached hr hnone hdeny
    | address key =>
      rw [ensures_bind]
      cases confirm with
      | true =>
        simp only [validatePubkey, helperSendResponsePubkey, if_true, ensures_bind, ensures_getContext,
          ensures_ioSendResponse, ensures_modify]
        refine closed_reached hr hr.session ?_
        rw [visible_append, hshown]
        rfl
      | false =>
        simp only [validatePubkey, Bool.false_eq_true, if_false, ensures_ioSendSw, ensures_modify]
        exact closed_reached hr hr.session hdeny

end

theorem refused_reached (hr : p.Represents cfg s) (hshown : visible s.shown = []) {cmd : Command} {sw : StatusWord}
    (hrequest : cmd.request = .refused sw) {r : List Visible × Protocol}
    (hstep : Protocol.step cfg (.apdu cmd) p = some r) :
    Ensures (ioSendSw sw) s fun _ t => Protocol.Reached cfg r t := by
  rw [Protocol.step, hrequest] at hstep
  cases hstep
  exact ioSendSw_reached hr hshown sw

theorem told_reached (hr : p.Represents cfg s) (hshown : visible s.shown = []) {cmd : Command} {data : List UInt8}
    (hrequest : cmd.request = .told data) {r : List Visible × Protocol}
    (hstep : Protocol.step cfg (.apdu cmd) p = some r) :
    Ensures (ioSendResponse data) s fun _ t => Protocol.Reached cfg r t := by
  rw [Protocol.step, hrequest] at hstep
  cases hstep
  exact ioSendResponse_reached hr hshown data

omit [BufferSdk] in
theorem Protocol.step_opens {cmd : Command} {reqType : RequestType} {confirm : Bool}
    (hrequest : cmd.request = .opens reqType confirm) {r : List Visible × Protocol}
    (hstep : Protocol.step cfg (.apdu cmd) p = some r) :
    p.offer = none ∧ r = p.opening reqType confirm cmd.data := by
  rw [Protocol.step, hrequest] at hstep
  cases hoffer : p.offer with
  | none =>
    rw [hoffer] at hstep
    cases hstep
    exact ⟨rfl, rfl⟩
  | some offer =>
    rw [hoffer] at hstep
    cases hstep

/-- The checks before the two handlers of chunks. -/
theorem dispatchSign_reached (hr : p.Represents cfg s) (hshown : visible s.shown = []) {cmd : Command}
    {reqType : RequestType} {handler : Buffer → UInt8 → Bool → AppM Unit}
    (hrequest : cmd.request = cmd.signRequest reqType) {r : List Visible × Protocol}
    (hstep : Protocol.step cfg (.apdu cmd) p = some r)
    (hopens : cmd.data ≠ [] → cmd.p1 = 0 → p.offer = none → Ensures
      (handler (.ofBytes cmd.data) cmd.p1 (cmd.p2 &&& p2More != 0)) s fun _ t =>
        Protocol.Reached cfg (p.opening reqType false cmd.data) t)
    (hchunk : cmd.data ≠ [] → cmd.p1 ≠ 0 →
      p.chunk cfg reqType (cmd.p2 &&& p2More != 0) cmd.data = some r → Ensures
        (handler (.ofBytes cmd.data) cmd.p1 (cmd.p2 &&& p2More != 0)) s fun _ t => Protocol.Reached cfg r t) :
    Ensures (dispatchSign cmd handler) s fun _ t => Protocol.Reached cfg r t := by
  rw [Command.signRequest] at hrequest
  rw [dispatchSign]
  refine ensures_ite.mpr ⟨fun hp => ?_, fun hp => ensures_ite.mpr ⟨fun hdata => ?_, fun hdata => ?_⟩⟩
  · rw [if_pos hp] at hrequest
    exact refused_reached hr hshown hrequest hstep
  · rw [if_neg hp, if_pos hdata] at hrequest
    exact refused_reached hr hshown hrequest hstep
  · rw [if_neg hp, if_neg hdata] at hrequest
    by_cases hzero : cmd.p1 = 0
    · rw [if_pos hzero] at hrequest
      obtain ⟨hnone, rfl⟩ := Protocol.step_opens hrequest hstep
      exact hopens hdata hzero hnone
    · rw [if_neg hzero] at hrequest
      rw [Protocol.step, hrequest] at hstep
      exact hchunk hdata hzero hstep

section
variable [CommandSdk] [CryptoSdk.Total]

/-- A further command of a transaction. -/
theorem chunkTx_reached (hr : p.Represents cfg s) (hshown : visible s.shown = [])
    {data : List UInt8} (hdata : data ≠ []) (hlt : data.length < 256) {chunk : UInt8} (hchunk : chunk ≠ 0)
    (more : Bool) (rest : Context → Nat → TxParameter) {r : List Visible × Protocol}
    (hstep : p.chunk cfg .confirmTransaction more data = some r) :
    Ensures (handlerSignTx cfg (fun c j => .ok (rest c j)) (.ofBytes data) chunk more) s fun _ t =>
      Protocol.Reached cfg r t := by
  rw [handlerSignTx, if_neg hchunk, ensures_bind, ensures_getContext, hr.session.reqType_eq]
  rw [Protocol.chunk] at hstep
  by_cases hreq : p.session.reqType = .confirmTransaction
  · have hlen := (hr.session.txBytes_eq hreq).2
    have htx : s.context.reqType = .confirmTransaction := hr.session.reqType_eq.trans hreq
    have hsize : cfg.addSize s.context.rawTxLen (Buffer.ofBytes data).size = p.session.bytes.length + data.length := by
      have hmax := hr.session.length_le
      rw [hreq] at hmax
      have hcapacity : RequestType.confirmTransaction.capacity cfg = cfg.maxTransactionLen := rfl
      have := cfg.target_cases
      have := cfg.sizeMod_cases
      rw [hlen]
      exact cfg.addSize_of_lt (by change _ + data.length < _; omega)
    rw [if_neg (not_not.mpr hreq)]
    rw [if_neg (not_not.mpr hreq)] at hstep
    by_cases hfits : cfg.maxTransactionLen < p.session.bytes.length + data.length
    · rw [if_pos (by rw [hsize]; exact hfits)]
      rw [if_pos (show RequestType.confirmTransaction.capacity cfg < _ from hfits)] at hstep
      cases hstep
      exact ioSendSw_reached hr hshown _
    · rw [if_neg (by rw [hsize]; exact hfits)]
      rw [if_neg (show ¬ RequestType.confirmTransaction.capacity cfg < _ from hfits)] at hstep
      have hroom := Nat.le_of_not_lt hfits
      simp only [bufferMove_ofBytes, ensures_bind, ensures_writeRaw, ensures_modifyContext]
      refine ⟨by rw [hlen]; exact hroom, ?_⟩
      have hstored : Protocol.Represents cfg
          { p with session := { p.session with bytes := p.session.bytes ++ data } }
          { s with context := s.context.storeTx cfg data } := by
        refine ⟨hr.session.storeTx hreq hroom, hr.screen_eq, ?_, hr.blindSignedAllowed_eq⟩
        intro offer hmem
        exact (hr.offer offer hmem).storeTx htx (hlen ▸ hroom) rfl rfl rfl rfl rfl rfl rfl
      refine stored_reached hstored hshown ?_ hstep
      intro path hpath
      rw [Session.offer, hreq]
      exact finishTx_reached hr hreq hdata hroom hpath hshown rest
  · rw [if_pos hreq]
    rw [if_pos hreq] at hstep
    cases hstep
    exact ioSendSw_reached hr hshown _

variable [FormatSdk.StandardHex] [CryptoSdk.Documented]

omit [CryptoSdk.Total] in
/-- A further command of a message. -/
theorem chunkMsg_reached (hr : p.Represents cfg s) (hshown : visible s.shown = [])
    {data : List UInt8} (hdata : data ≠ []) (hlt : data.length < 256) {chunk : UInt8} (hchunk : chunk ≠ 0)
    (more : Bool) {r : List Visible × Protocol} (hstep : p.chunk cfg .confirmMessage more data = some r) :
    Ensures (handlerSignMessage cfg (.ofBytes data) chunk more) s fun _ t => Protocol.Reached cfg r t := by
  rw [handlerSignMessage, if_neg hchunk, ensures_bind, ensures_getContext, hr.session.reqType_eq]
  rw [Protocol.chunk] at hstep
  by_cases hreq : p.session.reqType = .confirmMessage
  · have hlen := (hr.session.msgBytes_eq hreq).2
    have hmsg : s.context.reqType = .confirmMessage := hr.session.reqType_eq.trans hreq
    have hsize : cfg.addSize (s.context.rawMsgLen cfg) (Buffer.ofBytes data).size =
        p.session.bytes.length + data.length := by
      have hmax := hr.session.length_le
      rw [hreq] at hmax
      have hcapacity : RequestType.confirmMessage.capacity cfg = 1024 := rfl
      have := cfg.sizeMod_cases
      rw [hlen]
      exact cfg.addSize_of_lt (by change _ + data.length < _; omega)
    rw [if_neg (not_not.mpr hreq)]
    rw [if_neg (not_not.mpr hreq)] at hstep
    by_cases hfits : maxMessageLen < p.session.bytes.length + data.length
    · rw [if_pos (by rw [hsize]; exact hfits)]
      rw [if_pos (show RequestType.confirmMessage.capacity cfg < _ from hfits)] at hstep
      cases hstep
      exact ioSendSw_reached hr hshown _
    · rw [if_neg (by rw [hsize]; exact hfits)]
      rw [if_neg (show ¬ RequestType.confirmMessage.capacity cfg < _ from hfits)] at hstep
      have hroom := Nat.le_of_not_lt hfits
      simp only [bufferMove_ofBytes, ensures_bind, ensures_writeRaw, setRawMsgLen, ensures_modifyContext]
      refine ⟨by rw [hlen]; exact hroom, ?_⟩
      have hstored : Protocol.Represents cfg
          { p with session := { p.session with bytes := p.session.bytes ++ data } }
          { s with context := s.context.storeMsg cfg data } := by
        refine ⟨hr.session.storeMsg hreq hroom, hr.screen_eq, ?_, hr.blindSignedAllowed_eq⟩
        intro offer hmem
        exact (hr.offer offer hmem).storeMsg hmsg rfl (Context.storeMsg_msgHash (hlen ▸ hroom)) rfl rfl rfl
      refine stored_reached hstored hshown ?_ hstep
      intro path hpath
      rw [Session.offer, hreq]
      exact finishMessage_reached hr hreq hdata hroom hpath hshown
  · rw [if_pos hreq]
    rw [if_pos hreq] at hstep
    cases hstep
    exact ioSendSw_reached hr hshown _

/-- The dispatcher does what the command asks for. -/
theorem apduDispatcher_reached (hr : p.Represents cfg s) (hshown : visible s.shown = [])
    (cmd : Command) (rest : Context → Nat → TxParameter) {r : List Visible × Protocol}
    (hstep : Protocol.step cfg (.apdu cmd) p = some r) :
    Ensures (apduDispatcher cfg (fun c j => .ok (rest c j)) cmd) s fun _ t => Protocol.Reached cfg r t := by
  rw [apduDispatcher]
  refine ensures_ite.mpr ⟨fun hcla => refused_reached hr hshown (if_pos hcla) hstep, fun hcla => ?_⟩
  cases hins : Ins.ofByte cmd.ins with
  | none => exact refused_reached hr hshown (by simp [Command.request, hcla, hins]) hstep
  | some ins =>
    cases ins with
    | getVersion | getAppName =>
      refine ensures_ite.mpr ⟨fun hp => ?_, fun hp => ?_⟩
      · exact refused_reached hr hshown (by simp [Command.request, hcla, hins, hp]) hstep
      · exact told_reached hr hshown (by simp [Command.request, hcla, hins, hp]) hstep
    | getPublicKey =>
      refine ensures_ite.mpr ⟨fun hp => ?_, fun hp => ensures_ite.mpr ⟨fun hdata => ?_, fun hdata => ?_⟩⟩
      · exact refused_reached hr hshown (by simp [Command.request, hcla, hins, hp]) hstep
      · exact refused_reached hr hshown (by simp [Command.request, hcla, hins, hp, hdata]) hstep
      · have hrequest : cmd.request = .opens .confirmAddress (cmd.p1 != 0) := by
          simp [Command.request, hcla, hins, hp, hdata]
        obtain ⟨hnone, rfl⟩ := Protocol.step_opens hrequest hstep
        exact handlerGetPublicKey_reached hr hnone hshown _ hdata
    | signTx =>
      have hrequest : cmd.request = cmd.signRequest .confirmTransaction := by simp [Command.request, hcla, hins]
      refine dispatchSign_reached hr hshown hrequest hstep (fun hdata hzero hnone => ?_) fun hdata hne hchunk => ?_
      · rw [handlerSignTx, if_pos hzero]
        exact openSession_reached hr hnone hshown (by decide) hdata
      · exact chunkTx_reached hr hshown hdata cmd.length_lt hne _ rest hchunk
    | signMessage =>
      have hrequest : cmd.request = cmd.signRequest .confirmMessage := by simp [Command.request, hcla, hins]
      refine dispatchSign_reached hr hshown hrequest hstep (fun hdata hzero hnone => ?_) fun hdata hne hchunk => ?_
      · rw [handlerSignMessage, if_pos hzero]
        exact openSession_reached hr hnone hshown (by decide) hdata
      · exact chunkMsg_reached hr hshown hdata cmd.length_lt hne _ hchunk

/-- What a step of the protocol does, the application does. -/
theorem handle_reached (hr : p.Represents cfg s) (hshown : visible s.shown = []) {e : Event}
    (rest : Context → Nat → TxParameter) {r : List Visible × Protocol} (hstep : Protocol.step cfg e p = some r) :
    Ensures (handle cfg (fun c j => .ok (rest c j)) e) s fun _ t => Protocol.Reached cfg r t := by
  cases e with
  | apdu cmd => exact apduDispatcher_reached hr hshown cmd rest hstep
  | badLength =>
    cases hstep
    exact ioSendSw_reached hr hshown _
  | choice confirm =>
    cases hstep
    exact reviewChoice_reached hr hshown confirm
  | blindSigning allowed =>
    cases hstep
    exact ensures_modify.mpr ⟨hshown, hr.session, hr.screen_eq,
      fun offer hmem => ⟨(hr.offer offer hmem).pending, (hr.offer offer hmem).release_eq, (hr.offer offer hmem).drawn⟩,
      rfl⟩

/-- The application simulates the protocol. -/
theorem protocol_simulates (cfg : Config) (rest : Context → Nat → TxParameter) :
    Machine.Simulates (protocol cfg) (app cfg fun c j => .ok (rest c j)) visible (Protocol.Represents cfg) where
  init := by
    refine ⟨⟨rfl, by simp [protocol, Protocol.init], rfl, Nat.le_refl _, fun hc => by cases hc⟩, rfl, ?_, rfl⟩
    intro offer hmem
    cases hmem
  step := by
    intro p p' s e w hr hstep
    have hr₀ : p.Represents cfg { s with shown := [] } := hr.frame rfl rfl rfl rfl
    obtain ⟨u, t, hrun, hseen, hr'⟩ := handle_reached hr₀ rfl rest hstep
    refine ⟨t.shown, t, ?_, hseen, hr'⟩
    simp only [app]
    rw [hrun]

end

end

end AppOnt
