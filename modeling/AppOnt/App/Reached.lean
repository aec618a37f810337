import AppOnt.App.Represents
import AppOnt.App.Specs

/-!
# What a command reaches

From states that represent each other a handler shows what the protocol shows, and
reaches its state: the commands with a path, and the last chunks.
-/
namespace AppOnt

open CryptoSdk Prog

theorem visible_append (w v : List Observation) : visible (w ++ v) = visible w ++ visible v :=
  List.filterMap_append

/-- The step has shown what the protocol shows, and reached its state. -/
structure Protocol.Reached [BufferSdk] [CryptoSdk] [FormatSdk] (cfg : Config) (r : List Visible × Protocol)
    (t : App) : Prop where
  visible_eq : visible t.shown = r.1
  represents : r.2.Represents cfg t

section
variable [BufferSdk] [CryptoSdk] [FormatSdk] {cfg : Config} {p : Protocol} {s t : App} {offer : Offer}
  {bs : List UInt8}

/-- What leaves alone the context, the display and the screen. -/
theorem Protocol.Represents.frame (hr : p.Represents cfg s) (hcontext : t.context = s.context)
    (hdisplay : t.display = s.display) (hscreen : t.screen = s.screen)
    (hblind : t.blindSignedAllowed = s.blindSignedAllowed) : p.Represents cfg t where
  session := hcontext ▸ hr.session
  screen_eq := hscreen.trans hr.screen_eq
  offer offer hmem := by
    obtain ⟨hp, hrelease, hdrawn⟩ := hr.offer offer hmem
    exact ⟨hcontext ▸ hp, hcontext ▸ hrelease, hdisplay ▸ hdrawn⟩
  blindSignedAllowed_eq := hblind.trans hr.blindSignedAllowed_eq

/-- A command that is answered without anything else. -/
theorem ioSendSw_reached (hr : p.Represents cfg s) (hshown : visible s.shown = []) (sw : StatusWord) :
    Ensures (ioSendSw sw) s fun _ t => Protocol.Reached cfg ([.answer [] sw], p) t := by
  refine ensures_ioSendSw.mpr ⟨?_, hr.frame rfl rfl rfl rfl⟩
  rw [visible_append, hshown]
  rfl

theorem ioSendResponse_reached (hr : p.Represents cfg s) (hshown : visible s.shown = []) (data : List UInt8) :
    Ensures (ioSendResponse data) s fun _ t => Protocol.Reached cfg ([.answer data swOk], p) t := by
  refine ensures_ioSendResponse.mpr ⟨?_, hr.frame rfl rfl rfl rfl⟩
  rw [visible_append, hshown]
  rfl

/-- A review that is drawn makes the offer; else what is answered leaves no offer open. -/
theorem showReview_reached {x : DisplayM Drawn} {review : Review} {r : Except StatusWord Offer}
    (hsession : p.session.Represents cfg s.context) (hscreen : s.screen = p.offer.map Offer.review)
    (hblind : s.blindSignedAllowed = p.blindSignedAllowed) (hshown : visible s.shown = [])
    (hx : Ensures x s.display fun drawn d =>
      match r with
      | .error sw => drawn = .sw sw ∧ p.offer = none
      | .ok offer => drawn = .review ∧ offer.review = review ∧ offer.Represents cfg { s with display := d }) :
    Ensures (showReview x review) s fun _ t => Protocol.Reached cfg (p.propose r) t := by
  refine ensures_showReview.mpr (hx.mono fun drawn d h => ?_)
  cases r with
  | error sw =>
    obtain ⟨rfl, hnone⟩ := h
    refine ⟨?_, hsession, hscreen, ?_, hblind⟩
    · rw [visible_append, hshown]
      rfl
    · intro offer hmem
      rw [Protocol.propose, hnone] at hmem
      cases hmem
  | ok offer =>
    obtain ⟨rfl, hreview, hoffer⟩ := h
    refine ⟨?_, hsession, ?_, ?_, hblind⟩
    · rw [visible_append, hshown, ← hreview]
      rfl
    · rw [← hreview]
      rfl
    · rintro _ ⟨⟩
      exact ⟨hoffer.pending, hoffer.release_eq, hoffer.drawn⟩

/-- A chunk of a transaction that leaves the digest alone. -/
theorem Offer.Represents.storeTx (ho : offer.Represents cfg s) (htx : s.context.reqType = .confirmTransaction)
    (hfits : s.context.rawTxLen + bs.length ≤ cfg.maxTransactionLen)
    (hreq : t.context.reqType = s.context.reqType) (hhash : t.context.mHash = s.context.mHash)
    (hpath : t.context.path = s.context.path) (hcount : t.context.bip32PathLen = s.context.bip32PathLen)
    (hlen : t.context.rawTxLen = (s.context.storeTx cfg bs).rawTxLen)
    (hbytes : t.context.txBytes = (s.context.storeTx cfg bs).txBytes) (hdisplay : t.display = s.display) :
    offer.Represents cfg t := by
  obtain ⟨hp, hrelease, hdrawn⟩ := ho
  refine ⟨hp.storeTx htx hfits hreq hhash hpath hcount hlen hbytes, ?_, hdisplay ▸ hdrawn⟩
  rw [hrelease]
  cases hreview : offer.review with
  | transaction raw path => rw [Context.release, Context.release, hpath, hhash]
  | _ =>
    have := hp.reqType_eq
    rw [hreview, htx] at this
    cases this

/-- A chunk of a message that leaves the digest alone. -/
theorem Offer.Represents.storeMsg (ho : offer.Represents cfg s) (hmsg : s.context.reqType = .confirmMessage)
    (hreq : t.context.reqType = s.context.reqType) (hhash : t.context.msgHash cfg = s.context.msgHash cfg)
    (hpath : t.context.path = s.context.path) (hcount : t.context.bip32PathLen = s.context.bip32PathLen)
    (hdisplay : t.display = s.display) : offer.Represents cfg t := by
  obtain ⟨hp, hrelease, hdrawn⟩ := ho
  refine ⟨hp.storeMsg hmsg hreq hhash hpath hcount, ?_, hdisplay ▸ hdrawn⟩
  rw [hrelease]
  cases hreview : offer.review with
  | message msg path => rw [Context.release, Context.release, hpath, hhash]
  | _ =>
    have := hp.reqType_eq
    rw [hreview, hmsg] at this
    cases this

section
variable [CommandSdk]

/-- A chunked command opens a session, in which an offer that was open would not be answered any more. -/
theorem openSession_reached (hr : p.Represents cfg s) (hnone : p.offer = none) (hshown : visible s.shown = [])
    {reqType : RequestType} (hreq : reqType ≠ .confirmAddress) {data : List UInt8} (hdata : data ≠ []) :
    Ensures (withPath reqType (.ofBytes data) (ioSendSw swOk)) s fun _ t =>
      Protocol.Reached cfg (p.opening reqType false data) t := by
  refine withPath_ensures hdata (fun bip32Path len sw hpath => ?_) fun path bip32Path len hpath htake hlen => ?_
  · rw [Protocol.opening, hpath]
    refine ⟨?_, .opened (by simp), hr.screen_eq, ?_, hr.blindSignedAllowed_eq⟩
    · rw [visible_append, hshown]
      rfl
    · intro offer hmem
      rw [hnone] at hmem
      cases hmem
  · rw [Protocol.opening, hpath]
    dsimp only
    rw [if_neg hreq]
    refine ensures_ioSendSw.mpr ⟨?_, .opened ?_, hr.screen_eq, ?_, hr.blindSignedAllowed_eq⟩
    · rw [visible_append, hshown]
      rfl
    · rintro _ ⟨⟩
      exact ⟨htake, hlen⟩
    · intro offer hmem
      rw [hnone] at hmem
      cases hmem

theorem handlerGetPublicKey_reached [CryptoSdk.Total] (hr : p.Represents cfg s) (hnone : p.offer = none)
    (hshown : visible s.shown = []) (display : Bool) {data : List UInt8} (hdata : data ≠ []) :
    Ensures (handlerGetPublicKey cfg (.ofBytes data) display) s fun _ t =>
      Protocol.Reached cfg (p.opening .confirmAddress display data) t := by
  refine withPath_ensures hdata (fun bip32Path len sw hpath => ?_) fun path bip32Path len hpath htake hlen => ?_
  · rw [Protocol.opening, hpath]
    refine ⟨?_, .opened (by simp), hr.screen_eq, ?_, hr.blindSignedAllowed_eq⟩
    · rw [visible_append, hshown]
      rfl
    · intro offer hmem
      rw [hnone] at hmem
      cases hmem
  · rw [Protocol.opening, hpath]
    dsimp only
    rw [if_pos rfl, ensures_bind, ensures_getPath, htake, Protocol.publicKey]
    refine ⟨hlen, ?_⟩
    have hopened : Session.Represents cfg ⟨.confirmAddress, some path, []⟩
        (.opened .confirmAddress bip32Path len) := by
      refine .opened ?_
      rintro _ ⟨⟩
      exact ⟨htake, hlen⟩
    have hrep : ∀ c, Session.Represents cfg ⟨.confirmAddress, some path, []⟩ c →
        Protocol.Represents cfg { p with session := ⟨.confirmAddress, some path, []⟩ } { s with context := c } := by
      intro c hc
      refine ⟨hc, hr.screen_eq, ?_, hr.blindSignedAllowed_eq⟩
      intro offer hmem
      rw [hnone] at hmem
      cases hmem
    cases hkey : bip32DeriveGetPubkey256 path with
    | error code => exact ioSendSw_reached (hrep _ hopened) hshown _
    | ok key =>
      obtain ⟨hraw, hchain⟩ := CryptoSdk.pubkey_length hkey
      have hroom : uncompressedKeyLen + chainCodeLen ≤ cfg.maxTransactionLen := by
        have hlens : uncompressedKeyLen + chainCodeLen = 97 := rfl
        have := cfg.target_cases
        omega
      simp only [ensures_bind, ensures_writeRaw, hraw, hchain]
      refine ⟨by omega, hroom, ?_⟩
      obtain ⟨hread, hread'⟩ := read_publicKey (c := .opened .confirmAddress bip32Path len) hkey
      have hstored : Session.Represents cfg ⟨.confirmAddress, some path, []⟩
          (((Context.opened .confirmAddress bip32Path len).write 0 key.rawPublicKey).write uncompressedKeyLen
            key.chainCode) := by
        refine hopened.frame rfl rfl rfl rfl ?_
        intro hc
        cases hc
      cases display with
      | true =>
        rw [if_pos rfl, if_pos rfl, uiDisplayAddress, ensures_uiDisplay (by rfl) (by rfl)]
        have hdraw : Ensures (displayAddress cfg key.rawPublicKey) s.display _ := displayAddress_ensures hkey
        refine showReview_reached hstored (hrep _ hstored).screen_eq hr.blindSignedAllowed_eq hshown ?_
        rw [hread, addressOffer]
        obtain ⟨drawn, d, hrun, hdrawn⟩ := hdraw
        refine ⟨drawn, d, hrun, ?_⟩
        by_cases hsigner : signerText maxBufferLen path = none
        · rw [if_pos hsigner] at hdrawn ⊢
          exact ⟨hdrawn, hnone⟩
        · rw [if_neg hsigner] at hdrawn ⊢
          subst hdrawn
          refine ⟨rfl, rfl, ⟨rfl, hread⟩, ?_, ⟨_, hrun⟩⟩
          rw [Context.release, hread, hread']
      | false =>
        rw [if_neg (by simp), if_neg (by simp), helperSendResponsePubkey, ensures_bind, ensures_getContext, hread, hread']
        exact ioSendResponse_reached (hrep _ hstored) hshown _

omit [CommandSdk] in
/-- What was parsed is hashed and offered. -/
theorem handlerHashTxAndDisplayTx_reached [CryptoSdk.Total] {status : ParserStatus} {u : ParserState}
    {path : List UInt32}
    (hsession : ∀ mHash state, p.session.Represents cfg { s.context with mHash := mHash, state := state })
    (hnone : p.offer = none) (hscreen : s.screen = none) (hblind : s.blindSignedAllowed = p.blindSignedAllowed)
    (hreq : p.session.reqType = .confirmTransaction) (hpath : p.session.path = some path)
    (hparse : (transactionDeserialize cfg).run ⟨.ofBytes p.session.bytes, .zero⟩ = .ok (status, u))
    (hstatus : status = .ok ∨ status = .txNotDefined) (htx : s.context.transaction = u.tx)
    (hshown : visible s.shown = []) (rest : Context → Nat → TxParameter) :
    Ensures (handlerHashTxAndDisplayTx cfg (fun c j => .ok (rest c j)) (decide (status = .txNotDefined))) s
      fun _ t => Protocol.Reached cfg (p.propose (parsedOffer cfg path p.session.bytes)) t := by
  have hreq' : s.context.reqType = .confirmTransaction := (hsession [] .none).reqType_eq.trans hreq
  have hbytes : s.context.txBytes = p.session.bytes := ((hsession [] .none).txBytes_eq hreq).1
  obtain ⟨hpath', hlen⟩ := (hsession [] .none).path_eq path hpath
  have hscreen' : s.screen = p.offer.map Offer.review := by
    rw [hnone, hscreen]
    rfl
  have hfail (mHash : List UInt8) : Ensures (ioSendSw swHashFail)
      { s with context := { s.context with mHash := mHash } } fun _ t =>
        Protocol.Reached cfg (p.propose (.error swHashFail)) t := by
    have hr : p.Represents cfg { s with context := { s.context with mHash := mHash } } := by
      refine ⟨hsession mHash s.context.state, hscreen', ?_, hblind⟩
      intro offer hmem
      rw [hnone] at hmem
      cases hmem
    exact ioSendSw_reached hr hshown _
  rw [handlerHashTxAndDisplayTx, ensures_bind, ensures_getContext, hbytes]
  cases hhash : cxSha256Hash p.session.bytes with
  | none =>
    have hraw : transactionDigest p.session.bytes = none := by
      rw [transactionDigest, hhash]
      rfl
    rw [parsedOffer, hraw]
    exact hfail s.context.mHash
  | some hash =>
    have hraw : transactionDigest p.session.bytes = cxSha256Hash hash >>= cxSha256Hash := by
      rw [transactionDigest, hhash]
      rfl
    rw [parsedOffer, hraw, ensures_bind, ensures_modifyContext]
    cases hdigest : cxSha256Hash hash >>= cxSha256Hash with
    | none => exact hfail hash
    | some mHash =>
      rw [hdigest] at hraw
      rw [ensures_bind, ensures_modifyContext, uiDisplayTransaction, ensures_uiDisplay (by exact hreq') (by rfl),
        ensures_bind, ensures_observe, ensures_bind, ensures_getPath]
      refine ⟨hlen, ?_⟩
      refine showReview_reached (hsession mHash .parsed) hscreen' hblind ?_ ?_
      · rw [visible_append, hshown]
        rfl
      · obtain ⟨drawn, d, hrun, hdrawn⟩ := displayTransaction_drawn (d := s.display) hparse hstatus
          (rest { s.context with mHash := mHash, state := .parsed }) path
        dsimp only
        refine ⟨drawn, d, ?_, ?_⟩
        · rw [← htx, ← hpath'] at hrun
          rw [← hrun, ← hbytes]
          rfl
        · by_cases hsigner : signerText maxBufferLen path = none
          · rw [if_pos hsigner] at hdrawn ⊢
            exact ⟨hdrawn, hnone⟩
          · rw [if_neg hsigner] at hdrawn ⊢
            by_cases hshow : Accepted cfg p.session.bytes ∧ ¬ Showable cfg p.session.bytes
            · rw [if_pos hshow] at hdrawn ⊢
              exact ⟨hdrawn, hnone⟩
            · rw [if_neg hshow] at hdrawn ⊢
              subst hdrawn
              refine ⟨rfl, ?_, ⟨hreq', hraw, hpath', hlen, s.context.rawTxLen, Nat.le_refl _, ?_⟩, ?_,
                ⟨status, u, _, _, hstatus, hparse, hrun⟩⟩
              · rw [← hbytes, ← hpath']
                rfl
              · rcases transactionDeserialize_cases hparse with ⟨hok, hundefined, -⟩ | ⟨hdecl, -⟩
                · exact absurd hstatus (not_or.mpr ⟨hok, hundefined⟩)
                · rw [← hbytes] at hdecl
                  have hcount : s.context.txBytes.length = s.context.rawTxLen := Memory.length_read _ _ _
                  rw [hcount] at hdecl
                  exact hdecl
              · rw [← hpath']
                rfl

omit [CommandSdk] in
/-- A last chunk of a transaction. -/
theorem finishTx_reached [CryptoSdk.Total] (hr : p.Represents cfg s)
    (hreq : p.session.reqType = .confirmTransaction) (hbs : bs ≠ [])
    (hfits : p.session.bytes.length + bs.length ≤ cfg.maxTransactionLen) {path : List UInt32}
    (hpath : p.session.path = some path) (hshown : visible s.shown = []) (rest : Context → Nat → TxParameter) :
    Ensures (finishTx cfg fun c j => .ok (rest c j)) { s with context := s.context.storeTx cfg bs } fun _ t =>
      Protocol.Reached cfg (Protocol.propose { p with session := { p.session with bytes := p.session.bytes ++ bs } }
        (transactionOffer cfg p.blindSignedAllowed path (p.session.bytes ++ bs))) t := by
  have htx : s.context.reqType = .confirmTransaction := hr.session.reqType_eq.trans hreq
  obtain ⟨hbytes, hlen⟩ := hr.session.txBytes_eq hreq
  have hfits' : s.context.rawTxLen + bs.length ≤ cfg.maxTransactionLen := hlen ▸ hfits
  have hstored : (s.context.storeTx cfg bs).txBytes = p.session.bytes ++ bs := by
    rw [Context.storeTx_txBytes hfits', hbytes]
  have hreturns : Returns (transactionDeserialize cfg)
      ⟨.ofBytes (s.context.storeTx cfg bs).txBytes, s.context.transaction⟩ .ok _ :=
    transactionDeserialize_returns cfg _ _
  obtain ⟨status, t, hparse, -⟩ := hreturns
  have hparsed := hr.session.parsed hreq hfits hparse
  have hok := ok_iff_accepted hparse
  have hundefined := txNotDefined_iff_unregistered hparse
  rw [hstored] at hok hundefined
  rw [finishTx, ensures_bind, ensures_get, ensures_bind, ensures_ofExcept]
  refine ⟨_, hparse, ?_⟩
  rw [ensures_bind, ensures_modifyContext]
  dsimp only
  rw [hr.blindSignedAllowed_eq, transactionOffer, ← hok, ← hundefined]
  by_cases hstatus : status = .ok ∨ p.blindSignedAllowed = true ∧ status = .txNotDefined
  · have hmade : status = .ok ∨ status = .txNotDefined := hstatus.imp_right And.right
    -- while an offer is open no further chunk makes a transaction
    have hnone : p.offer = none := by
      refine Option.eq_none_iff_forall_not_mem.mpr fun offer hmem => ?_
      have hnot := (hr.offer offer hmem).pending.not_parsed htx hbs hfits' hparse
      exact absurd hmade (not_or.mpr hnot)
    obtain ⟨t₀, hparse₀, ht₀⟩ : ∃ t₀, (transactionDeserialize cfg).run
        ⟨.ofBytes (p.session.bytes ++ bs), .zero⟩ = .ok (status, t₀) ∧ t₀.tx = t.tx := by
      have hfresh : Context.FreshlyParsed cfg { s.context.storeTx cfg bs with transaction := t.tx } :=
        hr.session.parseable.fresh htx hbs hfits' hparse hmade rfl rfl
      obtain ⟨⟨status₀, t₀, hmade₀, hparse₀, ht₀⟩, -⟩ := hfresh
      change (transactionDeserialize cfg).run ⟨.ofBytes (s.context.storeTx cfg bs).txBytes, .zero⟩ = _ at hparse₀
      rw [hstored] at hparse₀
      have hok₀ := ok_iff_accepted hparse₀
      have hsame : status₀ = status := by grind
      rw [hsame] at hparse₀
      exact ⟨t₀, hparse₀, ht₀⟩
    have hblind : (decide (status = .txNotDefined) && p.blindSignedAllowed) = decide (status = .txNotDefined) := by
      rcases hstatus with rfl | ⟨hallowed, -⟩
      · rfl
      · rw [hallowed, Bool.and_true]
    rw [hblind, if_neg (by grind), if_pos hstatus]
    have hscreen : s.screen = none := by
      rw [hr.screen_eq, hnone]
      rfl
    refine handlerHashTxAndDisplayTx_reached
      (p := { p with session := { p.session with bytes := p.session.bytes ++ bs } }) ?_ hnone ?_ ?_ hreq hpath
      hparse₀ hmade ?_ ?_ rest
    · exact hparsed
    · exact hscreen
    · rfl
    · exact ht₀.symm
    · exact hshown
  · rw [if_neg hstatus, if_pos]
    · refine ensures_ioSendSw.mpr ⟨?_, hparsed _ _, hr.screen_eq, ?_, rfl⟩
      · rw [visible_append, hshown]
        rfl
      · intro offer hmem
        exact (hr.offer offer hmem).storeTx htx hfits' rfl rfl rfl rfl rfl rfl rfl
    · grind

variable [FormatSdk.StandardHex] [CryptoSdk.Documented]

omit [CommandSdk] [CryptoSdk.Documented] in
/-- A message is offered; where another one is, the signer has an address. -/
theorem uiDisplayMessage_reached (hsession : p.session.Represents cfg s.context)
    (hscreen : s.screen = p.offer.map Offer.review) (hblind : s.blindSignedAllowed = p.blindSignedAllowed)
    (hreq : p.session.reqType = .confirmMessage) (hstate : s.context.state = .parsed) {path : List UInt32}
    (hpath : p.session.path = some path) (hne : p.session.bytes ≠ [])
    (hdigest : messageDigest p.session.bytes = some (s.context.msgHash cfg))
    (hsigner : signerText maxBufferLen path = none → p.offer = none) (hshown : visible s.shown = []) :
    Ensures (uiDisplayMessage cfg) s fun _ t =>
      Protocol.Reached cfg (p.propose (messageOffer path p.session.bytes)) t := by
  have hmsg : s.context.reqType = .confirmMessage := hsession.reqType_eq.trans hreq
  have hbytes := (hsession.msgBytes_eq hreq).1
  have hmax := hsession.length_le
  rw [hreq] at hmax
  obtain ⟨hpath', hlen⟩ := hsession.path_eq path hpath
  rw [uiDisplayMessage, ensures_uiDisplay hmsg hstate, ensures_bind, ensures_observe, ensures_bind, ensures_getPath]
  refine ⟨hlen, ?_⟩
  dsimp only
  rw [hbytes, hpath']
  refine showReview_reached hsession hscreen hblind ?_ ?_
  · rw [visible_append, hshown]
    rfl
  · obtain ⟨drawn, d, hrun, hdrawn⟩ := displayMessage_ensures cfg hne hmax path s.display
    refine ⟨drawn, d, hrun, ?_⟩
    rw [messageOffer, hdigest]
    rcases hdrawn with ⟨signer, htext, rfl, -⟩ | ⟨htext, rfl⟩
    · have haddr : (deriveAddressFromBip32Path path maxBufferLen).1 = true := by
        rw [deriveAddress_eq (by decide), htext]
        rfl
      dsimp only
      rw [if_neg (by rw [htext]; exact Option.some_ne_none signer)]
      refine ⟨rfl, rfl, ⟨hmsg, hdigest, hpath', hlen, haddr⟩, ?_, ⟨_, hrun⟩⟩
      rw [Context.release, hpath']
    · dsimp only
      rw [if_pos htext]
      exact ⟨rfl, hsigner htext⟩

omit [CommandSdk] in
/-- A last chunk of a message. -/
theorem finishMessage_reached (hr : p.Represents cfg s) (hreq : p.session.reqType = .confirmMessage)
    (hbs : bs ≠ []) (hfits : p.session.bytes.length + bs.length ≤ maxMessageLen) {path : List UInt32}
    (hpath : p.session.path = some path) (hshown : visible s.shown = []) :
    Ensures (finishMessage cfg) { s with context := s.context.storeMsg cfg bs } fun _ t =>
      Protocol.Reached cfg (Protocol.propose { p with session := { p.session with bytes := p.session.bytes ++ bs } }
        (messageOffer path (p.session.bytes ++ bs))) t := by
  have hmsg : s.context.reqType = .confirmMessage := hr.session.reqType_eq.trans hreq
  obtain ⟨hbytes, hlen⟩ := hr.session.msgBytes_eq hreq
  have hfits' : s.context.rawMsgLen cfg + bs.length ≤ maxMessageLen := hlen ▸ hfits
  have hstored : (s.context.storeMsg cfg bs).msgBytes cfg = p.session.bytes ++ bs := by
    rw [Context.storeMsg_msgBytes hfits', hbytes]
  have hsession := hr.session.storeMsg hreq hfits
  obtain ⟨hpath', hcount⟩ := hr.session.path_eq path hpath
  rw [finishMessage, ensures_bind, ensures_setState, ensures_bind, ensures_getContext]
  have hparsed : Context.msgBytes cfg { s.context.storeMsg cfg bs with state := .parsed } = p.session.bytes ++ bs := hstored
  rw [hparsed, messageOffer]
  cases hdigest : messageDigest (p.session.bytes ++ bs) with
  | none =>
    refine ensures_ioSendSw.mpr ⟨?_, hsession.frame rfl rfl rfl rfl hsession.parseable, hr.screen_eq, ?_,
      hr.blindSignedAllowed_eq⟩
    · rw [visible_append, hshown]
      rfl
    · intro offer hmem
      exact (hr.offer offer hmem).storeMsg hmsg rfl (Context.storeMsg_msgHash hfits') rfl rfl rfl
  | some hash =>
    have hstoredDigest : messageDigest ((s.context.storeMsg cfg bs).msgBytes cfg) = some hash := by
      rw [hstored]
      exact hdigest
    obtain ⟨hmsgBytes, hhash⟩ := Context.hashedMsg_spec hfits' hstoredDigest rfl
    rw [hbytes] at hmsgBytes
    rw [hmsgBytes] at hhash
    have hne : p.session.bytes ++ bs ≠ [] := by simp [hbs]
    have hmax : (p.session.bytes ++ bs).length ≤ maxMessageLen := by rwa [List.length_append]
    rw [ensures_bind, ensures_writeRaw]
    refine ⟨msgHash_room hdigest, ?_⟩
    have hpropose := uiDisplayMessage_reached (p := { p with session := { p.session with bytes := p.session.bytes ++ bs } })
      (s := { s with context := { (s.context.storeMsg cfg bs).write cfg.msgHashPos hash with state := .parsed } })
      (hsession.hashed hreq hash .parsed) hr.screen_eq hr.blindSignedAllowed_eq hreq rfl hpath hne hhash ?_ hshown
    · rw [messageOffer, hdigest] at hpropose
      exact hpropose
    · -- an offer that is open is one of a message with the same signer
      intro htext
      refine Option.eq_none_iff_forall_not_mem.mpr fun offer hmem => ?_
      have hdrawable := (hr.offer offer hmem).pending.drawable hmsg hne hmax
      rw [MessageDrawable, hpath', deriveAddress_eq (by decide), htext] at hdrawable
      cases hdrawable.1
end

end

end AppOnt
