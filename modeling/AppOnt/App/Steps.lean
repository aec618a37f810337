import AppOnt.App.Effect

/-!
# Every step is an effect

The specifications of the handlers, each in terms of what it leaves in the
context, on the screen and in the observations.
-/
namespace AppOnt

open CryptoSdk Prog

section
variable {s : App} {Q : Unit → App → Prop}

@[simp] theorem yields_observe {o : Observation} :
    Yields (observe o) s Q ↔ Q ⟨⟩ { s with shown := s.shown ++ [o] } := yields_modify

@[simp] theorem yields_ioSendSw {sw : StatusWord} :
    Yields (ioSendSw sw) s Q ↔ Q ⟨⟩ { s with shown := s.shown ++ [.answer [] sw] } := yields_modify

@[simp] theorem yields_ioSendResponse {data : List UInt8} :
    Yields (ioSendResponse data) s Q ↔ Q ⟨⟩ { s with shown := s.shown ++ [.answer data swOk] } :=
  yields_modify

@[simp] theorem yields_getContext {Q : Context → App → Prop} :
    Yields getContext s Q ↔ Q s.context s := by simp [getContext]

@[simp] theorem yields_modifyContext {f : Context → Context} :
    Yields (modifyContext f) s Q ↔ Q ⟨⟩ { s with context := f s.context } := yields_modify

@[simp] theorem yields_setState {state : AppState} :
    Yields (setState state) s Q ↔ Q ⟨⟩ { s with context := { s.context with state := state } } :=
  yields_modify

@[simp] theorem yields_writeRaw {len k : Nat} {bs : List UInt8} :
    Yields (writeRaw len k bs) s Q ↔
      (k + bs.length ≤ len → Q ⟨⟩ { s with context := s.context.write k bs }) := by
  simp [writeRaw]

@[simp] theorem yields_getPath {Q : List UInt32 → App → Prop} :
    Yields getPath s Q ↔ (s.context.bip32PathLen.toNat ≤ maxBip32Path → Q s.context.path s) := by
  simp [getPath]

theorem yields_showReview {x : DisplayM Drawn} {review : Review} {P : Drawn → Prop}
    (hx : Yields x s.display fun r _ => P r) (hcodes : ∀ sw, P (.sw sw) →
      sw ∈ [swInvalidTransaction, swDisplayAddressFail, swPersonalMsgParsingFail]) :
    Yields (showReview x review) s fun _ t => t.context = s.context ∧
      ∃ r w, P r ∧ t.shown = s.shown ++ w ∧ Builds review s.context s.screen w t.screen ∧
        ((∃ review c₀, .review review c₀ ∈ w) ↔ r = .review) := by
  rw [showReview, yields_bind, yields_within]
  refine hx.mono fun r d hr => ?_
  cases r with
  | sw code => exact yields_ioSendSw.mpr ⟨rfl, _, _, hr, rfl, .failed (hcodes code hr), by simp⟩
  | review =>
    rw [yields_bind, yields_getContext, yields_bind, yields_observe]
    exact yields_modify.mpr ⟨rfl, _, _, hr, rfl, .drawn, by simp⟩

end

theorem read_msgSignature (cfg : Config) {c : Context} {sig : Signature} (hder : sig.der.length ≤ maxSignatureLen) :
    let c' := c.storeMsgSignature cfg sig
    c'.rawTx (cfg.msgSignaturePos + maxSignatureLen) = UInt8.ofNat sig.der.length ∧
      c'.rawTx.read cfg.msgSignaturePos sig.der.length = sig.der ∧
      c'.rawTx (cfg.msgSignaturePos + maxSignatureLen + 1) = sig.parity := by
  refine ⟨?_, ?_, ?_⟩
  · exact Memory.write_add _ _ _ 0
  · rw [Context.storeMsgSignature, Context.write,
      (Memory.write_agreeOff _ _ _).read_eq (.inl (Nat.add_le_add_left hder _)), Context.write]
    exact Memory.read_write _ _ _
  · exact Memory.write_add _ _ _ 1

section
variable [CryptoSdk] {s : App}

theorem yields_cryptoSign {digest : List UInt8} {Q : Option Signature → App → Prop} :
    Yields (cryptoSign digest) s Q ↔ (s.context.bip32PathLen.toNat ≤ maxBip32Path →
      (∀ e, bip32DeriveEcdsaSignHash256 s.context.path digest = .error e →
        Q none { s with shown := s.shown ++ [.sign s.context digest] }) ∧
      ∀ sig, bip32DeriveEcdsaSignHash256 s.context.path digest = .ok sig →
        sig.der.length ≤ maxSignatureLen →
        Q (some sig) { s with shown := s.shown ++ [.sign s.context digest] }) := by
  simp only [cryptoSign, yields_bind, yields_getContext, yields_observe, yields_getPath]
  refine imp_congr_right fun _ => ?_
  cases bip32DeriveEcdsaSignHash256 s.context.path digest with
  | error e => simp
  | ok sig => simp

variable [BufferSdk] [FormatSdk] (cfg : Config)

theorem validateTransaction_yields {raw : List UInt8} {path : List UInt32} (choice : Bool)
    (hscreen : s.screen = some (.transaction raw path)) (hshown : s.shown = []) :
    Yields (validateTransaction choice) s fun _ t =>
      Effect cfg s.context s.screen (.choice choice) t.shown t.context none := by
  cases choice with
  | false => simpa [validateTransaction, hshown] using .rejected hscreen (.inr rfl)
  | true =>
    simp only [validateTransaction, if_true, yields_bind, yields_setState, yields_getContext,
      yields_cryptoSign]
    intro hlen
    constructor
    · intro e hsign
      simpa [hshown] using .signatureFail hscreen (.inl ⟨raw, path, rfl, rfl⟩) hlen hsign
    · intro sig hsign hder
      simpa [hshown, helperTxSendResponseSig] using .signedTx hscreen hlen hsign hder

theorem validatePersonalMsg_yields {msg : List UInt8} {path : List UInt32} (choice : Bool)
    (hscreen : s.screen = some (.message msg path)) (hshown : s.shown = []) :
    Yields (validatePersonalMsg cfg choice) s fun _ t =>
      Effect cfg s.context s.screen (.choice choice) t.shown t.context none := by
  cases choice with
  | false => simpa [validatePersonalMsg, hshown] using .rejected hscreen (.inr rfl)
  | true =>
    simp only [validatePersonalMsg, if_true, yields_bind, yields_setState, yields_getContext,
      yields_cryptoSign]
    intro hlen
    constructor
    · intro e hsign
      simpa [hshown] using .signatureFail hscreen (.inr ⟨msg, path, rfl, rfl⟩) hlen hsign
    · intro sig hsign hder
      simp only [yields_bind, yields_writeRaw, helperPersonalMsgSendResponseSig, yields_getContext,
        yields_ioSendResponse]
      intro _ _
      obtain ⟨hcount, hread, hparity⟩ := read_msgSignature cfg (c := { s.context with state := .approved }) hder
      have hnat : (UInt8.ofNat sig.der.length).toNat = sig.der.length :=
        UInt8.toNat_ofNat_of_lt (Nat.lt_of_le_of_lt hder (by decide))
      have heffect : Effect cfg s.context s.screen _ _ _ _ := .signedMsg hscreen hlen hsign hder
      simp only [Context.storeMsgSignature] at hcount hread hparity heffect
      rw [hcount, hnat, hread, hparity, hshown]
      exact heffect

theorem reviewChoice_yields (confirm : Bool) (hshown : s.shown = []) :
    Yields (reviewChoice cfg confirm) s fun _ t =>
      Effect cfg s.context s.screen (.choice confirm) t.shown t.context t.screen := by
  simp only [reviewChoice, yields_bind, yields_get]
  cases hscreen : s.screen with
  | none =>
    refine yields_pure.mpr ?_
    rw [hshown, hscreen]
    exact .keep rfl (.inl rfl) (fun _ h => by cases h) fun _ _ => rfl
  | some review =>
    cases review with
    | transaction raw path =>
      have h := validateTransaction_yields cfg confirm hscreen hshown
      rw [hscreen] at h
      exact yields_bind.mpr (h.mono fun _ _ ht => yields_modify.mpr ht)
    | message msg path =>
      have h := validatePersonalMsg_yields cfg confirm hscreen hshown
      rw [hscreen] at h
      exact yields_bind.mpr (h.mono fun _ _ ht => yields_modify.mpr ht)
    | address key =>
      cases confirm with
      | false => simpa [validatePubkey, hshown] using .rejected rfl (.inl rfl)
      | true =>
        simpa [validatePubkey, helperSendResponsePubkey, hshown] using .approvedAddress rfl

end

section
variable [CryptoSdk] [FormatSdk] (cfg : Config) {d : Display}

theorem displayTransaction_codes (raw : List UInt8) (tx : Transaction)
    (beyond : Nat → Except Fault TxParameter) (path : List UInt32) (isBlindSigned : Bool) :
    Yields (displayTransaction cfg raw tx beyond path isBlindSigned) d fun r _ => ∀ sw, r = .sw sw →
      sw ∈ [swInvalidTransaction, swDisplayAddressFail] := by
  refine yields_bind_of fun _ _ => yields_bind_of fun ok _ => ?_
  cases ok with
  | false => exact yields_pure.mpr (by simp)
  | true =>
    refine yields_bind_of fun _ _ => yields_ite.mpr ⟨fun _ => yields_ite.mpr ⟨fun _ => ?_, fun _ => ?_⟩,
      fun _ => yields_pure.mpr (by simp)⟩
    · refine yields_bind_of fun _ _ => yields_bind_of fun _ _ => yields_bind_of fun _ _ =>
        yields_bind_of fun _ _ => yields_bind_of fun _ _ => yields_pure.mpr (by simp)
    · refine yields_bind_of fun method _ => ?_
      cases method with
      | none => exact yields_pure.mpr (by simp)
      | some method =>
        refine yields_bind_of fun ok _ => yields_ite.mpr ⟨fun _ => ?_, fun _ => yields_pure.mpr (by simp)⟩
        exact yields_bind_of fun _ _ => yields_pure.mpr (by simp)

theorem displayMessage_codes (msg : List UInt8) (path : List UInt32) :
    Yields (displayMessage cfg msg path) d fun r _ =>
      (∀ sw, r = .sw sw → sw ∈ [swDisplayAddressFail, swPersonalMsgParsingFail]) ∧
        (r = .review ↔ MessageDrawable cfg msg path) := by
  rw [MessageDrawable]
  refine yields_bind_of fun _ _ => yields_bind_of fun _ _ => yields_ite.mpr ⟨?_, ?_⟩
  · intro (hsigner : (deriveAddressFromBip32Path path maxBufferLen).1 = true)
    refine yields_bind_of fun _ _ => yields_ite.mpr ⟨?_, ?_⟩
    · intro (hmsg : (makeMessageVisible msg (cfg.numPairs * maxBufferLen - maxBufferLen)).1 = true)
      exact yields_bind_of fun _ _ => yields_bind_of fun _ _ => yields_pure.mpr (by simp [hsigner, hmsg])
    · intro (hmsg : ¬ (makeMessageVisible msg (cfg.numPairs * maxBufferLen - maxBufferLen)).1 = true)
      exact yields_pure.mpr (by simp [hmsg])
  · intro (hsigner : ¬ (deriveAddressFromBip32Path path maxBufferLen).1 = true)
    exact yields_pure.mpr (by simp [hsigner])

theorem displayAddress_codes (rawPublicKey : List UInt8) :
    Yields (displayAddress cfg rawPublicKey) d fun r _ => ∀ sw, r = .sw sw →
      sw ∈ [swDisplayAddressFail] := by
  refine yields_bind_of fun _ _ => yields_bind_of fun _ _ => yields_ite.mpr ⟨fun _ => ?_, fun _ =>
    yields_pure.mpr (by simp)⟩
  exact yields_pure.mpr (by simp)

omit [CryptoSdk] [FormatSdk] in
/-- Where the request and the state are the ones of a review, it is built. -/
theorem yields_uiDisplay {s : App} {reqType : RequestType} {state : AppState} {draw : Context → AppM Unit}
    {Q : Unit → App → Prop} (hreq : s.context.reqType = reqType) (hstate : s.context.state = state) :
    Yields (uiDisplay reqType state draw) s Q ↔ Yields (draw s.context) s Q := by
  rw [uiDisplay, yields_bind, yields_getContext, if_neg]
  simp [hreq, hstate]

theorem uiDisplayAddress_yields {s : App} (hreq : s.context.reqType = .confirmAddress)
    (hstate : s.context.state = .none) :
    Yields (uiDisplayAddress cfg) s fun _ t => t.context = s.context ∧ ∃ w, t.shown = s.shown ++ w ∧
      Builds (.address s.context.rawPublicKey) s.context s.screen w t.screen := by
  rw [uiDisplayAddress, yields_uiDisplay hreq hstate]
  refine (yields_showReview (displayAddress_codes cfg _) (by simp)).mono fun _ t h => ?_
  obtain ⟨hctx, -, w, -, hw, hbuilds, -⟩ := h
  exact ⟨hctx, w, hw, hbuilds⟩

theorem uiDisplayMessage_yields {s : App} (hreq : s.context.reqType = .confirmMessage)
    (hstate : s.context.state = .parsed) :
    Yields (uiDisplayMessage cfg) s fun _ t => t.context = s.context ∧
      s.context.bip32PathLen.toNat ≤ maxBip32Path ∧
      ∃ w, t.shown = s.shown ++ .display s.context :: w ∧
        Builds (.message (s.context.msgBytes cfg) s.context.path) s.context s.screen w t.screen ∧
        ((∃ review c₀, .review review c₀ ∈ w) ↔
          MessageDrawable cfg (s.context.msgBytes cfg) s.context.path) := by
  rw [uiDisplayMessage, yields_uiDisplay hreq hstate]
  simp only [yields_bind, yields_observe, yields_getPath]
  intro hlen
  refine (yields_showReview (displayMessage_codes cfg _ _) (by simp)).mono fun _ t h => ?_
  obtain ⟨hctx, r, w, hr, hw, hbuilds, hdrawn⟩ := h
  exact ⟨hctx, hlen, w, by rw [hw, List.append_assoc]; rfl, hbuilds, hdrawn.trans hr.2⟩

theorem uiDisplayTransaction_yields {s : App} (beyond : Context → Nat → Except Fault TxParameter)
    (isBlindSigned : Bool) (hreq : s.context.reqType = .confirmTransaction)
    (hstate : s.context.state = .parsed) :
    Yields (uiDisplayTransaction cfg beyond isBlindSigned) s fun _ t => t.context = s.context ∧
      s.context.bip32PathLen.toNat ≤ maxBip32Path ∧
      ∃ w, t.shown = s.shown ++ .display s.context :: w ∧
        Builds (.transaction s.context.txBytes s.context.path) s.context s.screen w t.screen := by
  rw [uiDisplayTransaction, yields_uiDisplay hreq hstate]
  simp only [yields_bind, yields_observe, yields_getPath]
  intro hlen
  refine (yields_showReview (displayTransaction_codes cfg _ _ _ _ _) (by simp)).mono fun _ t h => ?_
  obtain ⟨hctx, -, w, -, hw, hbuilds, -⟩ := h
  exact ⟨hctx, hlen, w, by rw [hw, List.append_assoc]; rfl, hbuilds⟩

variable [BufferSdk] [CommandSdk] {s : App}

omit [CryptoSdk] [FormatSdk] [CommandSdk] in
theorem bufferReadU8_cons (len : UInt8) (bs : List UInt8) :
    ∃ b, BufferSdk.bufferReadU8 (.ofBytes (len :: bs)) = some (len, b) ∧ b.rest = bs := by
  obtain ⟨b, hb, hrest⟩ : ∃ b, (Buffer.ofBytes (len :: bs)).Consumes [len] b ∧ b.rest = bs :=
    Buffer.exists_consumes rfl
  exact ⟨b, (BufferSdk.readU8_iff _ _ _).mpr hb, hrest⟩

omit [CryptoSdk] [FormatSdk] in
/-- A command with a path clears the context; with a path that is refused it answers, and else it
goes on. -/
theorem withPath_yields {reqType : RequestType} {data : List UInt8} {next : AppM Unit}
    {Q : Unit → App → Prop} (hdata : data ≠ [])
    (hrefused : ∀ bip32Path len sw, acceptedPath data = none → bip32Path.length = maxBip32Path →
      sw ∈ [swWrongDataLength, swInvalidPath] → Q ⟨⟩ { s with
        context := .opened reqType bip32Path len, shown := s.shown ++ [.answer [] sw] })
    (haccepted : ∀ path bip32Path len, acceptedPath data = some path →
      bip32Path.length = maxBip32Path → (Context.opened reqType bip32Path len).path = path →
      len.toNat = path.length → Yields next { s with context := .opened reqType bip32Path len } Q) :
    Yields (withPath reqType (.ofBytes data) next) s Q := by
  obtain ⟨len, bs, rfl⟩ := List.exists_cons_of_ne_nil hdata
  obtain ⟨b, hread, hrest⟩ := bufferReadU8_cons len bs
  have hzero : (Context.zero.bip32Path).length = maxBip32Path := List.length_replicate
  have hlen := CommandSdk.readPath_length b Context.zero.bip32Path len.toNat hzero
  have hiff := CommandSdk.readPath_iff b Context.zero.bip32Path len.toNat
  have heq := CommandSdk.readPath_eq b Context.zero.bip32Path len.toNat
  rw [hrest] at hiff heq
  simp only [withPath, readBip32Path, hread, yields_bind, yields_modifyContext, yields_getContext,
    yields_pure]
  change Yields (if (CommandSdk.bufferReadBip32Path b Context.zero.bip32Path len.toNat).1 = true then _
    else _) _ Q
  split
  · rename_i hok
    obtain ⟨hpos, hmax, hbytes⟩ := hiff.mp hok
    have hpath := heq hok
    have hvalid : isValidBip44Prefix (CommandSdk.bufferReadBip32Path b Context.zero.bip32Path
        len.toNat).2 len.toNat = isValidBip44Prefix (beWords len.toNat bs) len.toNat := by
      rw [hpath]
      exact isValidBip44Prefix_append (length_beWords _ _)
    simp only [yields_bind, yields_getContext]
    change Yields (if isValidBip44Prefix (CommandSdk.bufferReadBip32Path b Context.zero.bip32Path
      len.toNat).2 len.toNat = true then next else _) _ Q
    rw [hvalid]
    split
    · rename_i hprefix
      refine haccepted (beWords len.toNat bs) _ _ (if_pos ⟨hpos, hmax, hbytes, hprefix⟩) hlen ?_
        (length_beWords _ _).symm
      change (CommandSdk.bufferReadBip32Path b Context.zero.bip32Path len.toNat).2.take _ = _
      rw [hpath]
      exact List.take_left' (length_beWords _ _)
    · rename_i hprefix
      refine yields_ioSendSw.mpr (hrefused _ _ _ (if_neg fun h => hprefix h.2.2.2) hlen ?_)
      simp
  · rename_i hok
    refine yields_ioSendSw.mpr (hrefused _ _ _ (if_neg fun h => hok (hiff.mpr ⟨h.1, h.2.1, h.2.2.1⟩)) hlen ?_)
    simp

omit [CommandSdk] in
/-- A command that is refused. -/
theorem refused_yields {e : Event} (hopens : e.opens = none) (hchoice : ∀ confirm, e ≠ .choice confirm)
    {sw : StatusWord} (hsw : sw ∈ refusals) (hshown : s.shown = []) :
    Yields (ioSendSw sw) s fun _ t => Effect cfg s.context s.screen e t.shown t.context t.screen := by
  refine yields_ioSendSw.mpr (.keep hopens (.inr ⟨[], sw, ?_⟩) (fun _ _ => ?_) ?_)
  · simp [hshown]
  · simpa [hshown, Observation.isRefusal] using hsw
  · exact fun confirm h => absurd h (hchoice confirm)

omit [CommandSdk] in
theorem refusedChunk_yields {e : Event} {reqType : RequestType} (hchunk : e.continues = some reqType)
    {sw : StatusWord} (hsw : sw ∈ refusals) (hshown : s.shown = []) :
    Yields (ioSendSw sw) s fun _ t => Effect cfg s.context s.screen e t.shown t.context t.screen := by
  refine refused_yields cfg (Event.opens_of_continues hchunk) ?_ hsw hshown
  rintro confirm rfl
  cases hchunk

/-- The first chunk of a transaction or a message. -/
theorem openSession_yields {e : Event} {reqType : RequestType} (hopens : e.opens = some reqType)
    (hreq : reqType ≠ .confirmAddress) (hdata : e.data ≠ []) (hshown : s.shown = []) :
    Yields (withPath reqType (.ofBytes e.data) (ioSendSw swOk)) s fun _ t =>
      Effect cfg s.context s.screen e t.shown t.context t.screen := by
  refine withPath_yields hdata (fun path len sw hpath hlen hsw => ?_)
    fun path path' len hpath hlen htake hcount => yields_ioSendSw.mpr ?_
  · simpa [hshown] using .pathRefused hopens hpath hlen hsw
  · simpa [hshown] using .opened hopens hreq hpath hlen htake hcount

theorem handlerGetPublicKey_yields {e : Event} (display : Bool)
    (hopens : e.opens = some .confirmAddress) (hdata : e.data ≠ []) (hshown : s.shown = []) :
    Yields (handlerGetPublicKey cfg (.ofBytes e.data) display) s fun _ t =>
      Effect cfg s.context s.screen e t.shown t.context t.screen := by
  refine withPath_yields hdata (fun path len sw hpath hlen hsw => ?_) fun path path' len hpath _ htake hcount => ?_
  · simpa [hshown] using .pathRefused hopens hpath hlen hsw
  · simp only [yields_bind, yields_getPath]
    intro _
    cases hkey : bip32DeriveGetPubkey256 (Context.opened .confirmAddress path' len).path with
    | error code =>
      refine yields_ioSendSw.mpr ?_
      simpa [hshown] using .pubkey hopens rfl rfl hpath htake hcount (.inl ⟨[], _, rfl, rfl, .inr ⟨code, hkey, rfl⟩⟩)
    | ok key =>
      simp only [yields_bind, yields_writeRaw]
      intro _ _
      refine yields_ite.mpr ⟨fun _ => ?_, fun _ => ?_⟩
      · refine (uiDisplayAddress_yields cfg rfl rfl).mono fun _ t h => ?_
        obtain ⟨hctx, w, hw, hbuilds⟩ := h
        rw [hctx, hw, hshown, List.nil_append]
        exact .pubkey hopens rfl rfl hpath htake hcount (.inr hbuilds)
      · simp only [helperSendResponsePubkey, yields_bind, yields_getContext, yields_ioSendResponse, hshown]
        exact .pubkey hopens rfl rfl hpath htake hcount (.inl ⟨_, _, rfl, rfl, .inl rfl⟩)

variable (beyond : Context → Nat → Except Fault TxParameter)

omit [CryptoSdk] [FormatSdk] [BufferSdk] in
/-- All the data of a chunk is moved. -/
theorem bufferMove_ofBytes (bs : List UInt8) :
    CommandSdk.bufferMove (.ofBytes bs) (Buffer.ofBytes bs).size = some bs :=
  (CommandSdk.move_iff _ _ _).mpr ⟨Nat.le_refl _, rfl⟩

omit [CommandSdk] in
theorem handlerHashTxAndDisplayTx_yields {e : Event} {c : Context} {screen : Option Review}
    {status : ParserStatus} {t : ParserState} (isBlind : Bool)
    (hchunk : e.continues = some .confirmTransaction) (hreq : c.reqType = .confirmTransaction)
    (hfits : c.rawTxLen + e.data.length ≤ cfg.maxTransactionLen) (hmore : e.more = false)
    (hparse : (transactionDeserialize cfg).run
      ⟨.ofBytes (c.storeTx cfg e.data).txBytes, c.transaction⟩ = .ok (status, t))
    (hstatus : status = .ok ∨ status = .txNotDefined)
    (hctx : s.context = { c.storeTx cfg e.data with transaction := t.tx })
    (hscreen : s.screen = screen) (hshown : s.shown = []) :
    Yields (handlerHashTxAndDisplayTx cfg beyond isBlind) s fun _ u =>
      Effect cfg c screen e u.shown u.context u.screen := by
  have hbytes : s.context.txBytes = (c.storeTx cfg e.data).txBytes := by rw [hctx]; rfl
  simp only [handlerHashTxAndDisplayTx, yields_bind, yields_getContext, hbytes]
  cases hhash : cxSha256Hash (c.storeTx cfg e.data).txBytes with
  | none =>
    refine yields_ioSendSw.mpr ?_
    rw [hscreen, hshown, hctx]
    exact .txHashFail hchunk hreq hfits hmore hparse hstatus
  | some hash =>
    simp only [yields_bind, yields_modifyContext]
    cases hdigest : cxSha256Hash hash >>= cxSha256Hash with
    | none =>
      refine yields_ioSendSw.mpr ?_
      rw [hscreen, hshown, hctx]
      exact .txHashFail hchunk hreq hfits hmore hparse hstatus
    | some mHash =>
      simp only [yields_bind, yields_modifyContext]
      have hreq' : s.context.reqType = .confirmTransaction := by rw [hctx]; exact hreq
      refine Yields.mono (uiDisplayTransaction_yields cfg beyond isBlind ?_ rfl) fun _ u h => ?_
      · exact hreq'
      obtain ⟨hu, hlen, w, hw, hbuilds⟩ := h
      have htx : transactionDigest (c.storeTx cfg e.data).txBytes = some mHash := by
        rw [transactionDigest, hhash]
        exact hdigest
      rw [hctx] at hu hlen hw hbuilds
      rw [hscreen] at hbuilds
      rw [hu, hw, hshown, List.nil_append]
      exact .txDisplay hchunk hreq hfits hmore hparse hstatus htx rfl hlen hbuilds

omit [CommandSdk] in
theorem finishTx_yields {e : Event} {c : Context} {screen : Option Review}
    (hchunk : e.continues = some .confirmTransaction) (hreq : c.reqType = .confirmTransaction)
    (hfits : c.rawTxLen + e.data.length ≤ cfg.maxTransactionLen) (hmore : e.more = false)
    (hctx : s.context = c.storeTx cfg e.data) (hscreen : s.screen = screen) (hshown : s.shown = []) :
    Yields (finishTx cfg beyond) s fun _ u => Effect cfg c screen e u.shown u.context u.screen := by
  have htx : s.context.transaction = c.transaction := by rw [hctx]; rfl
  rw [finishTx, yields_bind, yields_get, hctx, yields_bind, yields_ofExcept]
  rintro ⟨status, t⟩ hparse
  change (transactionDeserialize cfg).run ⟨_, c.transaction⟩ = _ at hparse
  simp only [yields_bind, yields_modifyContext]
  refine yields_ite.mpr ⟨fun hfail => ?_, fun hok => ?_⟩
  · refine yields_ioSendSw.mpr ?_
    rw [hscreen, hshown, hctx]
    exact .txParsingFail hchunk hreq hfits hmore hparse hfail.1
  · have hstatus : status = .ok ∨ status = .txNotDefined := by
      by_contra h
      push Not at h
      exact hok ⟨h.1, by simp [h.2]⟩
    refine handlerHashTxAndDisplayTx_yields cfg beyond _ hchunk hreq hfits hmore hparse hstatus ?_
      hscreen hshown
    rw [hctx]

theorem handlerSignTx_yields {e : Event} {chunk : UInt8}
    (hopens : chunk = 0 → e.opens = some .confirmTransaction)
    (hchunk : chunk ≠ 0 → e.continues = some .confirmTransaction)
    (hdata : e.data ≠ []) (hshown : s.shown = []) :
    Yields (handlerSignTx cfg beyond (.ofBytes e.data) chunk e.more) s fun _ t =>
      Effect cfg s.context s.screen e t.shown t.context t.screen := by
  rw [handlerSignTx]
  refine yields_ite.mpr ⟨fun hzero => ?_, fun hne => ?_⟩
  · exact openSession_yields cfg (hopens hzero) (by simp) hdata hshown
  · have hcont := hchunk hne
    rw [yields_bind, yields_getContext]
    refine yields_ite.mpr ⟨fun _ => refusedChunk_yields cfg hcont (by decide) hshown, fun hreq => ?_⟩
    refine yields_ite.mpr ⟨fun _ => refusedChunk_yields cfg hcont (by decide) hshown, fun hsize => ?_⟩
    have hreq := not_not.mp hreq
    simp only [bufferMove_ofBytes, yields_bind, yields_writeRaw, yields_modifyContext]
    intro hfits
    refine yields_ite.mpr ⟨fun hmore => ?_, fun hmore => ?_⟩
    · refine yields_ioSendSw.mpr ?_
      rw [hshown]
      exact .storedTx hcont hreq hfits hmore
    · exact finishTx_yields cfg beyond hcont hreq hfits (by simpa using hmore) rfl rfl hshown

omit [CommandSdk] in
theorem finishMessage_yields {e : Event} {c : Context} {screen : Option Review}
    (hchunk : e.continues = some .confirmMessage) (hreq : c.reqType = .confirmMessage)
    (hfits : c.rawMsgLen cfg + e.data.length ≤ maxMessageLen) (hmore : e.more = false)
    (hctx : s.context = c.storeMsg cfg e.data) (hscreen : s.screen = screen) (hshown : s.shown = []) :
    Yields (finishMessage cfg) s fun _ u => Effect cfg c screen e u.shown u.context u.screen := by
  have hbytes : Context.msgBytes cfg { c.storeMsg cfg e.data with state := .parsed } =
    (c.storeMsg cfg e.data).msgBytes cfg := rfl
  rw [finishMessage, yields_bind, yields_setState, yields_bind, yields_getContext, hctx, hbytes]
  cases hdigest : messageDigest ((c.storeMsg cfg e.data).msgBytes cfg) with
  | none =>
    refine yields_ioSendSw.mpr ?_
    rw [hscreen, hshown]
    exact .msgHashFail hchunk hreq hfits hmore
  | some hash =>
    simp only [yields_bind, yields_writeRaw]
    intro _
    refine Yields.mono (uiDisplayMessage_yields cfg ?_ rfl) fun _ u h => ?_
    · exact hreq
    · obtain ⟨hu, hlen, w, hw, hbuilds, hdrawn⟩ := h
      rw [hscreen] at hbuilds
      rw [hu, hw, hshown, List.nil_append]
      exact .msgDisplay hchunk hreq hfits hmore hdigest rfl hlen hbuilds hdrawn

theorem handlerSignMessage_yields {e : Event} {chunk : UInt8}
    (hopens : chunk = 0 → e.opens = some .confirmMessage)
    (hchunk : chunk ≠ 0 → e.continues = some .confirmMessage)
    (hdata : e.data ≠ []) (hshown : s.shown = []) :
    Yields (handlerSignMessage cfg (.ofBytes e.data) chunk e.more) s fun _ t =>
      Effect cfg s.context s.screen e t.shown t.context t.screen := by
  rw [handlerSignMessage]
  refine yields_ite.mpr ⟨fun hzero => ?_, fun hne => ?_⟩
  · exact openSession_yields cfg (hopens hzero) (by simp) hdata hshown
  · have hcont := hchunk hne
    rw [yields_bind, yields_getContext]
    refine yields_ite.mpr ⟨fun _ => refusedChunk_yields cfg hcont (by decide) hshown, fun hreq => ?_⟩
    refine yields_ite.mpr ⟨fun _ => refusedChunk_yields cfg hcont (by decide) hshown, fun hsize => ?_⟩
    have hreq := not_not.mp hreq
    simp only [bufferMove_ofBytes, yields_bind, yields_writeRaw, setRawMsgLen, yields_modifyContext]
    intro hfits
    refine yields_ite.mpr ⟨fun hmore => ?_, fun hmore => ?_⟩
    · refine yields_ioSendSw.mpr ?_
      rw [hshown]
      exact .storedMsg hcont hreq hfits hmore
    · exact finishMessage_yields cfg hcont hreq hfits (by simpa using hmore) rfl rfl hshown

theorem apduDispatcher_yields (cmd : Command) (hshown : s.shown = []) :
    Yields (apduDispatcher cfg beyond cmd) s fun _ t =>
      Effect cfg s.context s.screen (.apdu cmd) t.shown t.context t.screen := by
  have hrefuse (sw : StatusWord) (hsw : sw ∈ refusals) (hnone : cmd.handler = none) :
      Yields (ioSendSw sw) s fun _ t =>
        Effect cfg s.context s.screen (.apdu cmd) t.shown t.context t.screen :=
    refused_yields cfg (by simp [Event.opens, hnone]) (fun _ => by simp) hsw hshown
  have hanswer (data : List UInt8) (hnone : cmd.handler = none) :
      Yields (ioSendResponse data) s fun _ t =>
        Effect cfg s.context s.screen (.apdu cmd) t.shown t.context t.screen := by
    refine yields_ioSendResponse.mpr (.keep (by simp [Event.opens, hnone]) (.inr ⟨data, swOk, ?_⟩)
      (fun _ h => ?_) fun _ h => by cases h)
    · simp [hshown]
    · simp [Event.continues, hnone] at h
  rw [apduDispatcher]
  refine yields_ite.mpr ⟨fun hcla => hrefuse _ (by decide) (if_pos (.inl hcla)), fun hcla => ?_⟩
  have hnodata (h : cmd.data = []) : cmd.handler = none := if_pos (.inr h)
  have hdata (h : cmd.data ≠ []) : ¬ (cmd.cla ≠ AppOnt.cla ∨ cmd.data = []) := by simp_all
  cases hins : Ins.ofByte cmd.ins with
  | none => exact hrefuse _ (by decide) (by simp [Command.handler, hins])
  | some ins =>
    cases ins with
    | getVersion =>
      have hnone : cmd.handler = none := by simp [Command.handler, hins]
      exact yields_ite.mpr ⟨fun _ => hrefuse _ (by decide) hnone, fun _ => hanswer _ hnone⟩
    | getAppName =>
      have hnone : cmd.handler = none := by simp [Command.handler, hins]
      exact yields_ite.mpr ⟨fun _ => hrefuse _ (by decide) hnone, fun _ => hanswer _ hnone⟩
    | getPublicKey =>
      refine yields_ite.mpr ⟨fun h => hrefuse _ (by decide) (by simp [Command.handler, hins, h]),
        fun hp => yields_ite.mpr ⟨fun h => hrefuse _ (by decide) (hnodata h), fun h => ?_⟩⟩
      have hopens : (Event.apdu cmd).opens = some .confirmAddress := by
        rw [Event.opens, Command.handler, if_neg (hdata h), hins]
        simp [hp]
      exact handlerGetPublicKey_yields cfg (e := .apdu cmd) _ hopens h hshown
    | signTx =>
      refine yields_ite.mpr ⟨fun h => hrefuse _ (by decide) (by simp [Command.handler, hins, h]),
        fun hp => yields_ite.mpr ⟨fun h => hrefuse _ (by decide) (hnodata h), fun h => ?_⟩⟩
      have hhandler : cmd.handler = some .signTx := by
        rw [Command.handler, if_neg (hdata h), hins]
        exact if_neg hp
      exact handlerSignTx_yields cfg beyond (e := .apdu cmd)
        (fun hzero => by simp [Event.opens, hhandler, hzero])
        (fun hne => by simp [Event.continues, hhandler, hne]) h hshown
    | signMessage =>
      refine yields_ite.mpr ⟨fun h => hrefuse _ (by decide) (by simp [Command.handler, hins, h]),
        fun hp => yields_ite.mpr ⟨fun h => hrefuse _ (by decide) (hnodata h), fun h => ?_⟩⟩
      have hhandler : cmd.handler = some .signMessage := by
        rw [Command.handler, if_neg (hdata h), hins]
        exact if_neg hp
      exact handlerSignMessage_yields cfg (e := .apdu cmd)
        (fun hzero => by simp [Event.opens, hhandler, hzero])
        (fun hne => by simp [Event.continues, hhandler, hne]) h hshown

/-- Every step is an effect. -/
theorem step_effect {e : Event} {t : App} {w : List Observation}
    (h : (app cfg beyond).step e s = some (w, t)) :
    Effect cfg s.context s.screen e w t.context t.screen ∧ t.shown = w := by
  have hyields : Yields (handle cfg beyond e) { s with shown := [] } fun _ t =>
      Effect cfg s.context s.screen e t.shown t.context t.screen := by
    cases e with
    | apdu cmd => exact apduDispatcher_yields cfg beyond cmd rfl
    | badLength => exact refused_yields cfg (s := { s with shown := [] }) rfl (by simp) (by decide) rfl
    | choice confirm => exact reviewChoice_yields cfg confirm rfl
    | blindSigning allowed =>
      exact yields_modify.mpr (.keep rfl (.inl rfl) (fun _ h => by cases h) fun _ h => by cases h)
  simp only [app] at h
  split at h
  · rename_i u hrun
    cases h
    exact ⟨hyields _ _ hrun, rfl⟩
  · cases h

end

end AppOnt
