import AppOnt.App.Fresh
import AppOnt.Ui.Visible

/-!
# Approvals

A callback signs the digest of the context, or answers its public key, whatever the
review was of. As long as no command with a path was handled since the review came
on the screen, these are the ones of the review: further chunks either leave them
alone or draw another review. A command with a path clears them.
-/
namespace AppOnt

open CryptoSdk Prog

/-- No command with a path was handled since the last review came on the screen. -/
def Untouched : History → Bool
  | [] => false
  | (e, w) :: h => w.any Observation.isReview || (e.opens.isNone && Untouched h)

section
variable [CryptoSdk]

/-- The answer to an approval after the digest was signed with the path. -/
def signatureAnswer (path : List UInt32) (digest : List UInt8) : Observation :=
  match bip32DeriveEcdsaSignHash256 path digest with
  | .error _ => .answer [] swSignatureFail
  | .ok sig => .answer (UInt8.ofNat sig.der.length :: sig.der ++ [sig.parity]) swOk

/-- What the approval of a review releases: the signature of the digest of its bytes with the path of
its signer, or its public key. -/
def Released : Review → List Observation → Prop
  | .transaction raw path, w => ∃ digest c, transactionDigest raw = some digest ∧ c.path = path ∧
      w = [.sign c digest, signatureAnswer path digest]
  | .message msg path, w => ∃ digest c, messageDigest msg = some digest ∧ c.path = path ∧
      w = [.sign c digest, signatureAnswer path digest]
  | .address key, w => ∃ chainCode, w = [.answer (pubkeyResponse key chainCode) swOk]

variable [FormatSdk]

def Review.reqType : Review → RequestType
  | .transaction .. => .confirmTransaction
  | .message .. => .confirmMessage
  | .address _ => .confirmAddress

/-- The context still holds what its review was built from. No further chunk completes a transaction,
as the bytes declare a length that was reached; one of a message draws another review. -/
def Pending (cfg : Config) (c : Context) : Review → Prop
  | .transaction raw path => c.reqType = .confirmTransaction ∧ transactionDigest raw = some c.mHash ∧
      c.path = path ∧ c.bip32PathLen.toNat ≤ maxBip32Path ∧ ∃ n ≤ c.rawTxLen, DeclaresLength cfg c.txBytes n
  | .message msg path => c.reqType = .confirmMessage ∧ messageDigest msg = some (c.msgHash cfg) ∧
      c.path = path ∧ c.bip32PathLen.toNat ≤ maxBip32Path ∧
      (deriveAddressFromBip32Path path maxBufferLen).1 = true
  | .address key => c.reqType = .confirmAddress ∧ c.rawPublicKey = key

end

section
variable {e : Event} {w : List Observation} {h : History}

theorem untouched_iff : Untouched ((e, w) :: h) = true ↔
    (∃ review c, .review review c ∈ w) ∨ (e.opens = none ∧ Untouched h = true) := by
  have hreview : w.any Observation.isReview = true ↔ ∃ review c, .review review c ∈ w := by
    rw [List.any_eq_true]
    constructor
    · rintro ⟨o, ho, hreview⟩
      cases o with
      | review r c => exact ⟨r, c, ho⟩
      | _ => cases hreview
    · rintro ⟨r, c, ho⟩
      exact ⟨_, ho, rfl⟩
  rw [Untouched, Bool.or_eq_true, Bool.and_eq_true, Option.isNone_iff_eq_none, hreview]

theorem Context.storeMsg_msgHash {cfg : Config} {c : Context} {bs : List UInt8}
    (hfits : c.rawMsgLen cfg + bs.length ≤ maxMessageLen) : (c.storeMsg cfg bs).msgHash cfg = c.msgHash cfg := by
  rw [Context.storeMsg, Context.write, Context.msgHash, Config.msgHashPos,
    (Memory.write_agreeOff _ _ _).read_eq (.inr (by rw [Digest.length_bytesLe])), Context.write,
    (Memory.write_agreeOff _ _ _).read_eq (.inr (by omega))]
  rfl

end

section
variable [CryptoSdk] [FormatSdk] {cfg : Config} {c c' : Context} {review : Review}

theorem Pending.reqType_eq (hp : Pending cfg c review) : c.reqType = review.reqType := by
  cases review <;> exact hp.1

/-- A chunk of a transaction that leaves the digest and the path alone. -/
theorem Pending.storeTx {bs : List UInt8} (hp : Pending cfg c review) (htx : c.reqType = .confirmTransaction)
    (hfits : c.rawTxLen + bs.length ≤ cfg.maxTransactionLen) (hreq : c'.reqType = c.reqType)
    (hhash : c'.mHash = c.mHash) (hpath : c'.path = c.path) (hcount : c'.bip32PathLen = c.bip32PathLen)
    (hlen : c'.rawTxLen = (c.storeTx cfg bs).rawTxLen) (hbytes : c'.txBytes = (c.storeTx cfg bs).txBytes) :
    Pending cfg c' review := by
  cases review with
  | transaction raw path =>
    obtain ⟨hreq', hdigest, hpath', hcount', n, hn, hdecl⟩ := hp
    refine ⟨hreq.trans hreq', hhash ▸ hdigest, hpath.trans hpath', hcount ▸ hcount', n, ?_, ?_⟩
    · rw [hlen, Context.storeTx_rawTxLen hfits]
      exact Nat.le_add_right_of_le hn
    · rw [hbytes, Context.storeTx_txBytes hfits]
      exact hdecl.mono (List.prefix_append _ _)
  | _ => cases htx.symm.trans hp.reqType_eq

/-- A chunk of a message that leaves the digest and the path alone. -/
theorem Pending.storeMsg (hp : Pending cfg c review) (hmsg : c.reqType = .confirmMessage)
    (hreq : c'.reqType = c.reqType) (hhash : c'.msgHash cfg = c.msgHash cfg) (hpath : c'.path = c.path)
    (hcount : c'.bip32PathLen = c.bip32PathLen) : Pending cfg c' review := by
  cases review with
  | message msg path =>
    obtain ⟨hreq', hdigest, hpath', hcount', hsigner⟩ := hp
    exact ⟨hreq.trans hreq', hhash ▸ hdigest, hpath.trans hpath', hcount ▸ hcount', hsigner⟩
  | _ => cases hmsg.symm.trans hp.reqType_eq

/-- While the review of a transaction is pending no further chunk completes one. -/
theorem Pending.not_parsed [BufferSdk] {bs : List UInt8} {status : ParserStatus} {t : ParserState}
    (hp : Pending cfg c review) (htx : c.reqType = .confirmTransaction) (hbs : bs ≠ [])
    (hfits : c.rawTxLen + bs.length ≤ cfg.maxTransactionLen)
    (hparse : (transactionDeserialize cfg).run ⟨.ofBytes (c.storeTx cfg bs).txBytes, c.transaction⟩ =
      .ok (status, t)) : status ≠ .ok ∧ status ≠ .txNotDefined := by
  rcases transactionDeserialize_cases hparse with ⟨hok, hundefined, -⟩ | ⟨hdecl, -⟩
  · exact ⟨hok, hundefined⟩
  · have hbytes : (c.storeTx cfg bs).txBytes = c.txBytes ++ bs := Context.storeTx_txBytes hfits
    have hcount : (c.storeTx cfg bs).txBytes.length = c.rawTxLen + bs.length := by
      rw [hbytes, List.length_append, Context.txBytes, Memory.length_read]
    have hpos := List.length_pos_iff.mpr hbs
    cases review with
    | transaction raw path =>
      obtain ⟨-, -, -, -, n, hn, hdecl'⟩ := hp
      have hunique := (hdecl'.mono (hbytes ▸ List.prefix_append c.txBytes bs)).unique hdecl
      omega
    | _ => cases htx.symm.trans hp.reqType_eq

/-- While the review of a message is pending a further last chunk draws another one. -/
theorem Pending.drawable [FormatSdk.StandardHex] {bs : List UInt8} (hp : Pending cfg c review)
    (hmsg : c.reqType = .confirmMessage) (hne : bs ≠ []) (hlen : bs.length ≤ maxMessageLen) :
    MessageDrawable cfg bs c.path := by
  cases review with
  | message msg path =>
    obtain ⟨-, -, hpath, -, hsigner⟩ := hp
    constructor
    · rw [hpath]
      exact hsigner
    · have hmax : maxMessageLen = 1024 := rfl
      have hsize : cfg.numPairs * maxBufferLen = (cfg.parametersMaxNum + 2) * 67 := rfl
      have hbuffer : maxBufferLen = 67 := rfl
      have hparams := cfg.target_cases
      rw [makeMessageVisible_eq hne (by omega) (by omega)]
  | _ => cases hmsg.symm.trans hp.reqType_eq

variable [BufferSdk] {screen screen' : Option Review} {e : Event} {w : List Observation}
  {h : History}

theorem Effect.pending [FormatSdk.StandardHex] [CryptoSdk.Documented]
    (hstep : Effect cfg c screen e w c' screen')
    (hp : Untouched h = true → ∀ review, screen = some review → Pending cfg c review)
    (hu : Untouched ((e, w) :: h) = true) (hscreen : screen' = some review) : Pending cfg c' review := by
  rw [untouched_iff] at hu
  cases hstep with
  | keep hopens hans =>
    refine hp (hu.resolve_left ?_).2 review hscreen
    rcases hans with rfl | ⟨data, sw, rfl⟩ <;> simp
  | pathRefused hopens | opened hopens => simp [hopens] at hu
  | pubkey hopens hreq _ _ _ _ hans =>
    rcases hans with ⟨data, sw, rfl, -⟩ | hb
    · simp [hopens] at hu
    · cases hb with
      | failed => simp [hopens] at hu
      | drawn =>
        cases hscreen
        exact ⟨hreq, rfl⟩
  | storedTx _ hreq hfits | txParsingFail _ hreq hfits =>
    have hkept := hp (hu.resolve_left (by simp)).2 review hscreen
    exact hkept.storeTx hreq hfits rfl rfl rfl rfl rfl rfl
  | txHashFail hchunk hreq hfits _ hparse hstatus =>
    have hkept := hp (hu.resolve_left (by simp)).2 review hscreen
    have hnot := hkept.not_parsed hreq (Event.data_ne_nil hchunk) hfits hparse
    exact absurd hstatus (not_or.mpr hnot)
  | txDisplay hchunk hreq hfits _ hparse hstatus hdigest hc' hlen hb =>
    cases hb with
    | failed =>
      have hkept := hp (hu.resolve_left (by simp)).2 review hscreen
      have hnot := hkept.not_parsed hreq (Event.data_ne_nil hchunk) hfits hparse
      exact absurd hstatus (not_or.mpr hnot)
    | drawn =>
      cases hscreen
      rcases transactionDeserialize_cases hparse with ⟨hok, hundefined, -⟩ | ⟨hdecl, -⟩
      · exact absurd hstatus (not_or.mpr ⟨hok, hundefined⟩)
      · rw [hc']
        exact ⟨hreq, hdigest, rfl, hlen, _, (Memory.length_read _ _ _).le, hdecl⟩
  | storedMsg _ hreq hfits | msgHashFail _ hreq hfits =>
    have hkept := hp (hu.resolve_left (by simp)).2 review hscreen
    exact hkept.storeMsg hreq rfl (Context.storeMsg_msgHash hfits) rfl rfl
  | @msgDisplay _ c' hash w screen' hchunk hreq hfits _ hdigest hc' hlen hb hdrawn =>
    obtain ⟨hbytes, hhash⟩ := Context.hashedMsg_spec hfits hdigest hc'
    cases hb with
    | failed =>
      have hkept := hp (hu.resolve_left (by simp)).2 review hscreen
      have hdrawable : MessageDrawable cfg (c'.msgBytes cfg) c.path := hkept.drawable hreq ?_ ?_
      · simpa using hdrawn.mpr hdrawable
      · rw [hbytes]
        simp [Event.data_ne_nil hchunk]
      · rw [hbytes, List.length_append, Context.msgBytes, Memory.length_read]
        exact hfits
    | drawn =>
      cases hscreen
      obtain ⟨hsigner, -⟩ := hdrawn.mp (by simp)
      have hpath : c'.path = c.path ∧ c'.bip32PathLen = c.bip32PathLen ∧ c'.reqType = c.reqType := by
        rw [hc']
        exact ⟨rfl, rfl, rfl⟩
      obtain ⟨hpath, hcount, hreq'⟩ := hpath
      exact ⟨hreq'.trans hreq, hhash, hpath, hcount ▸ hlen, hsigner⟩
  | rejected | approvedAddress | signatureFail | signedTx | signedMsg => cases hscreen

omit [FormatSdk] [BufferSdk] in
theorem cryptoSign_ensures [CryptoSdk.Documented] {s : App} {digest : List UInt8}
    (hlen : s.context.bip32PathLen.toNat ≤ maxBip32Path) :
    Ensures (cryptoSign digest) s fun sig _ => ∀ r, sig = some r → r.der.length ≤ maxSignatureLen := by
  simp only [cryptoSign, getContext, observe, getPath, ensures_bind, ensures_get, ensures_modify,
    ensures_pure, ensures_ite, hlen, not_true_eq_false, false_imp_iff, and_true, true_imp_iff]
  cases hsign : bip32DeriveEcdsaSignHash256 s.context.path digest with
  | error code => exact ensures_pure.mpr fun r hr => by cases hr
  | ok sig =>
    have hder := CryptoSdk.Documented.der_length hsign
    refine ensures_ite.mpr ⟨fun h => absurd hder (Nat.not_le.mpr h), fun _ => ensures_pure.mpr ?_⟩
    intro r hr
    cases hr
    exact hder

omit [BufferSdk] in
/-- The approval of a pending review does not fault. -/
theorem Pending.reviewChoice_ensures [CryptoSdk.Documented] {s : App} (hp : Pending cfg s.context review)
    (hscreen : s.screen = some review) : Ensures (reviewChoice cfg true) s fun _ _ => True := by
  rw [reviewChoice, ensures_bind, ensures_get, hscreen]
  cases review with
  | transaction raw path =>
    refine ensures_bind.mpr (Ensures.mono (P := fun _ _ => True) ?_ fun _ _ _ => ensures_modify.mpr trivial)
    simp only [validateTransaction, if_true, setState, modifyContext, getContext, ensures_bind, ensures_modify,
      ensures_get, ensures_pure]
    refine Ensures.mono (cryptoSign_ensures (by exact hp.2.2.2.1)) fun sig t hder => ?_
    cases sig with
    | none => simp [ioSendSw, observe]
    | some sig => simp [helperTxSendResponseSig, getContext, ioSendResponse, observe]
  | message msg path =>
    refine ensures_bind.mpr (Ensures.mono (P := fun _ _ => True) ?_ fun _ _ _ => ensures_modify.mpr trivial)
    simp only [validatePersonalMsg, if_true, setState, modifyContext, getContext, ensures_bind, ensures_modify,
      ensures_get, ensures_pure]
    refine Ensures.mono (cryptoSign_ensures (by exact hp.2.2.2.1)) fun sig t hder => ?_
    cases sig with
    | none => simp [ioSendSw, observe]
    | some sig =>
      have hroom : cfg.msgSignaturePos + maxSignatureLen + 2 ≤ cfg.maxTransactionLen := by
        have hpos : cfg.msgSignaturePos = 1024 + cfg.sizeBytes + 32 := rfl
        have hsize : cfg.sizeBytes ≤ 8 := by
          unfold Config.sizeBytes
          split <;> decide
        have hmax : maxSignatureLen = 72 := rfl
        have := cfg.target_cases
        omega
      have hder := hder sig rfl
      have hfits : ¬ cfg.maxTransactionLen < cfg.msgSignaturePos + sig.der.length := by omega
      have hfits' : ¬ cfg.maxTransactionLen < cfg.msgSignaturePos + maxSignatureLen + 2 := by omega
      simp [helperPersonalMsgSendResponseSig, writeRaw, modifyContext, getContext, ioSendResponse, observe,
        hfits, hfits']
  | address key =>
    simp [validatePubkey, helperSendResponsePubkey, getContext, ioSendResponse, observe]

theorem Pending.released (hp : Pending cfg c review) (hscreen : screen = some review)
    (hstep : Effect cfg c screen (.choice true) w c' screen') : Released review w := by
  cases hstep with
  | keep _ _ _ hchoice =>
    rw [hchoice true rfl] at hscreen
    cases hscreen
  | approvedAddress hscreen' =>
    rw [hscreen] at hscreen'
    cases hscreen'
    exact ⟨_, by rw [hp.2]⟩
  | signatureFail hscreen' hdigest _ hsign =>
    rw [hscreen] at hscreen'
    cases hscreen'
    rcases hdigest with ⟨raw, path, rfl, rfl⟩ | ⟨msg, path, rfl, rfl⟩
    · obtain ⟨-, hdigest, rfl, -⟩ := hp
      exact ⟨_, { c with state := .approved }, hdigest, rfl, by rw [signatureAnswer, hsign]⟩
    · obtain ⟨-, hdigest, rfl, -⟩ := hp
      exact ⟨_, { c with state := .approved }, hdigest, rfl, by rw [signatureAnswer, hsign]⟩
  | signedTx hscreen' _ hsign | signedMsg hscreen' _ hsign =>
    rw [hscreen] at hscreen'
    cases hscreen'
    obtain ⟨-, hdigest, rfl, -⟩ := hp
    exact ⟨_, { c with state := .approved }, hdigest, rfl, by rw [signatureAnswer, hsign]⟩
  | pathRefused hopens | opened hopens | pubkey hopens => cases hopens
  | storedTx hchunk | txParsingFail hchunk | txHashFail hchunk | txDisplay hchunk | storedMsg hchunk
  | msgHashFail hchunk | msgDisplay hchunk => cases hchunk

/-- The approval of a transaction signs the digest in the context. -/
theorem Effect.sign_mem {raw : List UInt8} {path : List UInt32} (hscreen : screen = some (.transaction raw path))
    (hstep : Effect cfg c screen (.choice true) w c' screen') : ∃ c₀, .sign c₀ c.mHash ∈ w := by
  cases hstep with
  | keep _ _ _ hchoice =>
    rw [hchoice true rfl] at hscreen
    cases hscreen
  | approvedAddress hscreen' | signedMsg hscreen' =>
    rw [hscreen] at hscreen'
    cases hscreen'
  | signatureFail hscreen' hdigest =>
    rw [hscreen] at hscreen'
    cases hscreen'
    rcases hdigest with ⟨raw, path, -, rfl⟩ | ⟨msg, path, hreview, -⟩
    · exact ⟨_, List.mem_cons_self⟩
    · cases hreview
  | signedTx => exact ⟨_, List.mem_cons_self⟩
  | pathRefused hopens | opened hopens | pubkey hopens => cases hopens
  | storedTx hchunk | txParsingFail hchunk | txHashFail hchunk | txDisplay hchunk | storedMsg hchunk
  | msgHashFail hchunk | msgDisplay hchunk => cases hchunk

variable [CommandSdk] [FormatSdk.StandardHex] [CryptoSdk.Documented]

/-- In every run the approval of a review releases what the review was built from, if no command with
a path was handled since it came on the screen. -/
theorem approval_released (cfg : Config) (beyond : Context → Nat → Except Fault TxParameter)
    {h : History} {s : App} (hrun : (app cfg beyond).Run Machine.anyStep h s) {review : Review}
    (hscreen : s.screen = some review) (huntouched : Untouched h = true) :
    ∃ w t, (app cfg beyond).step (.choice true) s = some (w, t) ∧ Released review w := by
  have hpending : Untouched h = true → ∀ review, s.screen = some review → Pending cfg s.context review := by
    refine hrun.induct
      (I := fun h s => Untouched h = true → ∀ review, s.screen = some review → Pending cfg s.context review) ?_ ?_
    · intro hu
      cases hu
    · intro h s t e w _ hp _ hnext hu review hscreen
      exact (step_effect cfg beyond hnext).1.pending hp hu hscreen
  have hp := hpending huntouched review hscreen
  have hensures : Ensures (handle cfg beyond (.choice true)) { s with shown := [] } fun _ _ => True :=
    hp.reviewChoice_ensures (s := { s with shown := [] }) hscreen
  obtain ⟨a, t, hnext, -⟩ := hensures
  have hstep : (app cfg beyond).step (.choice true) s = some (t.shown, t) := by
    simp only [app]
    rw [hnext]
  exact ⟨t.shown, t, hstep, hp.released hscreen (step_effect cfg beyond hstep).1⟩

end

theorem approval_released_sample :
    let := CryptoSdk.reference
    ∃ h s, referenceApp.Run Machine.anyStep h s ∧ ∃ review, s.screen = some review ∧
      ∃ w t, referenceApp.step (.choice true) s = some (w, t) ∧ Released review w := by
  let := BufferSdk.reference
  let := CommandSdk.reference
  let := CryptoSdk.reference
  let := FormatSdk.reference
  have := CryptoSdk.reference_documented
  have := FormatSdk.reference_standardHex
  obtain ⟨h, s, hrun, hscreen, huntouched⟩ := Machine.Run.exists_of_exec (M := referenceApp)
    (C := Machine.anyStep) (P := fun h s => s.screen.isSome ∧ Untouched h = true)
    [.command 2 0 0x80 samplePath, .command 2 1 0 sampleTransfer.encode, .command 2 1 0 [0]]
    (by decide +kernel)
  obtain ⟨review, hreview⟩ := Option.isSome_iff_exists.mp hscreen
  exact ⟨h, s, hrun, review, hreview, approval_released ⟨.nano, .w32⟩ _ hrun hreview huntouched⟩

/-- A first chunk clears the digest of the transaction on the screen, and zeros are signed. -/
theorem clearedDigest_released :
    let := CryptoSdk.reference
    ∃ h s, referenceApp.Run Machine.anyStep h s ∧ ∃ review, s.screen = some review ∧
      ∃ w t, referenceApp.step (.choice true) s = some (w, t) ∧ ¬ Released review w := by
  let := BufferSdk.reference
  let := CommandSdk.reference
  let := CryptoSdk.reference
  let := FormatSdk.reference
  obtain ⟨h, s, w, t, hrun, hnext, hscreen, hhash⟩ := Machine.Run.exists_step_of_exec (M := referenceApp)
    (C := Machine.anyStep) (P := fun _ s _ => s.screen =
        some (.transaction sampleTransfer.encode [0x8000002c, 0x80000400, 0x80000000, 0, 0]) ∧
      s.context.mHash = List.replicate 32 0)
    [.command 2 0 0x80 samplePath, .command 2 1 0 sampleTransfer.encode, .command 2 0 0x80 samplePath]
    (.choice true) (by decide +kernel)
  have hdigest : transactionDigest sampleTransfer.encode ≠ some (List.replicate 32 0) := by decide +kernel
  refine ⟨h, s, hrun, _, hscreen, w, t, hnext, ?_⟩
  intro hreleased
  obtain ⟨c₀, hmem⟩ := (step_effect ⟨.nano, .w32⟩ _ hnext).1.sign_mem hscreen
  obtain ⟨digest, c, hraw, -, rfl⟩ := hreleased
  rw [hhash] at hmem
  simp only [List.mem_cons, List.not_mem_nil, or_false] at hmem
  rcases hmem with hsign | hanswer
  · cases hsign
    exact hdigest hraw
  · cases hanswer

end AppOnt
