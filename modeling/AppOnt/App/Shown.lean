import AppOnt.App.Fresh
import AppOnt.App.Protocol
import AppOnt.Ui.Content

/-!
# What is seen in a review

In every run, whatever came before, the review of a transaction is drawn from the
bytes that its digest is of: a call of the table with the rows that say it, or, while
blind signing is allowed, an unknown call with the address of its contract.
-/
namespace AppOnt

open CryptoSdk Prog Machine

section
variable [CryptoSdk] [FormatSdk]

/-- The review of the transaction `raw` was drawn into the display, blindly only where that is
allowed and the call unknown. -/
def TransactionDrawn (cfg : Config) (beyond : Context → Nat → Except Fault TxParameter)
    (blindSignedAllowed : Bool) (raw : List UInt8) (c : Context) (d : Display) : Prop :=
  ∃ (s : Display) (isBlind : Bool), (displayTransaction cfg raw c.transaction (beyond c) c.path isBlind).run s =
      .ok (.review, d) ∧
    if isBlind then blindSignedAllowed = true ∧ Unregistered cfg raw else Accepted cfg raw

/-- No transaction is reviewed. -/
def Quiet (w : List Observation) : Prop := ∀ raw path c, .review (.transaction raw path) c ∉ w

/-- The transactions that are reviewed are drawn. -/
def Admits (cfg : Config) (beyond : Context → Nat → Except Fault TxParameter) (blindSignedAllowed : Bool)
    (s : App) : Prop :=
  ∀ raw path c, .review (.transaction raw path) c ∈ s.shown →
    TransactionDrawn cfg beyond blindSignedAllowed raw c s.display

variable {cfg : Config} {beyond : Context → Nat → Except Fault TxParameter} {blindSignedAllowed : Bool}
  {s : App}

theorem Quiet.admits (h : Quiet s.shown) : Admits cfg beyond blindSignedAllowed s := by
  intro raw path c hmem
  exact absurd hmem (h raw path c)

omit [CryptoSdk] [FormatSdk] in
theorem Quiet.append {w : List Observation} (h : Quiet w) {o : Observation}
    (ho : ∀ raw path c, o ≠ .review (.transaction raw path) c) : Quiet (w ++ [o]) := by
  intro raw path c hmem
  rcases List.mem_append.mp hmem with hmem | hmem
  · exact h raw path c hmem
  · exact ho raw path c (List.mem_singleton.mp hmem).symm

theorem ioSendSw_admits (h : Quiet s.shown) {sw : StatusWord} :
    Yields (ioSendSw sw) s fun _ t => Admits cfg beyond blindSignedAllowed t :=
  yields_ioSendSw.mpr (h.append (by simp)).admits

theorem ioSendResponse_admits (h : Quiet s.shown) {data : List UInt8} :
    Yields (ioSendResponse data) s fun _ t => Admits cfg beyond blindSignedAllowed t :=
  yields_ioSendResponse.mpr (h.append (by simp)).admits

theorem showReview_admits (h : Quiet s.shown) {x : DisplayM Drawn} {review : Review}
    (hx : ∀ raw path d, review = .transaction raw path → x.run s.display = .ok (.review, d) →
      TransactionDrawn cfg beyond blindSignedAllowed raw s.context d) :
    Yields (showReview x review) s fun _ t => Admits cfg beyond blindSignedAllowed t := by
  rw [showReview, yields_bind, yields_within]
  intro drawn d hrun
  cases drawn with
  | sw code => exact yields_ioSendSw.mpr (h.append (by simp)).admits
  | review =>
    simp only [yields_bind, yields_getContext, yields_observe, yields_modify]
    intro raw path c hmem
    rcases List.mem_append.mp hmem with hmem | hmem
    · exact absurd hmem (h raw path c)
    · cases List.mem_singleton.mp hmem
      exact hx raw path d rfl hrun

theorem uiDisplay_admits (h : Quiet s.shown) {reqType : RequestType} {state : AppState} {draw : Context → AppM Unit}
    (hdraw : Yields (draw s.context) s fun _ t => Admits cfg beyond blindSignedAllowed t) :
    Yields (uiDisplay reqType state draw) s fun _ t => Admits cfg beyond blindSignedAllowed t := by
  rw [uiDisplay, yields_bind, yields_getContext]
  refine yields_ite.mpr ⟨fun _ => ?_, fun _ => hdraw⟩
  rw [yields_bind, yields_setState]
  apply ioSendSw_admits
  exact h

theorem uiDisplayTransaction_admits (h : Quiet s.shown) {isBlind : Bool}
    (hblind : if isBlind then blindSignedAllowed = true ∧ Unregistered cfg s.context.txBytes
      else Accepted cfg s.context.txBytes) :
    Yields (uiDisplayTransaction cfg beyond isBlind) s fun _ t => Admits cfg beyond blindSignedAllowed t := by
  refine uiDisplay_admits h ?_
  simp only [yields_bind, yields_observe, yields_getPath]
  intro _
  refine showReview_admits (h.append (by simp)) fun raw path d hreview hrun => ?_
  cases hreview
  exact ⟨_, isBlind, hrun, hblind⟩

theorem handlerHashTxAndDisplayTx_admits (h : Quiet s.shown) {isBlind : Bool}
    (hblind : if isBlind then blindSignedAllowed = true ∧ Unregistered cfg s.context.txBytes
      else Accepted cfg s.context.txBytes) :
    Yields (handlerHashTxAndDisplayTx cfg beyond isBlind) s fun _ t =>
      Admits cfg beyond blindSignedAllowed t := by
  simp only [handlerHashTxAndDisplayTx, yields_bind, yields_getContext]
  cases cxSha256Hash s.context.txBytes with
  | none => exact ioSendSw_admits h
  | some hash =>
    simp only [yields_bind, yields_modifyContext]
    cases hdigest : cxSha256Hash hash >>= cxSha256Hash with
    | none =>
      apply ioSendSw_admits
      exact h
    | some mHash =>
      simp only [yields_bind, yields_modifyContext]
      apply uiDisplayTransaction_admits
      · exact h
      · exact hblind

theorem uiDisplayMessage_admits (h : Quiet s.shown) :
    Yields (uiDisplayMessage cfg) s fun _ t => Admits cfg beyond blindSignedAllowed t := by
  refine uiDisplay_admits h ?_
  simp only [yields_bind, yields_observe, yields_getPath]
  intro _
  apply showReview_admits (h.append (by simp))
  simp

theorem finishMessage_admits (h : Quiet s.shown) :
    Yields (finishMessage cfg) s fun _ t => Admits cfg beyond blindSignedAllowed t := by
  rw [finishMessage, yields_bind, yields_setState, yields_bind, yields_getContext]
  split
  · apply ioSendSw_admits
    exact h
  · simp only [yields_bind, yields_writeRaw]
    intro _
    apply uiDisplayMessage_admits
    exact h

theorem dispatchSign_admits (h : Quiet s.shown) {cmd : Command} {handler : Buffer → UInt8 → Bool → AppM Unit}
    (hhandler : cmd.data ≠ [] → ∀ chunk more, Yields (handler (.ofBytes cmd.data) chunk more) s fun _ t =>
      Admits cfg beyond blindSignedAllowed t) :
    Yields (dispatchSign cmd handler) s fun _ t => Admits cfg beyond blindSignedAllowed t := by
  refine yields_ite.mpr ⟨fun _ => ioSendSw_admits h, fun _ => ?_⟩
  exact yields_ite.mpr ⟨fun _ => ioSendSw_admits h, fun hdata => hhandler hdata _ _⟩

variable [BufferSdk]

/-- The verdict of the parser decides, and for an unknown call the setting. -/
theorem finishTx_admits (h : Quiet s.shown) :
    Yields (finishTx cfg beyond) s fun _ t => Admits cfg beyond s.blindSignedAllowed t := by
  rw [finishTx, yields_bind, yields_get, yields_bind, yields_ofExcept]
  rintro ⟨status, t⟩ hparse
  simp only [yields_bind, yields_modifyContext]
  refine yields_ite.mpr ⟨fun _ => ?_, fun hok => ?_⟩
  · apply ioSendSw_admits
    exact h
  apply handlerHashTxAndDisplayTx_admits
  · exact h
  have hok : status ≠ .ok → (decide (status = .txNotDefined) && s.blindSignedAllowed) = true := by
    intro hne
    by_contra hnot
    exact hok ⟨hne, Bool.eq_false_iff.mpr hnot⟩
  split
  · rename_i hblind
    obtain ⟨hundefined, hallowed⟩ := Bool.and_eq_true_iff.mp hblind
    exact ⟨hallowed, (txNotDefined_iff_unregistered hparse).mp (of_decide_eq_true hundefined)⟩
  · rename_i hblind
    exact (ok_iff_accepted hparse).mp (by_contra fun hne => hblind (hok hne))

/-- A choice shows no review. -/
theorem Effect.quiet_of_choice {c c' : Context} {screen screen' : Option Review} {confirm : Bool}
    {w : List Observation} (h : Effect cfg c screen (.choice confirm) w c' screen') : Quiet w := by
  intro raw path c₀ hmem
  cases h with
  | keep _ hans => rcases hans with rfl | ⟨data, sw, rfl⟩ <;> simp at hmem
  | pathRefused hopens | opened hopens | pubkey hopens => cases hopens
  | storedTx hchunk | txParsingFail hchunk | txHashFail hchunk | txDisplay hchunk | storedMsg hchunk
    | msgHashFail hchunk | msgDisplay hchunk => cases hchunk
  | _ => simp at hmem

variable [CommandSdk]

theorem withPath_admits (h : Quiet s.shown) {reqType : RequestType} {data : List UInt8} {next : AppM Unit}
    (hdata : data ≠ []) (hnext : ∀ c, Yields next { s with context := c } fun _ t =>
      Admits cfg beyond blindSignedAllowed t) :
    Yields (withPath reqType (.ofBytes data) next) s fun _ t => Admits cfg beyond blindSignedAllowed t := by
  refine withPath_yields hdata (fun path len sw _ _ _ => ?_) fun path path' len _ _ _ _ => hnext _
  apply Quiet.admits
  exact h.append (by simp)

theorem handlerGetPublicKey_admits (h : Quiet s.shown) {data : List UInt8} (hdata : data ≠ []) {display : Bool} :
    Yields (handlerGetPublicKey cfg (.ofBytes data) display) s fun _ t =>
      Admits cfg beyond blindSignedAllowed t := by
  refine withPath_admits h hdata fun c => ?_
  simp only [yields_bind, yields_getPath]
  intro _
  split
  · apply ioSendSw_admits
    exact h
  · simp only [yields_bind, yields_writeRaw]
    intro _ _
    refine yields_ite.mpr ⟨fun _ => ?_, fun _ => ?_⟩
    · apply uiDisplay_admits
      · exact h
      · apply showReview_admits
        · exact h
        · simp
    · rw [helperSendResponsePubkey, yields_bind, yields_getContext]
      apply ioSendResponse_admits
      exact h

theorem handlerSignTx_admits (h : Quiet s.shown) {data : List UInt8} (hdata : data ≠ []) {chunk : UInt8}
    {more : Bool} : Yields (handlerSignTx cfg beyond (.ofBytes data) chunk more) s fun _ t =>
      Admits cfg beyond s.blindSignedAllowed t := by
  rw [handlerSignTx]
  refine yields_ite.mpr ⟨fun _ => withPath_admits h hdata fun c => ?_, fun _ => ?_⟩
  · apply ioSendSw_admits
    exact h
  rw [yields_bind, yields_getContext]
  refine yields_ite.mpr ⟨fun _ => ioSendSw_admits h, fun _ => ?_⟩
  refine yields_ite.mpr ⟨fun _ => ioSendSw_admits h, fun _ => ?_⟩
  simp only [bufferMove_ofBytes, yields_bind, yields_writeRaw, yields_modifyContext]
  intro _
  refine yields_ite.mpr ⟨fun _ => ?_, fun _ => ?_⟩
  · apply ioSendSw_admits
    exact h
  · exact finishTx_admits (s := { s with context := _ }) h

theorem handlerSignMessage_admits (h : Quiet s.shown) {data : List UInt8} (hdata : data ≠ []) {chunk : UInt8}
    {more : Bool} : Yields (handlerSignMessage cfg (.ofBytes data) chunk more) s fun _ t =>
      Admits cfg beyond blindSignedAllowed t := by
  rw [handlerSignMessage]
  refine yields_ite.mpr ⟨fun _ => withPath_admits h hdata fun c => ?_, fun _ => ?_⟩
  · apply ioSendSw_admits
    exact h
  rw [yields_bind, yields_getContext]
  refine yields_ite.mpr ⟨fun _ => ioSendSw_admits h, fun _ => ?_⟩
  refine yields_ite.mpr ⟨fun _ => ioSendSw_admits h, fun _ => ?_⟩
  simp only [bufferMove_ofBytes, yields_bind, yields_writeRaw, setRawMsgLen, yields_modifyContext]
  intro _
  refine yields_ite.mpr ⟨fun _ => ?_, fun _ => ?_⟩
  · apply ioSendSw_admits
    exact h
  · apply finishMessage_admits
    exact h

theorem apduDispatcher_admits (h : Quiet s.shown) (cmd : Command) :
    Yields (apduDispatcher cfg beyond cmd) s fun _ t => Admits cfg beyond s.blindSignedAllowed t := by
  rw [apduDispatcher]
  refine yields_ite.mpr ⟨fun _ => ioSendSw_admits h, fun _ => ?_⟩
  cases Ins.ofByte cmd.ins with
  | none => exact ioSendSw_admits h
  | some ins =>
    cases ins with
    | getVersion | getAppName =>
      exact yields_ite.mpr ⟨fun _ => ioSendSw_admits h, fun _ => ioSendResponse_admits h⟩
    | getPublicKey =>
      refine yields_ite.mpr ⟨fun _ => ioSendSw_admits h, fun _ => ?_⟩
      exact yields_ite.mpr ⟨fun _ => ioSendSw_admits h, fun hdata => handlerGetPublicKey_admits h hdata⟩
    | signTx => exact dispatchSign_admits h fun hdata _ _ => handlerSignTx_admits h hdata
    | signMessage => exact dispatchSign_admits h fun hdata _ _ => handlerSignMessage_admits h hdata

/-- Whatever the event, a transaction that is reviewed is drawn. -/
theorem step_admits {e : Event} {w : List Observation} {t : App}
    (hnext : (app cfg beyond).step e s = some (w, t)) :
    t.shown = w ∧ Admits cfg beyond s.blindSignedAllowed t := by
  have hquiet : Quiet [] := fun _ _ _ => List.not_mem_nil
  have hyields : Yields (handle cfg beyond e) { s with shown := [] } fun _ t =>
      Admits cfg beyond s.blindSignedAllowed t := by
    cases e with
    | apdu cmd => exact apduDispatcher_admits (s := { s with shown := [] }) hquiet cmd
    | badLength => exact ioSendSw_admits (s := { s with shown := [] }) hquiet
    | choice confirm =>
      exact (reviewChoice_yields cfg confirm rfl).mono fun _ t heffect => heffect.quiet_of_choice.admits
    | blindSigning allowed => exact yields_modify.mpr (Quiet.admits hquiet)
  simp only [app] at hnext
  split at hnext
  · rename_i u hrun
    cases hnext
    exact ⟨rfl, hyields _ _ hrun⟩
  · cases hnext

omit [CommandSdk] in
/-- What is known when a transaction is reviewed. -/
theorem Effect.review_transaction {c c' c₀ : Context} {screen screen' : Option Review} {e : Event}
    {w : List Observation} (h : Effect cfg c screen e w c' screen') {raw : List UInt8} {path : List UInt32}
    (hmem : .review (.transaction raw path) c₀ ∈ w) :
    screen' = some (.transaction raw path) ∧ c₀.txBytes = raw ∧ c₀.path = path ∧
      transactionDigest raw = some c₀.mHash ∧ c₀.reqType = .confirmTransaction ∧ .display c₀ ∈ w := by
  cases h with
  | keep _ hans => rcases hans with rfl | ⟨data, sw, rfl⟩ <;> simp at hmem
  | pubkey _ _ _ _ _ _ hans =>
    rcases hans with ⟨data, sw, rfl, -⟩ | hb
    · simp at hmem
    · cases hb <;> simp at hmem
  | txDisplay _ hreq _ _ _ _ hdigest hc' _ hb =>
    cases hb with
    | failed => simp at hmem
    | drawn =>
      obtain ⟨⟨rfl, rfl⟩, rfl⟩ : (raw = c'.txBytes ∧ path = c.path) ∧ c₀ = c' := by simpa using hmem
      subst hc'
      exact ⟨rfl, rfl, rfl, hdigest, hreq, List.mem_cons_self⟩
  | msgDisplay _ _ _ _ _ _ _ hb => cases hb <;> simp at hmem
  | _ => simp at hmem

omit [CommandSdk] in
/-- A review that was drawn of a fresh transaction says which call the bytes are of. -/
theorem TransactionDrawn.tells {rest : Nat → TxParameter} {raw : List UInt8} {c : Context} {d : Display}
    (hrest : beyond c = fun j => .ok (rest j)) (hfresh : c.FreshlyParsed cfg) (hraw : c.txBytes = raw)
    (h : TransactionDrawn cfg beyond blindSignedAllowed raw c d) :
    (∃ x : Signable, x.Admitted cfg ∧ x.encode = raw ∧ ∃ display,
      displayOf cfg x.call.vm.contractType x.call.name = some display ∧
        d.TellsReview cfg c.path x.header (x.call.reviewRows display.configs cfg)) ∨
    blindSignedAllowed = true ∧ ∃ x : Foreign, x.Admitted cfg ∧ x.encode = raw ∧
      ∃ text, FormatSdk.formatHex x.contract.1 maxBufferLen = some text ∧
        d.TellsReview cfg c.path x.header (blindRows text) := by
  obtain ⟨status, t, hstatus, hparse, htx⟩ := hfresh.parse
  obtain ⟨s, isBlind, hrun, hif⟩ := h
  rw [hraw] at hparse
  rw [hrest, ← htx] at hrun
  cases isBlind with
  | false =>
    obtain rfl := (ok_iff_accepted hparse).mpr hif
    obtain ⟨x, hx⟩ := ((transactionDeserialize_returns cfg raw .zero).iff t).mp hparse
    obtain rfl := hx.encode_eq
    rw [hx.tx_eq] at hrun
    obtain ⟨display, hd⟩ := Option.isSome_iff_exists.mp
      (displayOf_isSome cfg x.call.vm.contractType x.call.registered x.call.method_mem)
    exact .inl ⟨x, hx.admitted, rfl, display, hd, displayTransaction_tells x hx.admitted hd hrun⟩
  | true =>
    obtain ⟨hallowed, hunregistered⟩ := hif
    obtain rfl := (txNotDefined_iff_unregistered hparse).mpr hunregistered
    exact .inr ⟨hallowed, displayTransaction_tells_blind hparse hrun⟩

/-- In every run, when a transaction is reviewed, the digest to be signed is that of the bytes that are
reviewed, and what is read on the screen is the call that they are of. An unknown call is reviewed only
where blind signing is allowed, by the address of its contract. -/
theorem reviews_tell (cfg : Config) (rest : Context → Nat → TxParameter) {h : History} {s : App}
    (hrun : (app cfg fun c j => .ok (rest c j)).Run anyStep h s) {e : Event} {w : List Observation} {t : App}
    (hnext : (app cfg fun c j => .ok (rest c j)).step e s = some (w, t)) {raw : List UInt8}
    {path : List UInt32} {c : Context} (hmem : .review (.transaction raw path) c ∈ w) :
    t.screen = some (.transaction raw path) ∧ transactionDigest raw = some c.mHash ∧
      ((∃ x : Signable, x.Admitted cfg ∧ x.encode = raw ∧ ∃ display,
        displayOf cfg x.call.vm.contractType x.call.name = some display ∧
          t.display.TellsReview cfg path x.header (x.call.reviewRows display.configs cfg)) ∨
      s.blindSignedAllowed = true ∧ ∃ x : Foreign, x.Admitted cfg ∧ x.encode = raw ∧
        ∃ text, FormatSdk.formatHex x.contract.1 maxBufferLen = some text ∧
          t.display.TellsReview cfg path x.header (blindRows text)) := by
  have heffect := (step_effect cfg _ hnext).1
  obtain ⟨hscreen, hraw, rfl, hdigest, hreq, hdisplay⟩ := heffect.review_transaction hmem
  have hfresh : c.FreshlyParsed cfg := (run_parseable hrun).display heffect hdisplay hreq
  obtain ⟨rfl, hadmits⟩ := step_admits hnext
  have hdrawn := hadmits raw c.path c hmem
  exact ⟨hscreen, hdigest, hdrawn.tells rfl hfresh hraw⟩

end

theorem reviews_tell_sample :
    let := BufferSdk.reference
    let := CommandSdk.reference
    let := CryptoSdk.reference
    let := FormatSdk.reference
    ∃ (h : History) (s t : App) (w : List Observation) (c : Context),
      (app ⟨.nano, .w32⟩ fun _ _ => .ok .zero).Run anyStep h s ∧
      (app ⟨.nano, .w32⟩ fun _ _ => .ok .zero).step (.command 2 1 0 (sampleTransfer.encode.drop 100)) s =
        some (w, t) ∧
      transactionDigest sampleTransfer.encode = some c.mHash ∧
      ∃ (x : Signable) (display : MethodDisplay), x.encode = sampleTransfer.encode ∧
        t.display.TellsReview ⟨.nano, .w32⟩ [0x8000002c, 0x80000400, 0x80000000, 0, 0] x.header
          (x.call.reviewRows display.configs ⟨.nano, .w32⟩) := by
  let := BufferSdk.reference
  let := CommandSdk.reference
  let := CryptoSdk.reference
  let := FormatSdk.reference
  obtain ⟨h, s, w, t, hrun, hnext, hreview, hallowed⟩ := Machine.Run.exists_step_of_exec
    (M := app ⟨.nano, .w32⟩ fun _ _ => .ok .zero) (C := anyStep)
    (P := fun _ s w => Visible.review (.transaction sampleTransfer.encode
      [0x8000002c, 0x80000400, 0x80000000, 0, 0]) ∈ visible w ∧ s.blindSignedAllowed = false)
    [.command 2 0 0x80 samplePath, .command 2 1 0x80 (sampleTransfer.encode.take 100)]
    (.command 2 1 0 (sampleTransfer.encode.drop 100)) (by decide +kernel)
  obtain ⟨o, hmem, hvisible⟩ := List.mem_filterMap.mp hreview
  cases o with
  | review review c =>
    cases hvisible
    obtain ⟨-, hdigest, htells⟩ := reviews_tell ⟨.nano, .w32⟩ (fun _ _ => .zero) hrun hnext hmem
    rcases htells with ⟨x, -, hx, display, -, htells⟩ | ⟨hblind, -⟩
    · exact ⟨h, s, t, w, c, hrun, hnext, hdigest, x, display, hx, htells⟩
    · rw [hallowed] at hblind
      cases hblind
  | _ => cases hvisible

end AppOnt
