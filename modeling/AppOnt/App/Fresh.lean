import AppOnt.App.Chunks
import AppOnt.App.Paths
import AppOnt.Transaction.Checked

/-!
# Fresh transactions

The stored transaction is cleared by a first chunk only, and every last chunk parses
into it what has been received. As long as no parse has got past the check of the
payload size, only the header was stored; after one did, no later parse of the
session does. So what is reviewed is what a parse into a cleared transaction gives.
-/
namespace AppOnt

open CryptoSdk Prog

/-- The call of the stored transaction is clear, or the bytes declare a length that was reached. -/
def Parseable (cfg : Config) (c : Context) : Prop :=
  c.reqType = .confirmTransaction →
    (c.transaction.contract = Transaction.zero.contract ∧ c.transaction.method = Transaction.zero.method) ∨
      ∃ n ≤ c.rawTxLen, DeclaresLength cfg c.txBytes n

/-- The stored transaction is the one that the stored bytes give in a cleared one; a parameter that
the parse of these bytes does not fill in is zero. -/
structure Context.FreshlyParsed [BufferSdk] (cfg : Config) (c : Context) : Prop where
  parse : ∃ status t, (status = .ok ∨ status = .txNotDefined) ∧
    (transactionDeserialize cfg).run ⟨.ofBytes c.txBytes, .zero⟩ = .ok (status, t) ∧ t.tx = c.transaction
  unfilled : ∀ k, (∀ tx status t,
      (transactionDeserialize cfg).run ⟨.ofBytes c.txBytes, tx⟩ = .ok (status, t) →
        t.tx.method.parameters k = tx.method.parameters k) →
    c.transaction.method.parameters k = .zero

theorem Event.data_ne_nil {e : Event} {reqType : RequestType} (hchunk : e.continues = some reqType) :
    e.data ≠ [] := by
  cases e with
  | apdu cmd =>
    intro hdata
    change cmd.data = [] at hdata
    simp [Event.continues, Command.handler, hdata] at hchunk
  | _ => cases hchunk

section
variable [BufferSdk] {cfg : Config} {c c' : Context}

omit [BufferSdk] in
/-- What leaves the stored transaction alone, and the bytes that a length is declared in. -/
theorem Parseable.frame (hp : Parseable cfg c) (hreq : c'.reqType = c.reqType)
    (hcontract : c'.transaction.contract = c.transaction.contract)
    (hmethod : c'.transaction.method = c.transaction.method) (hlen : c.rawTxLen ≤ c'.rawTxLen)
    (hbytes : ∀ n, DeclaresLength cfg c.txBytes n → DeclaresLength cfg c'.txBytes n) :
    Parseable cfg c' := by
  intro hc
  rw [hcontract, hmethod]
  rcases hp (hreq ▸ hc) with hclear | ⟨n, hn, hdecl⟩
  · exact .inl hclear
  · exact .inr ⟨n, hn.trans hlen, hbytes n hdecl⟩

/-- A last chunk. -/
theorem Parseable.parsed {bs : List UInt8} {status : ParserStatus} {t : ParserState} (hp : Parseable cfg c)
    (hfits : c.rawTxLen + bs.length ≤ cfg.maxTransactionLen)
    (hparse : (transactionDeserialize cfg).run ⟨.ofBytes (c.storeTx cfg bs).txBytes, c.transaction⟩ =
      .ok (status, t)) (hreq : c'.reqType = c.reqType) (htx : c'.transaction = t.tx)
    (hlen : c'.rawTxLen = (c.storeTx cfg bs).rawTxLen) (hbytes : c'.txBytes = (c.storeTx cfg bs).txBytes) :
    Parseable cfg c' := by
  have hlen' : c'.rawTxLen = c.rawTxLen + bs.length := by rw [hlen, Context.storeTx_rawTxLen hfits]
  have hbytes' : c'.txBytes = c.txBytes ++ bs := by rw [hbytes, Context.storeTx_txBytes hfits]
  rcases transactionDeserialize_cases hparse with ⟨-, -, hcontract, hmethod⟩ | ⟨hdecl, -⟩
  · refine hp.frame hreq (by rw [htx, hcontract]) (by rw [htx, hmethod]) (by omega) ?_
    intro n hn
    rw [hbytes']
    exact hn.mono (List.prefix_append _ _)
  · intro _
    refine .inr ⟨c'.rawTxLen, Nat.le_refl _, ?_⟩
    rw [← hbytes] at hdecl
    have hcount : c'.txBytes.length = c'.rawTxLen := Memory.length_read _ _ _
    rwa [hcount] at hdecl

/-- Where a last chunk makes a transaction, it is fresh. -/
theorem Parseable.fresh {bs : List UInt8} {status : ParserStatus} {t : ParserState} (hp : Parseable cfg c)
    (hreq : c.reqType = .confirmTransaction) (hbs : bs ≠ [])
    (hfits : c.rawTxLen + bs.length ≤ cfg.maxTransactionLen)
    (hparse : (transactionDeserialize cfg).run ⟨.ofBytes (c.storeTx cfg bs).txBytes, c.transaction⟩ =
      .ok (status, t)) (hstatus : status = .ok ∨ status = .txNotDefined)
    (htx : c'.transaction = t.tx) (hbytes : c'.txBytes = (c.storeTx cfg bs).txBytes) :
    c'.FreshlyParsed cfg := by
  rcases transactionDeserialize_cases hparse with ⟨hok, hundefined, -⟩ | ⟨hdecl, hsame⟩
  · exact absurd hstatus (by simp [hok, hundefined])
  · have hclear : c.transaction.contract = Transaction.zero.contract ∧
        c.transaction.method = Transaction.zero.method := by
      refine (hp hreq).resolve_right ?_
      rintro ⟨n, hn, hdecl'⟩
      have hbytes' : (c.storeTx cfg bs).txBytes = c.txBytes ++ bs := Context.storeTx_txBytes hfits
      have hcount : (c.storeTx cfg bs).txBytes.length = c.rawTxLen + bs.length := by
        rw [hbytes', List.length_append, Context.txBytes, Memory.length_read]
      have hlen := (hdecl'.mono (hbytes' ▸ List.prefix_append c.txBytes bs)).unique hdecl
      have := List.length_pos_iff.mpr hbs
      omega
    have hzero := hsame .zero hclear.1.symm hclear.2.symm
    rw [← hbytes] at hzero
    constructor
    · exact ⟨status, t, hstatus, hzero, htx.symm⟩
    · intro k hk
      rw [htx, hk _ _ _ hzero]
      rfl

omit [BufferSdk] in
theorem Context.write_take {k j : Nat} {bs : List UInt8} (hj : j ≤ k) :
    (c.write k bs).txBytes.take j = c.txBytes.take j := by
  rw [Context.txBytes, Context.txBytes, Memory.take_read, Memory.take_read]
  exact (Memory.write_agreeOff _ _ _).read_eq (.inl (by omega))

variable [CryptoSdk] [FormatSdk] {screen screen' : Option Review} {e : Event} {w : List Observation}

theorem Parseable.step (hstep : Effect cfg c screen e w c' screen') (hp : Parseable cfg c) :
    Parseable cfg c' := by
  cases hstep with
  | keep => exact hp
  | pathRefused | opened => exact fun _ => .inl ⟨rfl, rfl⟩
  | pubkey _ hreq =>
    intro hc
    rw [hreq] at hc
    cases hc
  | storedTx _ _ hfits =>
    have hlen := Context.storeTx_rawTxLen hfits
    refine hp.frame rfl rfl rfl (by omega) ?_
    intro n hn
    rw [Context.storeTx_txBytes hfits]
    exact hn.mono (List.prefix_append _ _)
  | txParsingFail _ _ hfits _ hparse _ => exact hp.parsed hfits hparse rfl rfl rfl rfl
  | txHashFail _ _ hfits _ hparse _ => exact hp.parsed hfits hparse rfl rfl rfl rfl
  | txDisplay _ _ hfits _ hparse _ _ hc' _ _ =>
    subst hc'
    exact hp.parsed hfits hparse rfl rfl rfl rfl
  | storedMsg _ hreq | msgHashFail _ hreq =>
    intro hc
    have hc : c.reqType = .confirmTransaction := hc
    rw [hreq] at hc
    cases hc
  | msgDisplay _ hreq _ _ _ hc' =>
    intro hc
    have hreq' : c'.reqType = c.reqType := by rw [hc']; rfl
    rw [hreq', hreq] at hc
    cases hc
  | rejected _ hc' =>
    rcases hc' with rfl | rfl
    · exact hp
    · exact hp.frame rfl rfl rfl (Nat.le_refl _) fun _ => id
  | approvedAddress => exact hp
  | signatureFail | signedTx => exact hp.frame rfl rfl rfl (Nat.le_refl _) fun _ => id
  | signedMsg =>
    refine hp.frame rfl rfl rfl (Nat.le_refl _) ?_
    intro n hn
    have hpos : 51 ≤ cfg.msgSignaturePos := by
      rw [Config.msgSignaturePos, Config.msgHashPos, maxMessageLen]
      omega
    refine hn.of_take hpos ?_
    -- the signature is stored behind the header and the size
    rw [Context.storeMsgSignature, Context.write_take (Nat.le_add_right _ _), Context.write_take (Nat.le_refl _)]
    rfl

omit [BufferSdk] [CryptoSdk] [FormatSdk] in
theorem Builds.display_not_mem {review : Review} {c₀ : Context} (hb : Builds review c screen w screen') :
    .display c₀ ∉ w := by
  cases hb <;> simp

/-- The review of a transaction is of a fresh one. -/
theorem Parseable.display {c₀ : Context} (hp : Parseable cfg c)
    (hstep : Effect cfg c screen e w c' screen') (hw : .display c₀ ∈ w)
    (hreq₀ : c₀.reqType = .confirmTransaction) : c₀.FreshlyParsed cfg := by
  cases hstep with
  | keep _ hans => rcases hans with rfl | ⟨data, sw, rfl⟩ <;> simp at hw
  | pubkey _ _ _ _ _ _ hans =>
    rcases hans with ⟨data, sw, rfl, -⟩ | hb
    · simp at hw
    · exact absurd hw hb.display_not_mem
  | txDisplay hchunk hreq hfits _ hparse hstatus _ hc' _ hb =>
    rcases List.mem_cons.mp hw with heq | hw
    · cases heq
      rw [hc']
      exact hp.fresh hreq (Event.data_ne_nil hchunk) hfits hparse hstatus rfl rfl
    · exact absurd hw hb.display_not_mem
  | msgDisplay _ hreq _ _ _ hc' _ hb _ =>
    rcases List.mem_cons.mp hw with heq | hw
    · cases heq
      have hreq' : c'.reqType = c.reqType := by rw [hc']; rfl
      rw [hreq', hreq] at hreq₀
      cases hreq₀
    · exact absurd hw hb.display_not_mem
  | _ => simp at hw

variable [CommandSdk]

theorem run_parseable {beyond : Context → Nat → Except Fault TxParameter} {h : History} {s : App}
    (hrun : (app cfg beyond).Run Machine.anyStep h s) : Parseable cfg s.context := by
  refine hrun.induct (I := fun _ s => Parseable cfg s.context) ?_ ?_
  · intro hc
    cases hc
  · intro h s t e w _ hp _ hnext
    exact hp.step (step_effect cfg beyond hnext).1

/-- In every run a last chunk that makes a transaction leaves a fresh one, so the reviews are of
fresh ones; of bytes and a proper extension of them one at most passes the check of the size. -/
theorem transaction_fresh (cfg : Config) (beyond : Context → Nat → Except Fault TxParameter) {h : History}
    {s : App} (hrun : (app cfg beyond).Run Machine.anyStep h s) :
    (∀ e w h₀, (e, w) :: h₀ <:+ h → ∀ c, .display c ∈ w → c.reqType = .confirmTransaction →
      c.FreshlyParsed cfg) ∧
    (∀ bs status t, s.context.reqType = .confirmTransaction → bs ≠ [] →
      s.context.rawTxLen + bs.length ≤ cfg.maxTransactionLen → (transactionDeserialize cfg).run
        ⟨.ofBytes (s.context.storeTx cfg bs).txBytes, s.context.transaction⟩ = .ok (status, t) →
      status = .ok ∨ status = .txNotDefined →
      Context.FreshlyParsed cfg { s.context.storeTx cfg bs with transaction := t.tx }) ∧
    ∀ raw raw' tx tx' t t', raw <+: raw' →
      (throughSize cfg).run ⟨.ofBytes raw, tx⟩ = .ok (.ok, t) →
      (throughSize cfg).run ⟨.ofBytes raw', tx'⟩ = .ok (.ok, t') → raw = raw' := by
  refine ⟨?_, ?_, ?_⟩
  · intro e w h₀ hsuffix c hw hreq
    obtain ⟨s₀, t₀, hrun₀, -, hnext⟩ := hrun.of_suffix hsuffix
    exact (run_parseable hrun₀).display (step_effect cfg beyond hnext).1 hw hreq
  · intro bs status t hreq hbs hfits hparse hstatus
    exact (run_parseable hrun).fresh hreq hbs hfits hparse hstatus rfl rfl
  · intro raw raw' tx tx' t t' hpre hpass hpass'
    exact throughSize_unique hpre hpass hpass'

end

theorem transaction_fresh_sample :
    let := BufferSdk.reference
    ∃ h s, referenceApp.Run Machine.anyStep h s ∧
      (∃ ew ∈ h, ∃ o ∈ ew.2, ∃ c, o.pathUse = some c ∧ c.reqType = .confirmTransaction) ∧
      ∀ e w h₀, (e, w) :: h₀ <:+ h → ∀ c, .display c ∈ w → c.reqType = .confirmTransaction →
        c.FreshlyParsed ⟨.nano, .w32⟩ := by
  let := BufferSdk.reference
  let := CommandSdk.reference
  let := CryptoSdk.reference
  let := FormatSdk.reference
  obtain ⟨h, s, hrun, huse⟩ := Machine.Run.exists_of_exec (M := referenceApp) (C := Machine.anyStep)
    (P := fun h _ => h.any fun ew => ew.2.any fun o => o.pathUse.any fun c =>
      decide (c.reqType = .confirmTransaction))
    [.command 2 0 0x80 samplePath, .command 2 1 0 (sampleTransfer.encode.take 100),
      .command 2 1 0 (sampleTransfer.encode.drop 100)] (by decide +kernel)
  simp only [List.any_eq_true, Option.any_eq_true, decide_eq_true_eq] at huse
  exact ⟨h, s, hrun, huse, (transaction_fresh ⟨.nano, .w32⟩ _ hrun).1⟩

end AppOnt
