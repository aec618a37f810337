import AppOnt.App.Steps

/-!
# Chunks

What a request has received is the data of its chunks that were stored since the
command that opened it. Along every run these are the bytes in the buffer of the
request, and the digest of a review is the digest of these bytes; only a message
that is approved while a transaction is received writes its signature over them.
-/
namespace AppOnt

open CryptoSdk Prog

/-- The data of the chunks of a request that were stored since the command that opened it. -/
def received (reqType : RequestType) : History → List UInt8
  | [] => []
  | (e, w) :: h =>
    if e.opens = some reqType then []
    else if e.continues = some reqType ∧ w.any Observation.isRefusal = false then
      received reqType h ++ e.data
    else received reqType h

/-- The bytes of the request of the context are the ones that it has received. -/
structure Buffered (cfg : Config) (h : History) (c : Context) : Prop where
  tx : c.reqType = .confirmTransaction →
    c.rawTxLen ≤ cfg.maxTransactionLen ∧ c.txBytes = received .confirmTransaction h
  msg : c.reqType = .confirmMessage →
    c.rawMsgLen cfg ≤ maxMessageLen ∧ c.msgBytes cfg = received .confirmMessage h

/-- The bytes of the request of the context, if it is this one, are the ones that it has received. -/
def Stored (reqType : RequestType) (max : Nat) (bytes : Context → List UInt8) (h : History)
    (c : Context) : Prop :=
  c.reqType = reqType → (bytes c).length ≤ max ∧ bytes c = received reqType h

section
variable {reqType : RequestType} {e : Event} {w : List Observation} {h : History}

theorem received_of_opens (hopens : e.opens = some reqType) : received reqType ((e, w) :: h) = [] :=
  if_pos hopens

theorem received_of_stored (hchunk : e.continues = some reqType)
    (hw : w.any Observation.isRefusal = false) :
    received reqType ((e, w) :: h) = received reqType h ++ e.data := by
  have hopens : e.opens ≠ some reqType := by
    rw [Event.opens_of_continues hchunk]
    simp
  rw [received, if_neg hopens, if_pos ⟨hchunk, hw⟩]

theorem received_of_keep (hopens : e.opens = none)
    (hchunk : e.continues = some reqType → w.any Observation.isRefusal = true) :
    received reqType ((e, w) :: h) = received reqType h := by
  rw [received, if_neg (by simp [hopens]), if_neg]
  intro hstored
  simp [hchunk hstored.1] at hstored

end

theorem leNat_bytesLe {k n : Nat} (h : n < 256 ^ k) : leNat (Digest.bytesLe k n) = n := by
  induction k generalizing n with
  | zero => simp_all [Digest.bytesLe, leNat]
  | succ k ih =>
    rw [Nat.pow_succ] at h
    have hn : (UInt8.ofNat n).toNat = n % 256 := rfl
    rw [Digest.bytesLe, leNat, ih (by omega), hn]
    omega

theorem leNat_read_zero (k n : Nat) : leNat (Memory.read (fun _ => 0) k n) = 0 := by
  induction n generalizing k with
  | zero => rfl
  | succ n ih =>
    rw [Nat.add_comm, Memory.read_add]
    change leNat (0 :: Memory.read (fun _ => 0) (k + 1) n) = 0
    rw [leNat, ih]
    rfl

namespace Context

variable {cfg : Config} {c : Context} {bs : List UInt8} {k : Nat}

theorem storeTx_rawTxLen (hfits : c.rawTxLen + bs.length ≤ cfg.maxTransactionLen) :
    (c.storeTx cfg bs).rawTxLen = c.rawTxLen + bs.length := by
  have := cfg.target_cases
  have := cfg.sizeMod_cases
  exact cfg.addSize_of_lt (by omega)

theorem storeTx_txBytes (hfits : c.rawTxLen + bs.length ≤ cfg.maxTransactionLen) :
    (c.storeTx cfg bs).txBytes = c.txBytes ++ bs := by
  have hread := Memory.read_write_append c.rawTx 0 c.rawTxLen bs
  rw [Nat.zero_add] at hread
  rw [txBytes, storeTx_rawTxLen hfits]
  exact hread

theorem storeMsg_rawMsgLen (hfits : c.rawMsgLen cfg + bs.length ≤ maxMessageLen) :
    (c.storeMsg cfg bs).rawMsgLen cfg = c.rawMsgLen cfg + bs.length := by
  have hmod := cfg.sizeMod_cases
  have hmax : maxMessageLen = 1024 := rfl
  have hsize : cfg.sizeMod = 256 ^ cfg.sizeBytes := by
    cases hw : cfg.sizeT <;> simp [Config.sizeMod, Config.sizeBytes, hw]
  have hread := Memory.read_write (c.write (c.rawMsgLen cfg) bs).rawTx maxMessageLen
    (Digest.bytesLe cfg.sizeBytes (cfg.addSize (c.rawMsgLen cfg) bs.length))
  rw [Digest.length_bytesLe] at hread
  rw [rawMsgLen, storeMsg, write, hread, cfg.addSize_of_lt (by omega)]
  exact leNat_bytesLe (by omega)

theorem storeMsg_msgBytes (hfits : c.rawMsgLen cfg + bs.length ≤ maxMessageLen) :
    (c.storeMsg cfg bs).msgBytes cfg = c.msgBytes cfg ++ bs := by
  have hread := Memory.read_write_append c.rawTx 0 (c.rawMsgLen cfg) bs
  rw [Nat.zero_add] at hread
  rw [msgBytes, storeMsg_rawMsgLen hfits, storeMsg, write,
    (Memory.write_agreeOff _ _ _).read_eq (.inl (by omega))]
  exact hread

/-- What is stored behind the bytes of a transaction leaves them alone. -/
theorem write_txBytes (hk : c.rawTxLen ≤ k) : (c.write k bs).txBytes = c.txBytes :=
  (Memory.write_agreeOff _ _ _).read_eq (.inl (by rwa [Nat.zero_add]))

theorem write_rawMsgLen (hk : cfg.msgHashPos ≤ k) : (c.write k bs).rawMsgLen cfg = c.rawMsgLen cfg :=
  congrArg leNat ((Memory.write_agreeOff _ _ _).read_eq (.inl hk))

/-- What is stored behind a message leaves it alone. -/
theorem write_msgBytes (hk : cfg.msgHashPos ≤ k) (hlen : c.rawMsgLen cfg ≤ maxMessageLen) :
    (c.write k bs).msgBytes cfg = c.msgBytes cfg := by
  rw [Config.msgHashPos] at hk
  rw [msgBytes, write_rawMsgLen hk]
  exact (Memory.write_agreeOff _ _ _).read_eq (.inl (by omega))

theorem storeMsgSignature_txBytes (sig : Signature) (hlen : c.rawTxLen ≤ cfg.msgSignaturePos) :
    (c.storeMsgSignature cfg sig).txBytes = c.txBytes :=
  (write_txBytes (c := c.write cfg.msgSignaturePos sig.der) (Nat.le_add_right_of_le hlen)).trans
    (write_txBytes hlen)

theorem storeMsgSignature_msgBytes (sig : Signature) (hlen : c.rawMsgLen cfg ≤ maxMessageLen) :
    (c.storeMsgSignature cfg sig).msgBytes cfg = c.msgBytes cfg := by
  have hpos : cfg.msgHashPos ≤ cfg.msgSignaturePos := Nat.le_add_right _ _
  refine (write_msgBytes (Nat.le_add_right_of_le hpos) ?_).trans (write_msgBytes hpos hlen)
  rwa [write_rawMsgLen hpos]

theorem opened_rawMsgLen (reqType : RequestType) (path : List UInt32) (len : UInt8) :
    (opened reqType path len).rawMsgLen cfg = 0 := leNat_read_zero _ _

end Context

/-- The signature of a message that is approved would be stored over the bytes of a transaction. -/
def Spoils (cfg : Config) (s : App) (e : Event) : Prop :=
  e.approves = true ∧ s.screen.any Review.isMessage = true ∧
    s.context.reqType = .confirmTransaction ∧ cfg.msgSignaturePos < s.context.rawTxLen

instance (cfg : Config) (s : App) (e : Event) : Decidable (Spoils cfg s e) :=
  inferInstanceAs (Decidable (_ ∧ _ ∧ _ ∧ _))

/-- A command that is answered with one of the status words that say that nothing was done, or that
asks for the version or the name. -/
inductive Declined : Event → List Observation → Prop where
  | status {cmd : Command} {data : List UInt8} {sw : StatusWord} {w : List Observation}
      (hw : .answer data sw ∈ w)
      (hsw : sw ∈ [swClaNotSupported, swInsNotSupported, swWrongP1P2, swBadState, swWrongTxLength] ∨
        sw = swWrongDataLength ∧ cmd.p1 ≠ 0 ∧
          Ins.ofByte cmd.ins ∈ [some .signTx, some .signMessage]) : Declined (.apdu cmd) w
  | query {cmd : Command} {w : List Observation}
      (hins : Ins.ofByte cmd.ins ∈ [some .getVersion, some .getAppName]) : Declined (.apdu cmd) w

/-- What is reviewed is what was received, and the digest in the context is the one of it. -/
def Digested [CryptoSdk] (cfg : Config) (h : History) (c : Context) : Review → Prop
  | .transaction raw _ => raw = received .confirmTransaction h ∧ transactionDigest raw = some c.mHash
  | .message msg _ => msg = received .confirmMessage h ∧ messageDigest msg = some (c.msgHash cfg)
  | .address _ => True

section
variable [BufferSdk] [CryptoSdk] [FormatSdk] {cfg : Config} {c c' : Context} {screen screen' : Option Review}
  {e : Event} {w : List Observation} {h : History}

omit [BufferSdk] [CryptoSdk] [FormatSdk] in
theorem Builds.any_isRefusal {review : Review} (hb : Builds review c screen w screen') :
    w.any Observation.isRefusal = false := by
  cases hb with
  | failed hsw =>
    simp only [List.mem_cons, List.not_mem_nil, or_false] at hsw
    rcases hsw with rfl | rfl | rfl <;> decide
  | drawn => rfl

variable {reqType : RequestType} {max : Nat} {bytes : Context → List UInt8}

omit [BufferSdk] [CryptoSdk] [FormatSdk] in
theorem Stored.other (hreq : c.reqType ≠ reqType) : Stored reqType max bytes h c :=
  fun hc => absurd hc hreq

omit [BufferSdk] [CryptoSdk] [FormatSdk] in
/-- A step that leaves the bytes alone. -/
theorem Stored.frame (hs : Stored reqType max bytes h c) (hopens : e.opens = none)
    (hchunk : e.continues = some reqType → w.any Observation.isRefusal = true)
    (hreq : c'.reqType = c.reqType) (hbytes : c.reqType = reqType → bytes c' = bytes c) :
    Stored reqType max bytes ((e, w) :: h) c' := by
  intro hc
  rw [hreq] at hc
  rw [received_of_keep hopens hchunk, hbytes hc]
  exact hs hc

omit [BufferSdk] [CryptoSdk] [FormatSdk] in
/-- A step that clears the context. -/
theorem Stored.opens (hopens : e.opens = some c.reqType) (hbytes : bytes c = []) :
    Stored reqType max bytes ((e, w) :: h) c := by
  intro hc
  rw [received_of_opens (hopens.trans (congrArg some hc)), hbytes]
  exact ⟨Nat.zero_le _, rfl⟩

omit [BufferSdk] [CryptoSdk] [FormatSdk] in
/-- A step that stores a chunk. -/
theorem Stored.append (hs : Stored reqType max bytes h c) (hchunk : e.continues = some reqType)
    (hw : w.any Observation.isRefusal = false) (hreq : c.reqType = reqType)
    (hbytes : bytes c' = bytes c ++ e.data) (hfits : (bytes c).length + e.data.length ≤ max) :
    Stored reqType max bytes ((e, w) :: h) c' := by
  intro _
  rw [received_of_stored hchunk hw, hbytes, List.length_append, (hs hreq).2]
  rw [(hs hreq).2] at hfits
  exact ⟨hfits, rfl⟩

omit [BufferSdk] [CryptoSdk] [FormatSdk] in
theorem Stored.storeTx (hs : Stored .confirmTransaction cfg.maxTransactionLen Context.txBytes h c)
    (hchunk : e.continues = some .confirmTransaction) (hw : w.any Observation.isRefusal = false)
    (hreq : c.reqType = .confirmTransaction) (hfits : c.rawTxLen + e.data.length ≤ cfg.maxTransactionLen)
    (hbytes : c'.txBytes = (c.storeTx cfg e.data).txBytes) :
    Stored .confirmTransaction cfg.maxTransactionLen Context.txBytes ((e, w) :: h) c' := by
  refine hs.append hchunk hw hreq (hbytes.trans (Context.storeTx_txBytes hfits)) ?_
  rwa [Context.txBytes, Memory.length_read]

omit [BufferSdk] [CryptoSdk] [FormatSdk] in
theorem Stored.storeMsg (hs : Stored .confirmMessage maxMessageLen (Context.msgBytes cfg) h c)
    (hchunk : e.continues = some .confirmMessage) (hw : w.any Observation.isRefusal = false)
    (hreq : c.reqType = .confirmMessage) (hfits : c.rawMsgLen cfg + e.data.length ≤ maxMessageLen)
    (hbytes : c'.msgBytes cfg = (c.storeMsg cfg e.data).msgBytes cfg) :
    Stored .confirmMessage maxMessageLen (Context.msgBytes cfg) ((e, w) :: h) c' := by
  refine hs.append hchunk hw hreq (hbytes.trans (Context.storeMsg_msgBytes hfits)) ?_
  rwa [Context.msgBytes, Memory.length_read]

/-- The bytes of a message, whatever else is done. -/
theorem Stored.msg_step (hstep : Effect cfg c screen e w c' screen')
    (hs : Stored .confirmMessage maxMessageLen (Context.msgBytes cfg) h c) :
    Stored .confirmMessage maxMessageLen (Context.msgBytes cfg) ((e, w) :: h) c' := by
  cases hstep with
  | keep hopens _ hchunk => exact hs.frame hopens (hchunk _) rfl fun _ => rfl
  | pathRefused hopens | opened hopens =>
    refine .opens hopens ?_
    rw [Context.msgBytes, Context.opened_rawMsgLen]
    rfl
  | pubkey _ hreq => exact .other (by simp [hreq])
  | storedTx _ hreq | txParsingFail _ hreq | txHashFail _ hreq =>
    exact .other fun hc => by cases hreq.symm.trans hc
  | txDisplay _ hreq _ _ _ _ _ hc' =>
    subst hc'
    exact .other fun hc => by cases hreq.symm.trans hc
  | storedMsg hchunk hreq hfits | msgHashFail hchunk hreq hfits =>
    exact hs.storeMsg hchunk (by decide) hreq hfits rfl
  | msgDisplay hchunk hreq hfits _ _ hc' _ hw =>
    subst hc'
    have hlen := Context.storeMsg_rawMsgLen hfits
    exact hs.storeMsg hchunk hw.any_isRefusal hreq hfits (Context.write_msgBytes (Nat.le_refl _) (hlen ▸ hfits))
  | rejected _ hc' =>
    rcases hc' with rfl | rfl <;> exact hs.frame rfl (fun hchunk => by cases hchunk) rfl fun _ => rfl
  | approvedAddress | signatureFail | signedTx =>
    exact hs.frame rfl (fun hchunk => by cases hchunk) rfl fun _ => rfl
  | signedMsg =>
    refine hs.frame rfl (fun hchunk => by cases hchunk) rfl fun hc => ?_
    -- the signature is stored behind the message
    refine Context.storeMsgSignature_msgBytes (c := { c with state := .approved }) _ ?_
    have hlen := (hs hc).1
    rwa [Context.msgBytes, Memory.length_read] at hlen

/-- The bytes of a transaction, unless a signature spoils them. -/
theorem Stored.tx_step {s : App} (hstep : Effect cfg s.context s.screen e w c' screen')
    (hs : Stored .confirmTransaction cfg.maxTransactionLen Context.txBytes h s.context)
    (hgood : ¬ Spoils cfg s e) :
    Stored .confirmTransaction cfg.maxTransactionLen Context.txBytes ((e, w) :: h) c' := by
  cases hstep with
  | keep hopens _ hchunk => exact hs.frame hopens (hchunk _) rfl fun _ => rfl
  | pathRefused hopens | opened hopens => exact .opens hopens rfl
  | pubkey _ hreq => exact .other (by simp [hreq])
  | storedTx hchunk hreq hfits | txParsingFail hchunk hreq hfits | txHashFail hchunk hreq hfits =>
    exact hs.storeTx hchunk (by decide) hreq hfits rfl
  | txDisplay hchunk hreq hfits _ _ _ _ hc' _ hw =>
    subst hc'
    exact hs.storeTx hchunk hw.any_isRefusal hreq hfits rfl
  | storedMsg _ hreq | msgHashFail _ hreq => exact .other fun hc => by cases hreq.symm.trans hc
  | msgDisplay _ hreq _ _ _ hc' =>
    subst hc'
    exact .other fun hc => by cases hreq.symm.trans hc
  | rejected _ hc' =>
    rcases hc' with rfl | rfl <;> exact hs.frame rfl (fun hchunk => by cases hchunk) rfl fun _ => rfl
  | approvedAddress | signatureFail | signedTx =>
    exact hs.frame rfl (fun hchunk => by cases hchunk) rfl fun _ => rfl
  | signedMsg hscreen =>
    refine hs.frame rfl (fun hchunk => by cases hchunk) rfl fun hc => ?_
    have hbehind : s.context.rawTxLen ≤ cfg.msgSignaturePos := by
      by_contra hlt
      exact hgood ⟨rfl, by rw [hscreen]; rfl, hc, by omega⟩
    exact Context.storeMsgSignature_txBytes (c := { s.context with state := .approved }) _ hbehind

omit [BufferSdk] [CryptoSdk] [FormatSdk] in
theorem buffered_iff : Buffered cfg h c ↔
    Stored .confirmTransaction cfg.maxTransactionLen Context.txBytes h c ∧
      Stored .confirmMessage maxMessageLen (Context.msgBytes cfg) h c := by
  have htx : c.txBytes.length = c.rawTxLen := Memory.length_read _ _ _
  have hmsg : (c.msgBytes cfg).length = c.rawMsgLen cfg := Memory.length_read _ _ _
  constructor
  · intro hb
    exact ⟨fun hc => htx ▸ hb.tx hc, fun hc => hmsg ▸ hb.msg hc⟩
  · rintro ⟨hs, hs'⟩
    exact ⟨fun hc => htx ▸ hs hc, fun hc => hmsg ▸ hs' hc⟩

theorem Buffered.step {s : App} (hstep : Effect cfg s.context s.screen e w c' screen')
    (hb : Buffered cfg h s.context) (hgood : ¬ Spoils cfg s e) : Buffered cfg ((e, w) :: h) c' := by
  obtain ⟨htx, hmsg⟩ := buffered_iff.mp hb
  exact buffered_iff.mpr ⟨htx.tx_step hstep hgood, hmsg.msg_step hstep⟩

omit [BufferSdk] [CryptoSdk] [FormatSdk] in
theorem Declined.any_isRefusal {reqType : RequestType} (hd : Declined e w)
    (hchunk : e.continues = some reqType) : w.any Observation.isRefusal = true := by
  cases hd with
  | status hw hsw =>
    refine List.any_eq_true.mpr ⟨_, hw, ?_⟩
    simp only [Observation.isRefusal, refusals]
    grind
  | query hins =>
    simp only [Event.continues, Command.handler] at hchunk
    grind

omit [BufferSdk] [CryptoSdk] [FormatSdk] in
/-- A command with a path is declined with one of five status words only. -/
theorem Declined.of_opens {reqType : RequestType} (hd : Declined e w) (hopens : e.opens = some reqType) :
    ∃ data sw, .answer data sw ∈ w ∧
      sw ∈ [swClaNotSupported, swInsNotSupported, swWrongP1P2, swBadState, swWrongTxLength] := by
  cases hd with
  | status hw hsw =>
    refine ⟨_, _, hw, hsw.resolve_right ?_⟩
    intro hchunk
    simp only [Event.opens, Command.handler] at hopens
    grind
  | query hins =>
    simp only [Event.opens, Command.handler] at hopens
    grind

omit [BufferSdk] [CryptoSdk] [FormatSdk] in
theorem Builds.not_declined {review : Review} (hb : Builds review c screen w screen') {data : List UInt8}
    {sw : StatusWord} (hw : .answer data sw ∈ w) :
    sw ∉ [swClaNotSupported, swInsNotSupported, swWrongP1P2, swBadState, swWrongTxLength] := by
  cases hb with
  | failed hsw =>
    simp only [List.mem_singleton, Observation.answer.injEq] at hw
    obtain ⟨-, rfl⟩ := hw
    simp only [List.mem_cons, List.not_mem_nil, or_false] at hsw
    rcases hsw with rfl | rfl | rfl <;> decide
  | drawn => simp at hw

/-- A command that is declined leaves the context as it is. -/
theorem Effect.declined [CryptoSdk.Documented] (hstep : Effect cfg c screen e w c' screen')
    (hd : Declined e w) : c' = c := by
  have hchunk {w : List Observation} {reqType : RequestType} (hd : Declined e w)
      (hchunk : e.continues = some reqType) (hw : w.any Observation.isRefusal = false) : c' = c := by
    rw [hd.any_isRefusal hchunk] at hw
    cases hw
  cases hstep with
  | keep _ _ _ _ => rfl
  | pathRefused hopens _ _ hsw =>
    obtain ⟨data, sw, hw, hmem⟩ := hd.of_opens hopens
    simp only [List.mem_singleton, Observation.answer.injEq] at hw
    obtain ⟨-, rfl⟩ := hw
    simp only [List.mem_cons, List.not_mem_nil, or_false] at hsw
    rcases hsw with rfl | rfl <;> exact absurd hmem (by decide)
  | opened hopens _ _ _ _ _ =>
    obtain ⟨data, sw, hw, hmem⟩ := hd.of_opens hopens
    simp only [List.mem_singleton, Observation.answer.injEq] at hw
    obtain ⟨-, rfl⟩ := hw
    exact absurd hmem (by decide)
  | pubkey hopens _ _ _ _ _ hw =>
    obtain ⟨data, sw, hmem, hsw⟩ := hd.of_opens hopens
    rcases hw with ⟨data', sw', rfl, -, hok | ⟨code, hkey, hcode⟩⟩ | hb
    · simp only [List.mem_singleton, Observation.answer.injEq] at hmem
      rw [hmem.2, hok] at hsw
      exact absurd hsw (by decide)
    · -- an error code of the SDK is no status word of the application
      have hnot := CryptoSdk.Documented.cxErr_not_mem hkey
      have hwords : [swClaNotSupported, swInsNotSupported, swWrongP1P2, swBadState, swWrongTxLength] ⊆
          statusWords := by decide
      simp only [List.mem_singleton, Observation.answer.injEq] at hmem
      rw [hmem.2, hcode] at hsw
      exact absurd (hwords hsw) hnot
    · exact absurd hsw (hb.not_declined hmem)
  | storedTx hcont _ _ _ => exact hchunk hd hcont (by decide)
  | txParsingFail hcont _ _ _ _ _ => exact hchunk hd hcont (by decide)
  | txHashFail hcont _ _ _ _ _ => exact hchunk hd hcont (by decide)
  | txDisplay hcont _ _ _ _ _ _ _ _ hw => exact hchunk hd hcont hw.any_isRefusal
  | storedMsg hcont _ _ _ => exact hchunk hd hcont (by decide)
  | msgHashFail hcont _ _ _ => exact hchunk hd hcont (by decide)
  | msgDisplay hcont _ _ _ _ _ _ hw _ => exact hchunk hd hcont hw.any_isRefusal
  | rejected _ _ => cases hd
  | approvedAddress _ => cases hd
  | signatureFail _ _ _ _ => cases hd
  | signedTx _ _ _ _ => cases hd
  | signedMsg _ _ _ _ => cases hd

omit [BufferSdk] [CryptoSdk] [FormatSdk] in
theorem Builds.review_mem {review r : Review} {c₀ : Context} (hb : Builds review c screen w screen')
    (hw : .review r c₀ ∈ w) : r = review ∧ c₀ = c := by
  cases hb with
  | failed _ => simp at hw
  | drawn => simpa using hw

omit [BufferSdk] [FormatSdk] in
theorem length_messageDigest [CryptoSdk.Documented] {msg hash : List UInt8}
    (hdigest : messageDigest msg = some hash) : hash.length = 32 := by
  simp only [messageDigest, Option.bind_eq_bind, Option.bind_eq_some_iff] at hdigest
  obtain ⟨_, _, _, _, ctx, _, hfinal⟩ := hdigest
  exact CryptoSdk.Documented.hashFinal_length hfinal

omit [BufferSdk] [FormatSdk] in
/-- The context after the last chunk of a message: the message with the chunk, and its digest. -/
theorem Context.hashedMsg_spec [CryptoSdk.Documented] {bs hash : List UInt8}
    (hfits : c.rawMsgLen cfg + bs.length ≤ maxMessageLen)
    (hdigest : messageDigest ((c.storeMsg cfg bs).msgBytes cfg) = some hash)
    (hc' : c' = { (c.storeMsg cfg bs).write cfg.msgHashPos hash with state := .parsed }) :
    c'.msgBytes cfg = c.msgBytes cfg ++ bs ∧ messageDigest (c'.msgBytes cfg) = some (c'.msgHash cfg) := by
  have hhash : c'.msgHash cfg = hash := by
    rw [hc', Context.msgHash, ← length_messageDigest hdigest]
    exact Memory.read_write _ _ _
  have hmsg : c'.msgBytes cfg = (c.storeMsg cfg bs).msgBytes cfg := by
    have hlen := Context.storeMsg_rawMsgLen hfits
    rw [hc']
    exact Context.write_msgBytes (Nat.le_refl _) (hlen ▸ hfits)
  rw [hmsg, hhash]
  exact ⟨Context.storeMsg_msgBytes hfits, hdigest⟩

/-- A review that comes on the screen is of what was received, and so is the digest. -/
theorem Effect.digested [CryptoSdk.Documented] (hstep : Effect cfg c screen e w c' screen')
    (hb : Buffered cfg h c) {review : Review} {c₀ : Context} (hw : .review review c₀ ∈ w) :
    Digested cfg ((e, w) :: h) c₀ review := by
  cases hstep with
  | keep _ hans _ _ => rcases hans with rfl | ⟨data, sw, rfl⟩ <;> simp at hw
  | pubkey _ _ _ _ _ _ hans =>
    rcases hans with ⟨data, sw, rfl, -⟩ | hbuilds
    · simp at hw
    · obtain ⟨rfl, -⟩ := hbuilds.review_mem hw
      trivial
  | @txDisplay _ status t c' mHash w screen' hchunk hreq hfits _ _ _ hdigest hc' _ hbuilds =>
    have hrefusal : (Observation.display c' :: w).any Observation.isRefusal = false :=
      hbuilds.any_isRefusal
    simp only [List.mem_cons, reduceCtorEq, false_or] at hw
    obtain ⟨rfl, rfl⟩ := hbuilds.review_mem hw
    rw [Digested, received_of_stored hchunk hrefusal, ← (hb.tx hreq).2, hc']
    exact ⟨Context.storeTx_txBytes hfits, hdigest⟩
  | @msgDisplay _ c' hash w screen' hchunk hreq hfits _ hdigest hc' _ hbuilds _ =>
    have hrefusal : (Observation.display c' :: w).any Observation.isRefusal = false :=
      hbuilds.any_isRefusal
    simp only [List.mem_cons, reduceCtorEq, false_or] at hw
    obtain ⟨rfl, rfl⟩ := hbuilds.review_mem hw
    rw [Digested, received_of_stored hchunk hrefusal, ← (hb.msg hreq).2]
    exact Context.hashedMsg_spec hfits hdigest hc'
  | _ => simp at hw

end

section
variable [BufferSdk] [CommandSdk] [CryptoSdk] [FormatSdk] [CryptoSdk.Documented]

/-- Along a run in which no message is approved over a transaction, the buffers hold what was
received, a command that is declined changes nothing, and digests are of what was received. -/
theorem chunks_reassembled (cfg : Config) (beyond : Context → Nat → Except Fault TxParameter)
    {h : History} {s : App} (hrun : (app cfg beyond).Run (fun _ s e => ¬ Spoils cfg s e) h s) :
    Buffered cfg h s.context ∧ ∀ e w t, (app cfg beyond).step e s = some (w, t) →
      (Declined e w → t.context = s.context) ∧
      ∀ review c, .review review c ∈ w → Digested cfg ((e, w) :: h) c review := by
  have hbuffered : Buffered cfg h s.context := by
    refine hrun.induct (I := fun h s => Buffered cfg h s.context) ?_ ?_
    · constructor <;> (intro hc; cases hc)
    · intro h s t e w _ hb hgood hnext
      exact hb.step (step_effect cfg beyond hnext).1 hgood
  refine ⟨hbuffered, ?_⟩
  intro e w t hnext
  have heffect := (step_effect cfg beyond hnext).1
  exact ⟨heffect.declined, fun _ _ => heffect.digested hbuffered⟩

end

theorem chunks_reassembled_sample :
    let := CryptoSdk.reference
    ∃ h s, referenceApp.Run (fun _ s e => ¬ Spoils ⟨.nano, .w32⟩ s e) h s ∧
      s.context.reqType = .confirmTransaction ∧ s.context.rawTxLen = 500 ∧
      Buffered ⟨.nano, .w32⟩ h s.context := by
  let := BufferSdk.reference
  let := CommandSdk.reference
  let := CryptoSdk.reference
  let := FormatSdk.reference
  have := CryptoSdk.reference_documented
  obtain ⟨h, s, hrun, hreq, hlen⟩ := Machine.Run.exists_of_exec (M := referenceApp)
    (C := fun _ s e => ¬ Spoils ⟨.nano, .w32⟩ s e)
    (P := fun _ s => s.context.reqType = .confirmTransaction ∧ s.context.rawTxLen = 500)
    [.command 2 0 0x80 samplePath, .command 2 1 0x80 (List.replicate 250 1), .command 4 0 1 samplePath,
      .command 2 2 0x80 (List.replicate 250 2)] (by decide +kernel)
  exact ⟨h, s, hrun, hreq, hlen, (chunks_reassembled ⟨.nano, .w32⟩ _ hrun).1⟩

/-- A message that is approved while a transaction is received. -/
theorem approvedMessage_spoils :
    ∃ h s, referenceApp.Run Machine.anyStep h s ∧ s.context.reqType = .confirmTransaction ∧
      s.context.txBytes ≠ received .confirmTransaction h := by
  obtain ⟨h, s, hrun, hreq, hne⟩ := Machine.Run.exists_of_exec (M := referenceApp)
    (C := Machine.anyStep) (P := fun h s => s.context.reqType = .confirmTransaction ∧
      s.context.txBytes[1060]? ≠ (received .confirmTransaction h)[1060]?)
    (.command 7 0 0x80 samplePath :: .command 7 1 0 (chars "hello") :: .command 2 0 0x80 samplePath ::
      List.replicate 5 (.command 2 1 0x80 (List.replicate 250 0)) ++ [.choice true]) (by decide +kernel)
  exact ⟨h, s, hrun, hreq, fun heq => hne (by rw [heq])⟩

end AppOnt
