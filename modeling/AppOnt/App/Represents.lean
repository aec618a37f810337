import AppOnt.App.Approval
import AppOnt.App.Protocol

/-!
# Sessions and offers in memory

How the context holds a session and what an offer releases, and that storing a
chunk, a digest or a signature keeps it so.
-/
namespace AppOnt

open CryptoSdk Prog

/-- The bytes that the request of the context has received. -/
def Context.sessionBytes (cfg : Config) (c : Context) : List UInt8 :=
  match c.reqType with
  | .confirmTransaction => c.txBytes
  | .confirmMessage => c.msgBytes cfg
  | .confirmAddress => []

/-- The context is the one of the session. -/
structure Session.Represents (cfg : Config) (session : Session) (c : Context) : Prop where
  reqType_eq : c.reqType = session.reqType
  path_eq : ∀ path ∈ session.path, c.path = path ∧ c.bip32PathLen.toNat ≤ maxBip32Path
  bytes_eq : c.sessionBytes cfg = session.bytes
  length_le : session.bytes.length ≤ session.reqType.capacity cfg
  parseable : Parseable cfg c

section
variable {cfg : Config} {session : Session} {c c' : Context} {bs : List UInt8}

namespace Session.Represents

/-- What changes neither the bytes nor the path. -/
theorem frame (hr : session.Represents cfg c) (hreq : c'.reqType = c.reqType) (hpath : c'.path = c.path)
    (hcount : c'.bip32PathLen = c.bip32PathLen) (hbytes : c'.sessionBytes cfg = c.sessionBytes cfg)
    (hp : Parseable cfg c') : session.Represents cfg c' where
  reqType_eq := hreq.trans hr.reqType_eq
  path_eq path hmem := by
    rw [hpath, hcount]
    exact hr.path_eq path hmem
  bytes_eq := hbytes.trans hr.bytes_eq
  length_le := hr.length_le
  parseable := hp

/-- What an answer to the user's choice changes. -/
theorem settled (hr : session.Represents cfg c) (state : AppState) (signature : List UInt8) (v : UInt8) :
    session.Represents cfg { c with state := state, signature := signature, v := v } :=
  hr.frame rfl rfl rfl rfl (hr.parseable.frame rfl rfl rfl (Nat.le_refl _) fun _ => id)

theorem txBytes_eq (hr : session.Represents cfg c) (hreq : session.reqType = .confirmTransaction) :
    c.txBytes = session.bytes ∧ c.rawTxLen = session.bytes.length := by
  have hbytes := hr.bytes_eq
  rw [Context.sessionBytes, hr.reqType_eq, hreq] at hbytes
  refine ⟨hbytes, ?_⟩
  rw [← hbytes, Context.txBytes, Memory.length_read]

theorem msgBytes_eq (hr : session.Represents cfg c) (hreq : session.reqType = .confirmMessage) :
    c.msgBytes cfg = session.bytes ∧ c.rawMsgLen cfg = session.bytes.length := by
  have hbytes := hr.bytes_eq
  rw [Context.sessionBytes, hr.reqType_eq, hreq] at hbytes
  refine ⟨hbytes, ?_⟩
  rw [← hbytes, Context.msgBytes, Memory.length_read]

/-- The state that a command with a path leaves. -/
theorem opened {reqType : RequestType} {path : Option (List UInt32)} {bip32Path : List UInt32} {len : UInt8}
    (hpath : ∀ p ∈ path, (Context.opened reqType bip32Path len).path = p ∧ len.toNat ≤ maxBip32Path) :
    Session.Represents cfg ⟨reqType, path, []⟩ (.opened reqType bip32Path len) where
  reqType_eq := rfl
  path_eq := hpath
  bytes_eq := by
    cases reqType with
    | confirmMessage =>
      change Context.msgBytes cfg _ = []
      rw [Context.msgBytes, Context.opened_rawMsgLen]
      rfl
    | _ => rfl
  length_le := Nat.zero_le _
  parseable _ := .inl ⟨rfl, rfl⟩

/-- A chunk of a transaction. -/
theorem storeTx (hr : session.Represents cfg c) (hreq : session.reqType = .confirmTransaction)
    (hfits : session.bytes.length + bs.length ≤ cfg.maxTransactionLen) :
    { session with bytes := session.bytes ++ bs }.Represents cfg (c.storeTx cfg bs) := by
  obtain ⟨hbytes, hlen⟩ := hr.txBytes_eq hreq
  rw [← hlen] at hfits
  have hstored : (c.storeTx cfg bs).txBytes = session.bytes ++ bs := by
    rw [Context.storeTx_txBytes hfits, hbytes]
  refine ⟨hr.reqType_eq, hr.path_eq, ?_, ?_, ?_⟩
  · have htx : (c.storeTx cfg bs).reqType = .confirmTransaction := hr.reqType_eq.trans hreq
    rw [Context.sessionBytes, htx]
    exact hstored
  · change (session.bytes ++ bs).length ≤ session.reqType.capacity cfg
    rw [hreq, List.length_append, ← hlen]
    exact hfits
  · refine hr.parseable.frame rfl rfl rfl ?_ ?_
    · rw [Context.storeTx_rawTxLen hfits]
      exact Nat.le_add_right _ _
    · intro n hn
      rw [Context.storeTx_txBytes hfits]
      exact hn.mono (List.prefix_append _ _)

/-- A chunk of a message. -/
theorem storeMsg (hr : session.Represents cfg c) (hreq : session.reqType = .confirmMessage)
    (hfits : session.bytes.length + bs.length ≤ maxMessageLen) :
    { session with bytes := session.bytes ++ bs }.Represents cfg (c.storeMsg cfg bs) := by
  obtain ⟨hbytes, hlen⟩ := hr.msgBytes_eq hreq
  rw [← hlen] at hfits
  have hstored : (c.storeMsg cfg bs).msgBytes cfg = session.bytes ++ bs := by
    rw [Context.storeMsg_msgBytes hfits, hbytes]
  have hmsg : (c.storeMsg cfg bs).reqType = .confirmMessage := hr.reqType_eq.trans hreq
  refine ⟨hr.reqType_eq, hr.path_eq, ?_, ?_, ?_⟩
  · rw [Context.sessionBytes, hmsg]
    exact hstored
  · change (session.bytes ++ bs).length ≤ session.reqType.capacity cfg
    rw [hreq, List.length_append, ← hlen]
    exact hfits
  · intro htx
    cases hmsg.symm.trans htx

/-- What is parsed is stored as well. -/
theorem parsed [BufferSdk] {status : ParserStatus} {t : ParserState} (hr : session.Represents cfg c)
    (hreq : session.reqType = .confirmTransaction)
    (hfits : session.bytes.length + bs.length ≤ cfg.maxTransactionLen)
    (hparse : (transactionDeserialize cfg).run ⟨.ofBytes (c.storeTx cfg bs).txBytes, c.transaction⟩ =
      .ok (status, t)) (mHash : List UInt8) (state : AppState) :
    { session with bytes := session.bytes ++ bs }.Represents cfg
      { c.storeTx cfg bs with transaction := t.tx, mHash := mHash, state := state } := by
  have hlen := (hr.txBytes_eq hreq).2
  refine (hr.storeTx hreq hfits).frame rfl rfl rfl rfl ?_
  exact hr.parseable.parsed (hlen ▸ hfits) hparse rfl rfl rfl rfl

/-- The digest of a message is stored behind it. -/
theorem hashed (hr : session.Represents cfg c) (hreq : session.reqType = .confirmMessage)
    (hash : List UInt8) (state : AppState) :
    session.Represents cfg { c.write cfg.msgHashPos hash with state := state } := by
  obtain ⟨-, hlen⟩ := hr.msgBytes_eq hreq
  have hmax := hr.length_le
  rw [hreq, ← hlen] at hmax
  have hmsg : c.reqType = .confirmMessage := hr.reqType_eq.trans hreq
  refine hr.frame rfl rfl rfl ?_ ?_
  · rw [Context.sessionBytes, Context.sessionBytes]
    change (match c.reqType with | .confirmTransaction => _ | .confirmMessage => _ | .confirmAddress => _) = _
    rw [hmsg]
    exact Context.write_msgBytes (Nat.le_refl _) hmax
  · intro htx
    cases hmsg.symm.trans htx

/-- The signature of a message is stored behind it. -/
theorem signedMsg (hr : session.Represents cfg c) (hreq : session.reqType = .confirmMessage)
    (sig : Signature) (state : AppState) :
    session.Represents cfg ({ c with state := state }.storeMsgSignature cfg sig) := by
  obtain ⟨-, hlen⟩ := hr.msgBytes_eq hreq
  have hmax := hr.length_le
  rw [hreq, ← hlen] at hmax
  have hmsg : c.reqType = .confirmMessage := hr.reqType_eq.trans hreq
  refine hr.frame rfl rfl rfl ?_ ?_
  · rw [Context.sessionBytes, Context.sessionBytes]
    change (match c.reqType with | .confirmTransaction => _ | .confirmMessage => _ | .confirmAddress => _) = _
    rw [hmsg]
    exact Context.storeMsgSignature_msgBytes (c := { c with state := state }) sig hmax
  · intro htx
    cases hmsg.symm.trans htx

end Session.Represents

end

section
variable [CryptoSdk]

/-- What the approval of a review releases in a context. -/
def Context.release (cfg : Config) (c : Context) : Review → List Visible
  | .transaction .. => signatureRelease c.path c.mHash
  | .message .. => signatureRelease c.path (c.msgHash cfg)
  | .address _ => [.answer (pubkeyResponse c.rawPublicKey c.chainCode) swOk]

variable [BufferSdk] [FormatSdk]

/-- The display is the one that drawing the review has left. -/
def Review.Drawn (cfg : Config) (d : Display) : Review → Prop
  | .transaction raw path => ∃ (status : ParserStatus) (t : ParserState) (rest : Nat → TxParameter)
      (d₀ : Display), (status = .ok ∨ status = .txNotDefined) ∧
      (transactionDeserialize cfg).run ⟨.ofBytes raw, .zero⟩ = .ok (status, t) ∧
      (displayTransaction cfg raw t.tx (fun j => .ok (rest j)) path (decide (status = .txNotDefined))).run d₀ =
        .ok (.review, d)
  | .message msg path => ∃ d₀, (displayMessage cfg msg path).run d₀ = .ok (.review, d)
  | .address key => ∃ d₀, (displayAddress cfg key).run d₀ = .ok (.review, d)

/-- The context releases what the offer says, and the display shows its review. -/
structure Offer.Represents (cfg : Config) (offer : Offer) (s : App) : Prop where
  pending : Pending cfg s.context offer.review
  release_eq : offer.release = s.context.release cfg offer.review
  drawn : offer.review.Drawn cfg s.display

/-- The application is in the state of the protocol. -/
structure Protocol.Represents (cfg : Config) (p : Protocol) (s : App) : Prop where
  session : p.session.Represents cfg s.context
  screen_eq : s.screen = p.offer.map Offer.review
  offer : ∀ offer ∈ p.offer, offer.Represents cfg s
  blindSignedAllowed_eq : s.blindSignedAllowed = p.blindSignedAllowed

end

end AppOnt
