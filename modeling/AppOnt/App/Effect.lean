import AppOnt.App.Handlers

/-!
# What a step does

`Effect` lists what an event can do to the context and to the screen, with what
is seen of it. Every step of the application is one of these.
-/
namespace AppOnt

open CryptoSdk Prog

/-- The handler that the dispatcher calls, of those that use the context. -/
def Command.handler (cmd : Command) : Option Ins :=
  if cmd.cla ≠ AppOnt.cla ∨ cmd.data = [] then none
  else
    match Ins.ofByte cmd.ins with
    | some .getPublicKey => if cmd.p1 > 1 ∨ cmd.p2 > 0 then none else some .getPublicKey
    | some .signTx =>
      if (cmd.p1 = p1Start ∧ cmd.p2 ≠ p2More) ∨ cmd.p1 > p1Max ∨
        (cmd.p2 ≠ p2Last ∧ cmd.p2 ≠ p2More) then none else some .signTx
    | some .signMessage =>
      if (cmd.p1 = p1Start ∧ cmd.p2 ≠ p2More) ∨ cmd.p1 > p1Max ∨
        (cmd.p2 ≠ p2Last ∧ cmd.p2 ≠ p2More) then none else some .signMessage
    | _ => none

namespace Event

def data : Event → List UInt8
  | .apdu cmd => cmd.data
  | _ => []

/-- The request of a command that carries a path: it clears the context. -/
def opens : Event → Option RequestType
  | .apdu cmd =>
    match cmd.handler with
    | some .getPublicKey => some .confirmAddress
    | some .signTx => if cmd.p1 = 0 then some .confirmTransaction else none
    | some .signMessage => if cmd.p1 = 0 then some .confirmMessage else none
    | _ => none
  | _ => none

/-- The request that a chunk is for. -/
def continues : Event → Option RequestType
  | .apdu cmd =>
    match cmd.handler with
    | some .signTx => if cmd.p1 = 0 then none else some .confirmTransaction
    | some .signMessage => if cmd.p1 = 0 then none else some .confirmMessage
    | _ => none
  | _ => none

/-- It says that more chunks follow. -/
def more : Event → Bool
  | .apdu cmd => cmd.p2 &&& p2More != 0
  | _ => false

/-- The user approves. -/
def approves : Event → Bool
  | .choice confirm => confirm
  | _ => false

theorem opens_of_continues {e : Event} {reqType : RequestType} (h : e.continues = some reqType) :
    e.opens = none := by
  cases e with
  | apdu cmd =>
    rw [continues] at h
    rw [opens]
    cases hins : cmd.handler with
    | none => rfl
    | some ins => cases ins <;> grind
  | _ => cases h

end Event

/-- The status words of commands that are not carried out. -/
def refusals : List StatusWord :=
  [swClaNotSupported, swInsNotSupported, swWrongP1P2, swWrongDataLength, swBadState, swWrongTxLength]

def Observation.isRefusal : Observation → Bool
  | .answer _ sw => decide (sw ∈ refusals)
  | _ => false

/-- The path that the data of a command starts with, if it is readable and valid. -/
def acceptedPath : List UInt8 → Option (List UInt32)
  | [] => none
  | len :: bs =>
    if 0 < len.toNat ∧ len.toNat ≤ maxBip32Path ∧ 4 * len.toNat ≤ bs.length ∧
        isValidBip44Prefix (beWords len.toNat bs) len.toNat then some (beWords len.toNat bs)
    else none

/-- The context after a command has cleared it and read a path. -/
def Context.opened (reqType : RequestType) (bip32Path : List UInt32) (len : UInt8) : Context :=
  { Context.zero with reqType := reqType, bip32Path := bip32Path, bip32PathLen := len }

def Context.storeTx (cfg : Config) (c : Context) (bs : List UInt8) : Context :=
  { c.write c.rawTxLen bs with rawTxLen := cfg.addSize c.rawTxLen bs.length }

def Context.storeMsg (cfg : Config) (c : Context) (bs : List UInt8) : Context :=
  (c.write (c.rawMsgLen cfg) bs).write maxMessageLen
    (Digest.bytesLe cfg.sizeBytes (cfg.addSize (c.rawMsgLen cfg) bs.length))

/-- The context after a signature of a message is stored. -/
def Context.storeMsgSignature (cfg : Config) (c : Context) (sig : Signature) : Context :=
  (c.write cfg.msgSignaturePos sig.der).write (cfg.msgSignaturePos + maxSignatureLen)
    [UInt8.ofNat sig.der.length, sig.parity]

/-- The bytes of a public key as they are answered. -/
def pubkeyResponse (rawPublicKey chainCode : List UInt8) : List UInt8 :=
  UInt8.ofNat uncompressedKeyLen :: rawPublicKey ++ UInt8.ofNat chainCodeLen :: chainCode

section
variable [BufferSdk] [CryptoSdk] [FormatSdk] (cfg : Config)

/-- The digest of a transaction. -/
def transactionDigest (raw : List UInt8) : Option (List UInt8) :=
  cxSha256Hash raw >>= fun hash => cxSha256Hash hash >>= cxSha256Hash

/-- The review of a message can be drawn. -/
def MessageDrawable (msg : List UInt8) (path : List UInt32) : Prop :=
  (deriveAddressFromBip32Path path maxBufferLen).1 = true ∧
    (makeMessageVisible msg (cfg.numPairs * maxBufferLen - maxBufferLen)).1 = true

/-- What is seen of a review that is built: an error, or that it comes on the screen. -/
inductive Builds (review : Review) (c : Context) (screen : Option Review) :
    List Observation → Option Review → Prop where
  | failed {sw : StatusWord} (hsw : sw ∈ [swInvalidTransaction, swDisplayAddressFail,
      swPersonalMsgParsingFail]) : Builds review c screen [.answer [] sw] screen
  | drawn : Builds review c screen [.review review c] (some review)

/-- What an event can do to the context and the screen, with what is seen. -/
inductive Effect (c : Context) (screen : Option Review) :
    Event → List Observation → Context → Option Review → Prop where
  /-- Nothing happens, or a command is refused. -/
  | keep {e : Event} {w : List Observation} (hopens : e.opens = none)
      (hw : w = [] ∨ ∃ data sw, w = [.answer data sw])
      (hchunk : ∀ reqType, e.continues = some reqType → w.any Observation.isRefusal)
      (hchoice : ∀ confirm, e = .choice confirm → screen = none) : Effect c screen e w c screen
  | pathRefused {e : Event} {reqType : RequestType} {bip32Path : List UInt32} {len : UInt8}
      {sw : StatusWord} (hopens : e.opens = some reqType) (hpath : acceptedPath e.data = none)
      (hlen : bip32Path.length = maxBip32Path) (hsw : sw ∈ [swWrongDataLength, swInvalidPath]) :
      Effect c screen e [.answer [] sw] (.opened reqType bip32Path len) screen
  | opened {e : Event} {reqType : RequestType} {path bip32Path : List UInt32} {len : UInt8}
      (hopens : e.opens = some reqType) (hreq : reqType ≠ .confirmAddress)
      (hpath : acceptedPath e.data = some path) (hlen : bip32Path.length = maxBip32Path)
      (htake : (Context.opened reqType bip32Path len).path = path) (hcount : len.toNat = path.length) :
      Effect c screen e [.answer [] swOk] (.opened reqType bip32Path len) screen
  /-- A public key is derived, and answered or shown. -/
  | pubkey {e : Event} {path : List UInt32} {w : List Observation} {c' : Context}
      {screen' : Option Review} (hopens : e.opens = some .confirmAddress)
      (hreq : c'.reqType = .confirmAddress) (hstate : c'.state = .none)
      (hpath : acceptedPath e.data = some path) (htake : c'.path = path)
      (hcount : c'.bip32PathLen.toNat = path.length)
      (hw : (∃ data sw, w = [.answer data sw] ∧ screen' = screen ∧
          (sw = swOk ∨ ∃ code, bip32DeriveGetPubkey256 c'.path = .error code ∧ sw = code % 2 ^ 16)) ∨
        Builds (.address c'.rawPublicKey) c' screen w screen') : Effect c screen e w c' screen'
  | storedTx {e : Event} (hchunk : e.continues = some .confirmTransaction)
      (hreq : c.reqType = .confirmTransaction)
      (hfits : c.rawTxLen + e.data.length ≤ cfg.maxTransactionLen) (hmore : e.more = true) :
      Effect c screen e [.answer [] swOk] (c.storeTx cfg e.data) screen
  /-- The last chunk does not make a transaction. -/
  | txParsingFail {e : Event} {status : ParserStatus} {t : ParserState}
      (hchunk : e.continues = some .confirmTransaction) (hreq : c.reqType = .confirmTransaction)
      (hfits : c.rawTxLen + e.data.length ≤ cfg.maxTransactionLen) (hmore : e.more = false)
      (hparse : (transactionDeserialize cfg).run
        ⟨.ofBytes (c.storeTx cfg e.data).txBytes, c.transaction⟩ = .ok (status, t))
      (hstatus : status ≠ .ok) :
      Effect c screen e [.answer [] swTxParsingFail] { c.storeTx cfg e.data with transaction := t.tx }
        screen
  | txHashFail {e : Event} {status : ParserStatus} {t : ParserState} {mHash : List UInt8}
      (hchunk : e.continues = some .confirmTransaction) (hreq : c.reqType = .confirmTransaction)
      (hfits : c.rawTxLen + e.data.length ≤ cfg.maxTransactionLen) (hmore : e.more = false)
      (hparse : (transactionDeserialize cfg).run
        ⟨.ofBytes (c.storeTx cfg e.data).txBytes, c.transaction⟩ = .ok (status, t))
      (hstatus : status = .ok ∨ status = .txNotDefined) :
      Effect c screen e [.answer [] swHashFail]
        { c.storeTx cfg e.data with transaction := t.tx, mHash := mHash } screen
  /-- The last chunk makes a transaction, and its review is built. -/
  | txDisplay {e : Event} {status : ParserStatus} {t : ParserState} {c' : Context}
      {mHash : List UInt8} {w : List Observation} {screen' : Option Review}
      (hchunk : e.continues = some .confirmTransaction) (hreq : c.reqType = .confirmTransaction)
      (hfits : c.rawTxLen + e.data.length ≤ cfg.maxTransactionLen) (hmore : e.more = false)
      (hparse : (transactionDeserialize cfg).run
        ⟨.ofBytes (c.storeTx cfg e.data).txBytes, c.transaction⟩ = .ok (status, t))
      (hstatus : status = .ok ∨ status = .txNotDefined)
      (hdigest : transactionDigest (c.storeTx cfg e.data).txBytes = some mHash)
      (hc' : c' = { c.storeTx cfg e.data with transaction := t.tx, mHash := mHash, state := .parsed })
      (hlen : c.bip32PathLen.toNat ≤ maxBip32Path)
      (hw : Builds (.transaction c'.txBytes c.path) c' screen w screen') :
      Effect c screen e (.display c' :: w) c' screen'
  | storedMsg {e : Event} (hchunk : e.continues = some .confirmMessage)
      (hreq : c.reqType = .confirmMessage)
      (hfits : c.rawMsgLen cfg + e.data.length ≤ maxMessageLen) (hmore : e.more = true) :
      Effect c screen e [.answer [] swOk] (c.storeMsg cfg e.data) screen
  | msgHashFail {e : Event} (hchunk : e.continues = some .confirmMessage)
      (hreq : c.reqType = .confirmMessage)
      (hfits : c.rawMsgLen cfg + e.data.length ≤ maxMessageLen) (hmore : e.more = false) :
      Effect c screen e [.answer [] swHashFail] { c.storeMsg cfg e.data with state := .parsed } screen
  | msgDisplay {e : Event} {c' : Context} {hash : List UInt8} {w : List Observation}
      {screen' : Option Review} (hchunk : e.continues = some .confirmMessage)
      (hreq : c.reqType = .confirmMessage)
      (hfits : c.rawMsgLen cfg + e.data.length ≤ maxMessageLen) (hmore : e.more = false)
      (hdigest : messageDigest ((c.storeMsg cfg e.data).msgBytes cfg) = some hash)
      (hc' : c' = { (c.storeMsg cfg e.data).write cfg.msgHashPos hash with state := .parsed })
      (hlen : c.bip32PathLen.toNat ≤ maxBip32Path)
      (hw : Builds (.message (c'.msgBytes cfg) c.path) c' screen w screen')
      (hdrawn : (∃ review c₀, .review review c₀ ∈ w) ↔ MessageDrawable cfg (c'.msgBytes cfg) c.path) :
      Effect c screen e (.display c' :: w) c' screen'
  | rejected {review : Review} {c' : Context} (hscreen : screen = some review)
      (hc' : c' = c ∨ c' = { c with state := .none }) :
      Effect c screen (.choice false) [.answer [] swDeny] c' none
  | approvedAddress {key : List UInt8} (hscreen : screen = some (.address key)) :
      Effect c screen (.choice true) [.answer (pubkeyResponse c.rawPublicKey c.chainCode) swOk] c none
  /-- A signature fails. -/
  | signatureFail {review : Review} {digest : List UInt8} {e : Nat} (hscreen : screen = some review)
      (hdigest : (∃ raw path, review = .transaction raw path ∧ digest = c.mHash) ∨
        ∃ msg path, review = .message msg path ∧ digest = c.msgHash cfg)
      (hlen : c.bip32PathLen.toNat ≤ maxBip32Path)
      (hsign : bip32DeriveEcdsaSignHash256 c.path digest = .error e) :
      Effect c screen (.choice true)
        [.sign { c with state := .approved } digest, .answer [] swSignatureFail]
        { c with state := .none } none
  | signedTx {raw : List UInt8} {path : List UInt32} {sig : Signature}
      (hscreen : screen = some (.transaction raw path)) (hlen : c.bip32PathLen.toNat ≤ maxBip32Path)
      (hsign : bip32DeriveEcdsaSignHash256 c.path c.mHash = .ok sig)
      (hder : sig.der.length ≤ maxSignatureLen) :
      Effect c screen (.choice true) [.sign { c with state := .approved } c.mHash,
          .answer (UInt8.ofNat sig.der.length :: sig.der ++ [sig.parity]) swOk]
        { c with state := .approved, signature := sig.der, v := sig.parity } none
  | signedMsg {msg : List UInt8} {path : List UInt32} {sig : Signature}
      (hscreen : screen = some (.message msg path)) (hlen : c.bip32PathLen.toNat ≤ maxBip32Path)
      (hsign : bip32DeriveEcdsaSignHash256 c.path (c.msgHash cfg) = .ok sig)
      (hder : sig.der.length ≤ maxSignatureLen) :
      Effect c screen (.choice true) [.sign { c with state := .approved } (c.msgHash cfg),
          .answer (UInt8.ofNat sig.der.length :: sig.der ++ [sig.parity]) swOk]
        ({ c with state := .approved }.storeMsgSignature cfg sig) none

end

end AppOnt
