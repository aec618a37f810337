import AppOnt.App.Context
import AppOnt.Transaction.Deserialize

/-!
# Commands and choices

The handlers, the dispatcher and the callbacks of the reviews as programs over
the state of the application. Writes to the context are checked against the array
that they are for. What a review reads beyond the parameter array is a parameter,
`beyond`, as for the display.
-/
namespace AppOnt

open CryptoSdk

/-- `CLA` is `cla`; the instructions are `command_e`. -/
inductive Ins where
  | signTx | getVersion | getPublicKey | getAppName | signMessage
  deriving DecidableEq, Repr

def Ins.ofByte (b : UInt8) : Option Ins :=
  match b with
  | 0x02 => some .signTx
  | 0x03 => some .getVersion
  | 0x04 => some .getPublicKey
  | 0x05 => some .getAppName
  | 0x07 => some .signMessage
  | _ => none

def p1Start : UInt8 := 0x00
def p1Max : UInt8 := 0x1b
def p2Last : UInt8 := 0x00
def p2More : UInt8 := 0x80

def appVersion : List UInt8 := [2, 0, 1]
def appName : List UInt8 := chars "ONT"

/-- `SIGN_MAGIC`. -/
def signMagic : List UInt8 := 0x19 :: chars "Ontology Signed Message:\n"
def msgLenMaxChars : Nat := 8

def observe (o : Observation) : AppM Unit := modify fun s => { s with shown := s.shown ++ [o] }

def ioSendSw (sw : StatusWord) : AppM Unit := observe (.answer [] sw)

def ioSendResponse (data : List UInt8) : AppM Unit := observe (.answer data swOk)

def getContext : AppM Context := do return (← get).context

def modifyContext (f : Context → Context) : AppM Unit :=
  modify fun s => { s with context := f s.context }

/-- Write into an array of `len` bytes at the start of `raw_tx`. -/
def writeRaw (len k : Nat) (bs : List UInt8) : AppM Unit :=
  if len < k + bs.length then throw (.byte (k + bs.length - 1))
  else modifyContext fun c => c.write k bs

/-- The entries of `bip32_path` that a call of the SDK reads. -/
def getPath : AppM (List UInt32) := do
  let c ← getContext
  if c.bip32PathLen.toNat ≤ maxBip32Path then return c.path else throw .slot

def setState (state : AppState) : AppM Unit := modifyContext fun c => { c with state := state }

/-- Build a review on the display; it comes on the screen unless an error is answered. -/
def showReview (x : DisplayM Drawn) (review : Review) : AppM Unit := do
  match ← Prog.within App.display (fun s d => { s with display := d }) x with
  | .sw code => ioSendSw code
  | .review =>
    observe (.review review (← getContext))
    modify fun s => { s with screen := some review }

section
variable [CryptoSdk] (cfg : Config)

def helperSendResponsePubkey : AppM Unit := do
  let c ← getContext
  ioSendResponse (UInt8.ofNat uncompressedKeyLen :: c.rawPublicKey ++
    UInt8.ofNat chainCodeLen :: c.chainCode)

def helperTxSendResponseSig : AppM Unit := do
  let c ← getContext
  ioSendResponse (UInt8.ofNat c.signature.length :: c.signature ++ [c.v])

def helperPersonalMsgSendResponseSig : AppM Unit := do
  let c ← getContext
  let signatureLen := c.rawTx (cfg.msgSignaturePos + maxSignatureLen)
  ioSendResponse (signatureLen :: c.rawTx.read cfg.msgSignaturePos signatureLen.toNat ++
    [c.rawTx (cfg.msgSignaturePos + maxSignatureLen + 1)])

/-- Sign a digest with the key of the path in the context. -/
def cryptoSign (digest : List UInt8) : AppM (Option Signature) := do
  observe (.sign (← getContext) digest)
  match bip32DeriveEcdsaSignHash256 (← getPath) digest with
  | .error _ => return none
  | .ok sig => if maxSignatureLen < sig.der.length then throw .slot else return some sig

/-- `info & CX_ECCINFO_PARITY_ODD`. -/
def Signature.parity (sig : Signature) : UInt8 := UInt8.ofNat (sig.info.toNat % 2)

def validatePubkey (choice : Bool) : AppM Unit :=
  if choice then helperSendResponsePubkey else ioSendSw swDeny

def validateTransaction (choice : Bool) : AppM Unit := do
  if choice then
    setState .approved
    match ← cryptoSign (← getContext).mHash with
    | none =>
      setState .none
      ioSendSw swSignatureFail
    | some sig =>
      modifyContext fun c => { c with signature := sig.der, v := sig.parity }
      helperTxSendResponseSig
  else
    setState .none
    ioSendSw swDeny

def validatePersonalMsg (choice : Bool) : AppM Unit := do
  if choice then
    setState .approved
    match ← cryptoSign ((← getContext).msgHash cfg) with
    | none =>
      setState .none
      ioSendSw swSignatureFail
    | some sig =>
      writeRaw cfg.maxTransactionLen cfg.msgSignaturePos sig.der
      writeRaw cfg.maxTransactionLen (cfg.msgSignaturePos + maxSignatureLen)
        [UInt8.ofNat sig.der.length, sig.parity]
      helperPersonalMsgSendResponseSig cfg
  else
    setState .none
    ioSendSw swDeny

/-- The callback of the review, which then leaves the screen. -/
def reviewChoice (confirm : Bool) : AppM Unit := do
  match (← get).screen with
  | none => return ()
  | some review =>
    match review with
    | .transaction .. => validateTransaction confirm
    | .message .. => validatePersonalMsg cfg confirm
    | .address _ => validatePubkey confirm
    modify fun s => { s with screen := none }

end

section
variable [FormatSdk] [CryptoSdk] (cfg : Config)

def displayAddress (rawPublicKey : List UInt8) : DisplayM Drawn := do
  modify fun s => { s with buffers := fun _ => 0 }
  let (ok, text) := convertUncompressedPubkeyToAddress (cfg.numPairs * maxBufferLen) rawPublicKey
  store cfg 0 (cfg.numPairs * maxBufferLen) text
  if ok then return .review else return .sw swDisplayAddressFail

/-- The check at the start of the three functions that draw a review. -/
def uiDisplay (reqType : RequestType) (state : AppState) (draw : Context → AppM Unit) : AppM Unit := do
  let c ← getContext
  if c.reqType ≠ reqType ∨ c.state ≠ state then
    setState .none
    ioSendSw swBadState
  else
    draw c

def uiDisplayAddress : AppM Unit :=
  uiDisplay .confirmAddress .none fun c =>
    showReview (displayAddress cfg c.rawPublicKey) (.address c.rawPublicKey)

def uiDisplayMessage : AppM Unit :=
  uiDisplay .confirmMessage .parsed fun c => do
    observe (.display c)
    let path ← getPath
    showReview (displayMessage cfg (c.msgBytes cfg) path) (.message (c.msgBytes cfg) path)

variable (beyond : Context → Nat → Except Fault TxParameter)

def uiDisplayTransaction (isBlindSigned : Bool) : AppM Unit :=
  uiDisplay .confirmTransaction .parsed fun c => do
    observe (.display c)
    let path ← getPath
    showReview (displayTransaction cfg c.txBytes c.transaction (beyond c) path isBlindSigned)
      (.transaction c.txBytes path)

/-- The digest that is signed for a transaction is hashed three times, over itself in between. -/
def handlerHashTxAndDisplayTx (isBlindSigning : Bool) : AppM Unit := do
  match cxSha256Hash (← getContext).txBytes with
  | none => ioSendSw swHashFail
  | some hash =>
    modifyContext fun c => { c with mHash := hash }
    match cxSha256Hash hash >>= cxSha256Hash with
    | none => ioSendSw swHashFail
    | some hash =>
      modifyContext fun c => { c with mHash := hash, state := .parsed }
      uiDisplayTransaction cfg beyond isBlindSigning

variable [BufferSdk] [CommandSdk]

/-- Read a path with its length in front; what was read stays in the context. -/
def readBip32Path (cdata : Buffer) : AppM Bool := do
  match BufferSdk.bufferReadU8 cdata with
  | none => return false
  | some (len, cdata) =>
    let (ok, path) := CommandSdk.bufferReadBip32Path cdata (← getContext).bip32Path len.toNat
    modifyContext fun c => { c with bip32PathLen := len, bip32Path := path }
    return ok

/-- What the three commands with a path do with it before they go on. -/
def withPath (reqType : RequestType) (cdata : Buffer) (next : AppM Unit) : AppM Unit := do
  modifyContext fun _ => { Context.zero with reqType := reqType }
  if ← readBip32Path cdata then
    let c ← getContext
    if isValidBip44Prefix c.bip32Path c.bip32PathLen.toNat then next else ioSendSw swInvalidPath
  else
    ioSendSw swWrongDataLength

def handlerGetPublicKey (cdata : Buffer) (display : Bool) : AppM Unit :=
  withPath .confirmAddress cdata do
    match bip32DeriveGetPubkey256 (← getPath) with
    | .error e => ioSendSw (e % 2 ^ 16)
    | .ok key =>
      writeRaw cfg.maxTransactionLen 0 key.rawPublicKey
      writeRaw cfg.maxTransactionLen uncompressedKeyLen key.chainCode
      if display then uiDisplayAddress cfg else helperSendResponsePubkey

/-- The parse and the review after the last chunk. -/
def finishTx : AppM Unit := do
  let s ← get
  let (status, t) ← Prog.ofExcept
    ((transactionDeserialize cfg).run ⟨.ofBytes s.context.txBytes, s.context.transaction⟩)
  modifyContext fun c => { c with transaction := t.tx }
  let isBlind := decide (status = .txNotDefined) && s.blindSignedAllowed
  if status ≠ .ok ∧ isBlind = false then ioSendSw swTxParsingFail
  else handlerHashTxAndDisplayTx cfg beyond isBlind

def handlerSignTx (cdata : Buffer) (chunk : UInt8) (more : Bool) : AppM Unit := do
  if chunk = 0 then
    withPath .confirmTransaction cdata (ioSendSw swOk)
  else
    let c ← getContext
    if c.reqType ≠ .confirmTransaction then
      ioSendSw swBadState
    else if cfg.maxTransactionLen < cfg.addSize c.rawTxLen cdata.size then
      ioSendSw swWrongTxLength
    else
      match CommandSdk.bufferMove cdata cdata.size with
      | none => ioSendSw swTxParsingFail
      | some bs =>
        writeRaw cfg.maxTransactionLen c.rawTxLen bs
        modifyContext fun c => { c with rawTxLen := cfg.addSize c.rawTxLen cdata.size }
        if more then ioSendSw swOk else finishTx cfg beyond

def setRawMsgLen (n : Nat) : AppM Unit :=
  modifyContext fun c => c.write maxMessageLen (Digest.bytesLe cfg.sizeBytes n)

/-- The digest of a message: the magic, the decimal length and the message. -/
def messageDigest (msg : List UInt8) : Option (List UInt8) := do
  let ctx ← cxHashUpdate cxSha256Init signMagic
  let ctx ← cxHashUpdate ctx ((numeral msg.length).take (msgLenMaxChars - 1))
  let ctx ← cxHashUpdate ctx msg
  cxHashFinal ctx

/-- The digest and the review after the last chunk. -/
def finishMessage : AppM Unit := do
  setState .parsed
  match messageDigest ((← getContext).msgBytes cfg) with
  | none => ioSendSw swHashFail
  | some hash =>
    writeRaw cfg.maxTransactionLen cfg.msgHashPos hash
    uiDisplayMessage cfg

def handlerSignMessage (cdata : Buffer) (chunk : UInt8) (more : Bool) : AppM Unit := do
  if chunk = 0 then
    withPath .confirmMessage cdata (ioSendSw swOk)
  else
    let c ← getContext
    if c.reqType ≠ .confirmMessage then
      ioSendSw swBadState
    else if maxMessageLen < cfg.addSize (c.rawMsgLen cfg) cdata.size then
      ioSendSw swWrongDataLength
    else
      match CommandSdk.bufferMove cdata cdata.size with
      | none => ioSendSw swPersonalMsgParsingFail
      | some bs =>
        writeRaw maxMessageLen (c.rawMsgLen cfg) bs
        setRawMsgLen cfg (cfg.addSize (c.rawMsgLen cfg) cdata.size)
        if more then ioSendSw swOk else finishMessage cfg

/-- The checks before the two handlers of chunks. -/
def dispatchSign (cmd : Command) (handler : Buffer → UInt8 → Bool → AppM Unit) : AppM Unit :=
  if (cmd.p1 = p1Start ∧ cmd.p2 ≠ p2More) ∨ cmd.p1 > p1Max ∨
      (cmd.p2 ≠ p2Last ∧ cmd.p2 ≠ p2More) then ioSendSw swWrongP1P2
  else if cmd.data = [] then ioSendSw swWrongDataLength
  else handler (.ofBytes cmd.data) cmd.p1 (cmd.p2 &&& p2More != 0)

/-- The checks of `apdu_dispatcher`, and the handler that they lead to. -/
def apduDispatcher (cmd : Command) : AppM Unit :=
  if cmd.cla ≠ cla then ioSendSw swClaNotSupported
  else
    match Ins.ofByte cmd.ins with
    | none => ioSendSw swInsNotSupported
    | some .getVersion =>
      if cmd.p1 ≠ 0 ∨ cmd.p2 ≠ 0 then ioSendSw swWrongP1P2 else ioSendResponse appVersion
    | some .getAppName =>
      if cmd.p1 ≠ 0 ∨ cmd.p2 ≠ 0 then ioSendSw swWrongP1P2 else ioSendResponse appName
    | some .getPublicKey =>
      if cmd.p1 > 1 ∨ cmd.p2 > 0 then ioSendSw swWrongP1P2
      else if cmd.data = [] then ioSendSw swWrongDataLength
      else handlerGetPublicKey cfg (.ofBytes cmd.data) (cmd.p1 != 0)
    | some .signTx => dispatchSign cmd (handlerSignTx cfg beyond)
    | some .signMessage => dispatchSign cmd (handlerSignMessage cfg)

def handle : Event → AppM Unit
  | .apdu cmd => apduDispatcher cfg beyond cmd
  | .badLength => ioSendSw swWrongDataLength
  | .choice confirm => reviewChoice cfg confirm
  | .blindSigning allowed => modify fun s => { s with blindSignedAllowed := allowed }

/-- The application: a step shows its observations; a fault has no next state. -/
def app : Machine App Event (List Observation) where
  init := .init
  step e s :=
    match (handle cfg beyond e).run { s with shown := [] } with
    | .ok (_, t) => some (t.shown, t)
    | .error _ => none

end

/-- The application of a nano over the libraries as they are documented. -/
def referenceApp : Machine App Event (List Observation) :=
  let := BufferSdk.reference
  let := CommandSdk.reference
  let := CryptoSdk.reference
  let := FormatSdk.reference
  app ⟨.nano, .w32⟩ fun _ j => .error (.parameter j)

/-- The data of a command with a path of five words. -/
def samplePath : List UInt8 :=
  [5, 0x80, 0, 0, 0x2c, 0x80, 0, 4, 0, 0x80, 0, 0, 0, 0, 0, 0, 0, 0, 0, 0, 0]

end AppOnt
