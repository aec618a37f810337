import AppOnt.App.Preimage
import AppOnt.Ui.Drawn

/-!
# The protocol

What the device is for, without its buffers: a session has a path and collects
bytes, its last chunk makes an offer to the user, and an offer says from the start
what its approval releases. A command with a path while an offer is open and a last
chunk after a path that was refused are left undefined, as a host has no reason for
them.
-/
namespace AppOnt

open CryptoSdk

/-- What the host and the user see, and what is signed. -/
inductive Visible where
  | answer (data : List UInt8) (sw : StatusWord)
  | review (review : Review)
  | signed (path : List UInt32) (digest : List UInt8)
  deriving DecidableEq

def Observation.visible : Observation → Option Visible
  | .answer data sw => some (.answer data sw)
  | .review r _ => some (.review r)
  | .sign c digest => some (.signed c.path digest)
  | .display _ => none

/-- A step as it is seen from outside. -/
def visible (w : List Observation) : List Visible := w.filterMap Observation.visible

/-- What a command asks for. -/
inductive Request where
  | refused (sw : StatusWord)
  | told (data : List UInt8)
  | opens (reqType : RequestType) (confirm : Bool)
  | chunk (reqType : RequestType) (more : Bool)
  deriving DecidableEq

namespace Command

variable (cmd : Command)

/-- The requests of the two commands that sign. -/
def signRequest (reqType : RequestType) : Request :=
  if (cmd.p1 = p1Start ∧ cmd.p2 ≠ p2More) ∨ cmd.p1 > p1Max ∨ (cmd.p2 ≠ p2Last ∧ cmd.p2 ≠ p2More) then
    .refused swWrongP1P2
  else if cmd.data = [] then .refused swWrongDataLength
  else if cmd.p1 = 0 then .opens reqType false
  else .chunk reqType (cmd.p2 &&& p2More != 0)

def request : Request :=
  if cmd.cla ≠ AppOnt.cla then .refused swClaNotSupported
  else
    match Ins.ofByte cmd.ins with
    | none => .refused swInsNotSupported
    | some .getVersion => if cmd.p1 ≠ 0 ∨ cmd.p2 ≠ 0 then .refused swWrongP1P2 else .told appVersion
    | some .getAppName => if cmd.p1 ≠ 0 ∨ cmd.p2 ≠ 0 then .refused swWrongP1P2 else .told appName
    | some .getPublicKey =>
      if cmd.p1 > 1 ∨ cmd.p2 > 0 then .refused swWrongP1P2
      else if cmd.data = [] then .refused swWrongDataLength
      else .opens .confirmAddress (cmd.p1 != 0)
    | some .signTx => cmd.signRequest .confirmTransaction
    | some .signMessage => cmd.signRequest .confirmMessage

end Command

/-- The path that data starts with, or the status word that refuses it. -/
def readPath : List UInt8 → Except StatusWord (List UInt32)
  | [] => .error swWrongDataLength
  | len :: bs =>
    if 0 < len.toNat ∧ len.toNat ≤ maxBip32Path ∧ 4 * len.toNat ≤ bs.length then
      if isValidBip44Prefix (beWords len.toNat bs) len.toNat then .ok (beWords len.toNat bs)
      else .error swInvalidPath
    else .error swWrongDataLength

/-- What was opened last: its path, if that was accepted, and what was received since. -/
structure Session where
  reqType : RequestType
  path : Option (List UInt32)
  bytes : List UInt8

/-- A review with what its approval releases. -/
structure Offer where
  review : Review
  release : List Visible

structure Protocol where
  session : Session
  offer : Option Offer
  blindSignedAllowed : Bool

/-- How many bytes a session may receive, and the status word for more. -/
def RequestType.capacity (cfg : Config) : RequestType → Nat
  | .confirmTransaction => cfg.maxTransactionLen
  | .confirmMessage => maxMessageLen
  | .confirmAddress => 0

def RequestType.overflow : RequestType → StatusWord
  | .confirmTransaction => swWrongTxLength
  | _ => swWrongDataLength

section
variable [CryptoSdk]

/-- A digest is signed with the key of a path, and the signature answered. -/
def signatureRelease (path : List UInt32) (digest : List UInt8) : List Visible :=
  .signed path digest ::
    match bip32DeriveEcdsaSignHash256 path digest with
    | .error _ => [.answer [] swSignatureFail]
    | .ok sig => [.answer (UInt8.ofNat sig.der.length :: sig.der ++ [sig.parity]) swOk]

variable [FormatSdk]

open Classical in
/-- The offer of a transaction that was parsed. -/
noncomputable def parsedOffer (cfg : Config) (path : List UInt32) (raw : List UInt8) :
    Except StatusWord Offer :=
  match transactionDigest raw with
  | none => .error swHashFail
  | some digest =>
    if signerText maxBufferLen path = none then .error swDisplayAddressFail
    else if Accepted cfg raw ∧ ¬ Showable cfg raw then .error swInvalidTransaction
    else .ok ⟨.transaction raw path, signatureRelease path digest⟩

open Classical in
/-- The offer of a transaction, or why there is none. -/
noncomputable def transactionOffer (cfg : Config) (blindSignedAllowed : Bool) (path : List UInt32)
    (raw : List UInt8) : Except StatusWord Offer :=
  if Accepted cfg raw ∨ (blindSignedAllowed = true ∧ Unregistered cfg raw) then parsedOffer cfg path raw
  else .error swTxParsingFail

/-- The offer of a message, every one of which can be shown. -/
def messageOffer (path : List UInt32) (msg : List UInt8) : Except StatusWord Offer :=
  match messageDigest msg with
  | none => .error swHashFail
  | some digest =>
    if signerText maxBufferLen path = none then .error swDisplayAddressFail
    else .ok ⟨.message msg path, signatureRelease path digest⟩

/-- The offer of a public key whose address is shown. -/
def addressOffer (path : List UInt32) (key : PublicKey) : Except StatusWord Offer :=
  if signerText maxBufferLen path = none then .error swDisplayAddressFail
  else .ok ⟨.address key.rawPublicKey, [.answer (pubkeyResponse key.rawPublicKey key.chainCode) swOk]⟩

/-- What the last chunk of a session makes. -/
noncomputable def Session.offer (cfg : Config) (blindSignedAllowed : Bool) (session : Session)
    (path : List UInt32) : Except StatusWord Offer :=
  match session.reqType with
  | .confirmMessage => messageOffer path session.bytes
  | _ => transactionOffer cfg blindSignedAllowed path session.bytes

namespace Protocol

def init : Protocol := ⟨⟨.confirmAddress, none, []⟩, none, false⟩

/-- Make an offer, or answer why there is none. -/
def propose (p : Protocol) : Except StatusWord Offer → List Visible × Protocol
  | .error sw => ([.answer [] sw], p)
  | .ok offer => ([.review offer.review], { p with offer := some offer })

/-- A public key is answered, or offered. -/
def publicKey (p : Protocol) (confirm : Bool) (path : List UInt32) : List Visible × Protocol :=
  match bip32DeriveGetPubkey256 path with
  | .error code => ([.answer [] (code % 2 ^ 16)], p)
  | .ok key =>
    if confirm then p.propose (addressOffer path key)
    else ([.answer (pubkeyResponse key.rawPublicKey key.chainCode) swOk], p)

/-- A command with a path opens a session, also where the path is refused. -/
def opening (p : Protocol) (reqType : RequestType) (confirm : Bool) (data : List UInt8) :
    List Visible × Protocol :=
  match readPath data with
  | .error sw => ([.answer [] sw], { p with session := ⟨reqType, none, []⟩ })
  | .ok path =>
    if reqType = .confirmAddress then
      publicKey { p with session := ⟨reqType, some path, []⟩ } confirm path
    else ([.answer [] swOk], { p with session := ⟨reqType, some path, []⟩ })

/-- A chunk is refused or received; the last one makes the offer. -/
noncomputable def chunk (cfg : Config) (p : Protocol) (reqType : RequestType) (more : Bool)
    (data : List UInt8) : Option (List Visible × Protocol) :=
  if p.session.reqType ≠ reqType then some ([.answer [] swBadState], p)
  else if reqType.capacity cfg < p.session.bytes.length + data.length then
    some ([.answer [] reqType.overflow], p)
  else
    let session := { p.session with bytes := p.session.bytes ++ data }
    if more then some ([.answer [] swOk], { p with session := session })
    else
      session.path.map fun path =>
        propose { p with session := session } (session.offer cfg p.blindSignedAllowed path)

/-- The answer to the user's choice on an offer, if one is open. -/
def choice (p : Protocol) (confirm : Bool) : List Visible × Protocol :=
  match p.offer with
  | none => ([], p)
  | some offer =>
    (if confirm then offer.release else [.answer [] swDeny], { p with offer := none })

noncomputable def step (cfg : Config) : Event → Protocol → Option (List Visible × Protocol)
  | .apdu cmd, p =>
    match cmd.request with
    | .refused sw => some ([.answer [] sw], p)
    | .told data => some ([.answer data swOk], p)
    | .opens reqType confirm => if p.offer.isSome then none else some (p.opening reqType confirm cmd.data)
    | .chunk reqType more => p.chunk cfg reqType more cmd.data
  | .badLength, p => some ([.answer [] swWrongDataLength], p)
  | .choice confirm, p => some (p.choice confirm)
  | .blindSigning allowed, p => some ([], { p with blindSignedAllowed := allowed })

end Protocol

noncomputable def protocol (cfg : Config) : Machine Protocol Event (List Visible) where
  init := .init
  step := Protocol.step cfg

end

end AppOnt
