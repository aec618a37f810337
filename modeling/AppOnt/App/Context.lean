import AppOnt.Library.Run
import AppOnt.Sdk.Command
import AppOnt.Ui.Message

/-!
# The global context

`global_ctx_t` of `types.h`. The members of its union overlap: the public key and
the whole message context lie where the raw transaction does. So the bytes of
`raw_tx` are a memory of which the other two members are views, with the length
of the message as a little-endian `size_t`; what follows `raw_tx` belongs to the
transaction alone. A signature is its bytes in use.
-/
namespace AppOnt

def cla : UInt8 := 0x80

/-- `state_e`. -/
inductive AppState where
  | none | parsed | approved
  deriving DecidableEq, Repr

/-- `request_type_e`. -/
inductive RequestType where
  | confirmAddress | confirmTransaction | confirmMessage
  deriving DecidableEq, Repr

def maxSignatureLen : Nat := 72

/-- `sizeof(size_t)`. -/
def Config.sizeBytes (cfg : Config) : Nat :=
  match cfg.sizeT with
  | .w32 => 4
  | .w64 => 8

/-- Offsets in the message context. -/
def Config.msgHashPos (cfg : Config) : Nat := maxMessageLen + cfg.sizeBytes
def Config.msgSignaturePos (cfg : Config) : Nat := cfg.msgHashPos + 32

/-- `G_context`. -/
structure Context where
  state : AppState
  rawTx : Memory
  rawTxLen : Nat
  transaction : Transaction
  mHash : List UInt8
  signature : List UInt8
  v : UInt8
  reqType : RequestType
  bip32Path : List UInt32
  bip32PathLen : UInt8

namespace Context

def zero : Context where
  state := .none
  rawTx := fun _ => 0
  rawTxLen := 0
  transaction := .zero
  mHash := List.replicate 32 0
  signature := []
  v := 0
  reqType := .confirmAddress
  bip32Path := List.replicate maxBip32Path 0
  bip32PathLen := 0

variable (cfg : Config) (c : Context)

/-- `raw_tx[0 .. raw_tx_len)`. -/
def txBytes : List UInt8 := c.rawTx.read 0 c.rawTxLen

def rawMsgLen : Nat := leNat (c.rawTx.read maxMessageLen cfg.sizeBytes)

/-- `raw_msg[0 .. raw_msg_len)`. -/
def msgBytes : List UInt8 := c.rawTx.read 0 (c.rawMsgLen cfg)

def msgHash : List UInt8 := c.rawTx.read cfg.msgHashPos 32

def rawPublicKey : List UInt8 := c.rawTx.read 0 uncompressedKeyLen
def chainCode : List UInt8 := c.rawTx.read uncompressedKeyLen chainCodeLen

/-- The entries of the path that are in use. -/
def path : List UInt32 := c.bip32Path.take c.bip32PathLen.toNat

/-- The context with `bs` stored at an offset of the union. -/
def write (k : Nat) (bs : List UInt8) : Context := { c with rawTx := c.rawTx.write k bs }

end Context

/-- The review on the screen: the object that it was built from, and the path of the signer that
it shows. -/
inductive Review where
  | transaction (raw : List UInt8) (path : List UInt32)
  | message (msg : List UInt8) (path : List UInt32)
  | address (rawPublicKey : List UInt8)
  deriving DecidableEq, Repr

def Review.isMessage : Review → Bool
  | .message .. => true
  | _ => false

/-- Its approval is a signature. -/
def Review.signs : Review → Bool
  | .address _ => false
  | _ => true

/-- What a step lets be seen: an answer, and with the context that `ui_display_transaction` or
`ui_display_message` starts to build a review, that a review comes on the screen, and that a digest
is signed. -/
inductive Observation where
  | answer (data : List UInt8) (sw : StatusWord)
  | display (c : Context)
  | review (review : Review) (c : Context)
  | sign (c : Context) (digest : List UInt8)

/-- The state of the application: its globals, the review on the screen and what the current
step has shown. -/
structure App where
  context : Context
  display : Display
  blindSignedAllowed : Bool
  screen : Option Review
  shown : List Observation

def App.init : App := ⟨.zero, .zero, false, none, []⟩

abbrev AppM := Prog Fault App

/-- What happens to the application. -/
inductive Event where
  /-- A command, as `apdu_parser` delivers it. -/
  | apdu (cmd : Command)
  /-- Bytes that `apdu_parser` refuses. -/
  | badLength
  /-- The user's choice on the review on the screen. -/
  | choice (confirm : Bool)
  /-- The switch of the settings. -/
  | blindSigning (allowed : Bool)

/-- A command of the application, of at most 255 bytes of data. -/
def Event.command (ins p1 p2 : UInt8) (data : List UInt8) : Event :=
  if h : data.length < 256 then .apdu ⟨cla, ins, p1, p2, data, h⟩ else .badLength

/-- What happened so far with what it showed, the latest first. -/
abbrev History := List (Event × List Observation)

end AppOnt
