import AppOnt.Address
import AppOnt.Library.Memory
import AppOnt.Library.Program
import AppOnt.Transaction.Amount
import AppOnt.Ui.TxInit

/-!
# Building the review of a transaction

`handle_params` and the functions around it, over the buffers that a review
points into. Every access is checked: a write to `g_buffers` against the array
and the field that it was handed, a write to `g_pairs` against the array, and
the 8-bit indices against 256. What lies beyond the parameter array is a
parameter of the model, `beyond`: an arbitrary value, or a fault.
-/
namespace AppOnt

def maxBufferLen : Nat := 67
def maxPubkeyDisplay : Nat := 3
def amountSize : Nat := 50

namespace Config

/-- `NUM_PAIRS`. -/
def numPairs (cfg : Config) : Nat := cfg.parametersMaxNum + 2

/-- Where the three texts at the end of `g_buffers` start: total, gas fee and signer. -/
def totalPos (cfg : Config) : Nat := cfg.parametersMaxNum * maxBufferLen
def gasFeePos (cfg : Config) : Nat := cfg.parametersMaxNum * maxBufferLen + amountSize
def signerPos (cfg : Config) : Nat := (cfg.parametersMaxNum + 1) * maxBufferLen

end Config

/-- A text of the review: a literal, or a pointer into `g_buffers`. -/
inductive CharPtr where
  | null
  | literal (s : String)
  | buffer (pos : Nat)
  deriving DecidableEq, Repr

/-- `nbgl_contentTagValue_t`. -/
structure TagValue where
  item : CharPtr
  value : CharPtr
  deriving DecidableEq, Repr

/-- `g_buffers`, `g_pairs` and `g_pairList.nbPairs`. -/
@[ext] structure Display where
  buffers : Memory
  pairs : Nat → TagValue
  nbPairs : Nat

def Display.zero : Display := ⟨fun _ => 0, fun _ => ⟨.null, .null⟩, 0⟩

/-- The display with `g_pairs[pos]` set. -/
def Display.putPair (d : Display) (pos : Nat) (pair : TagValue) : Display :=
  { d with pairs := Function.update d.pairs pos pair }

abbrev DisplayM := Prog Fault Display

/-- A value kept in a `uint8_t`. -/
def u8 (n : Nat) : DisplayM Nat := if n < 256 then return n else throw .wrap

section
variable (cfg : Config)

/-- Write `bs` at `pos`, into a field with `len` bytes left. -/
def store (pos len : Nat) (bs : List UInt8) : DisplayM Unit :=
  if len < bs.length then throw .slot
  else if cfg.numPairs * maxBufferLen < pos + bs.length then throw (.text (pos + bs.length))
  else modify fun s => { s with buffers := s.buffers.write pos bs }

def explicitBzero (pos len : Nat) : DisplayM Unit := store cfg pos len (List.replicate len 0)

/-- `strlcat(&g_buffers[pos], src, size)`. -/
def strlcat (pos : Nat) (src : List UInt8) (size : Nat) : DisplayM Unit := do
  let len := (← get).buffers.strnlen pos size
  if len = size then return ()
  else store cfg (pos + len) (size - len) (src.take (size - len - 1) ++ [0])

/-- `snprintf` of a text. -/
def snprintf (pos size : Nat) (text : List UInt8) : DisplayM Unit :=
  store cfg pos size (text.take (size - 1) ++ [0])

/-- What a formatting call writes, whose result is not looked at. -/
def storeText (pos len : Nat) : Option (List UInt8) → DisplayM Unit
  | some text => store cfg pos len (text ++ [0])
  | none => return ()

/-- Write a row of `g_pairs`. -/
def setPair (pos : Nat) (pair : TagValue) : DisplayM Unit :=
  if pos < cfg.numPairs then modify fun s => s.putPair pos pair else throw (.pair pos)

/-- Write the row after the last one. -/
def appendPair (pair : TagValue) : DisplayM Unit := do
  let n := (← get).nbPairs
  setPair cfg n pair
  let n' ← u8 (n + 1)
  modify fun s => { s with nbPairs := n' }

end

section
variable (cfg : Config) (raw : List UInt8) (tx : Transaction)

variable [CryptoSdk] [FormatSdk]

/-- What follows an amount: a percent sign, or the ticker. -/
def appendUnit (pos len : Nat) : DisplayM Bool := do
  if ← Prog.ofExcept (methodcmp raw tx.method.name methodSetFeePercentage) then
    strlcat cfg pos (chars percentage) len
    return true
  else
    strlcat cfg pos (chars " ") len
    match tx.contract.ticker with
    | none => throw .null
    | some ticker =>
      strlcat cfg pos (chars ticker) len
      return true

def writeAmount (param : TxParameter) (pos len : Nat) : DisplayM Bool := do
  match ← Prog.ofExcept (convertParamAmountToChars raw param tx.contract.tokenDecimals
      (decide (tx.contract.type ≠ .wasmvm)) len) with
  | none => return false
  | some text =>
    store cfg pos len text
    appendUnit cfg raw tx pos len

/-- The `switch` of `convert_param_to_chars`. -/
def writeParam (param : TxParameter) (pos len : Nat) : DisplayM Bool := do
  match param.type with
  | .addr =>
    let scriptHash ← Prog.ofExcept (readPtr raw param.data addressScriptHashLen)
    let (ok, text) := convertScriptHashToBase58Address len scriptHash
    store cfg pos len text
    return ok
  | .uint128 | .amount => writeAmount cfg raw tx param pos len
  | .pubkey =>
    if param.len ≤ len then
      store cfg pos len (← Prog.ofExcept (readPtr raw param.data param.len))
      store cfg (pos + param.len) (len - param.len) [0]
      return true
    else
      return false
  | _ => return false

def convertParamToChars (paramIdx pos len : Nat) : DisplayM Bool := do
  if paramIdx ≥ cfg.parametersMaxNum ∨ (tx.method.parameters paramIdx).data = none then
    return false
  else
    explicitBzero cfg pos len
    writeParam cfg raw tx (tx.method.parameters paramIdx) pos len

/-- The rows of the configured parameters, from the `i`-th on: the loop over all of them, with
`base` zero, and the loop over the fields of a further transfer. -/
def paramRows (base : Nat) : List ParamConfig → Nat → DisplayM Bool
  | [], _ => return true
  | config :: configs, i => do
    let index ← u8 (i + base)
    let pos ← u8 (config.pos + base)
    if ← convertParamToChars cfg raw tx index (index * maxBufferLen) maxBufferLen then
      setPair cfg pos ⟨.literal config.item, .buffer (index * maxBufferLen)⟩
      paramRows base configs (i + 1)
    else
      return false

/-- A label that is numbered unless there is one thing only; the result is the label and the
field after it. -/
def numberedLabel (item : String) (num i curr : Nat) : DisplayM (CharPtr × Nat) := do
  if i = 0 ∧ num = 1 then
    return (.literal item, curr)
  else
    snprintf cfg (curr * maxBufferLen) maxBufferLen (chars item ++ chars " " ++ numeral (i + 1))
    return (.buffer (curr * maxBufferLen), curr + 1)

/-- A row with a numbered label for the parameter `paramIdx`; the result is the next field. -/
def numberedRow (item : String) (num i paramIdx curr : Nat) : DisplayM (Option Nat) := do
  let (label, curr) ← numberedLabel cfg item num i curr
  if ← convertParamToChars cfg raw tx (← u8 paramIdx) (curr * maxBufferLen) maxBufferLen then
    appendPair cfg ⟨label, .buffer (curr * maxBufferLen)⟩
    return some (curr + 1)
  else
    return none

/-- The rows of the nodes from the `i`-th on, `left` of them. -/
def pkAmountRows (amountItem : String) (pubkeyNum : Nat) : Nat → Nat → Nat → DisplayM (Option Nat)
  | 0, _, curr => return some curr
  | left + 1, i, curr => do
    match ← numberedRow cfg raw tx cfg.peerPubkey pubkeyNum i (i + 2) curr with
    | none => return none
    | some curr =>
      if pubkeyNum ≤ maxPubkeyDisplay then
        match ← numberedRow cfg raw tx amountItem pubkeyNum i (i + 2 + pubkeyNum) curr with
        | none => return none
        | some curr => pkAmountRows amountItem pubkeyNum left (i + 1) curr
      else
        pkAmountRows amountItem pubkeyNum left (i + 1) curr

/-- The stake, unstake or withdraw labels, by the name of the method. -/
def pairsItem : DisplayM (Option String) := do
  if ← Prog.ofExcept (methodcmp raw tx.method.name methodAuthorizeForPeer) then
    return some stakeAmount
  else if ← Prog.ofExcept (methodcmp raw tx.method.name methodUnauthorizeForPeer) then
    return some unstakeAmount
  else if ← Prog.ofExcept (methodcmp raw tx.method.name methodWithdraw) then
    return some withdrawAmount
  else
    return none

section
variable (beyond : Nat → Except Fault TxParameter)

/-- A read of `tx->method.parameters[j]`. -/
def readParameter (j : Nat) : DisplayM TxParameter :=
  Prog.ofExcept (if j < cfg.parametersMaxNum then .ok (tx.method.parameters j) else beyond j)

/-- The sum of the amounts from the `i`-th on, `left` of them, on 64 bits. -/
def sumAmounts (pubkeyNum : Nat) : Nat → Nat → Nat → DisplayM (Option Nat)
  | 0, _, amount => return some amount
  | left + 1, i, amount => do
    match ← Prog.ofExcept
        (convertParamToUint64Le raw (← readParameter cfg tx beyond (i + 2 + pubkeyNum))) with
    | none => return none
    | some tmpAmount => sumAmounts pubkeyNum left (i + 1) ((amount + tmpAmount) % 2 ^ 64)

/-- The rows for the nodes that are not listed: their number and the total amount. -/
def remainingRows (amountItem : String) (pubkeyNum curr : Nat) : DisplayM Bool := do
  storeText cfg (curr * maxBufferLen) maxBufferLen
    (FormatSdk.formatU64 maxBufferLen (pubkeyNum - maxPubkeyDisplay))
  appendPair cfg ⟨.literal cfg.nodeAmount, .buffer (curr * maxBufferLen)⟩
  match ← sumAmounts cfg raw tx beyond pubkeyNum pubkeyNum 0 0 with
  | none => return false
  | some amount =>
    storeText cfg cfg.totalPos amountSize (FormatSdk.formatU64 amountSize amount)
    strlcat cfg cfg.totalPos (chars " ") amountSize
    match tx.contract.ticker with
    | none => throw .null
    | some ticker =>
      strlcat cfg cfg.totalPos (chars ticker) amountSize
      appendPair cfg ⟨.literal (totalPlus ++ amountItem), .buffer cfg.totalPos⟩
      return true

/-- The rows of a list of nodes and their amounts. -/
def pkAmountPairsRows : DisplayM Bool := do
  match ← pairsItem raw tx with
  | none => return true
  | some amountItem =>
    match ← Prog.ofExcept (convertParamToUint64Le raw (tx.method.parameters 1)) with
    | none => return false
    | some pubkeyNum =>
      if pubkeyNum = 0 then
        return false
      else
        let curr := (← get).nbPairs
        let maxDisplayNum := if pubkeyNum < maxPubkeyDisplay then pubkeyNum else maxPubkeyDisplay
        match ← pkAmountRows cfg raw tx amountItem pubkeyNum maxDisplayNum 0 curr with
        | none => return false
        | some curr =>
          if pubkeyNum > maxPubkeyDisplay then
            remainingRows cfg raw tx beyond amountItem pubkeyNum curr
          else
            return true

/-- The loop over the further states; its first condition reads before the second one checks. -/
def transferRows (configs : List ParamConfig) : Nat → Nat → DisplayM Bool
  | 0, _ => throw .diverged
  | fuel + 1, stateNum => do
    let param ← readParameter cfg tx beyond (3 * stateNum)
    if param.data ≠ none ∧ 3 * stateNum + 2 < cfg.parametersMaxNum then
      if ← paramRows cfg raw tx (3 * stateNum) (configs.take 3) 0 then
        let stateNum ← u8 (stateNum + 1)
        let nbPairs ← u8 ((← get).nbPairs + 3)
        modify fun s => { s with nbPairs := nbPairs }
        transferRows configs fuel stateNum
      else
        return false
    else
      return true

/-- The special handling of some methods of native contracts. -/
def nativeRows (method : MethodDisplay) : DisplayM Bool := do
  if ← Prog.ofExcept (methodcmp raw tx.method.name methodRegisterCandidate) then
    appendPair cfg ⟨.literal stakeFee, .literal stakeFeeOng⟩
  if ← pkAmountPairsRows cfg raw tx beyond then
    if (← Prog.ofExcept (methodcmp raw tx.method.name methodTransfer)) ||
        (← Prog.ofExcept (methodcmp raw tx.method.name methodTransferV2)) then
      transferRows cfg raw tx beyond method.configs cfg.parametersMaxNum 1
    else
      return true
  else
    return false

def handleParams (method : MethodDisplay) : DisplayM Bool := do
  modify fun s => { s with nbPairs := method.configs.length }
  if ← paramRows cfg raw tx 0 method.configs 0 then
    if tx.contract.type ≠ .native then return true
    else nativeRows cfg raw tx beyond method
  else
    return false

end

def calcGasChars (pos len : Nat) : DisplayM Bool := do
  let fee := tx.header.gasPrice * tx.header.gasLimit % 2 ^ 64
  match FormatSdk.formatFpu64Trimmed len fee ongDecimals with
  | none => return false
  | some text =>
    store cfg pos len (text ++ [0])
    strlcat cfg pos (chars " ") len
    strlcat cfg pos (chars ongTicker) len
    return true

end

/-- How a function ends that draws a review: with a status word, or with the review. -/
inductive Drawn where
  | sw (code : StatusWord)
  | review
  deriving DecidableEq, Repr

section
variable (cfg : Config) (raw : List UInt8) (tx : Transaction) [CryptoSdk] [FormatSdk]

/-- The two rows at the end of every review. -/
def feeAndSignerRows : DisplayM Unit := do
  appendPair cfg ⟨.literal itemGasFee, .buffer cfg.gasFeePos⟩
  appendPair cfg ⟨.literal itemSigner, .buffer cfg.signerPos⟩

def uiDisplayBsTransaction : DisplayM Drawn := do
  appendPair cfg ⟨.literal blindSignTx, .literal blindSigning⟩
  let addr ← Prog.ofExcept (readPtr raw tx.contract.addr.data tx.contract.addr.len)
  storeText cfg 0 maxBufferLen (FormatSdk.formatHex addr maxBufferLen)
  appendPair cfg ⟨.literal itemContractAddress, .buffer 0⟩
  feeAndSignerRows cfg
  return .review

variable (beyond : Nat → Except Fault TxParameter)

def uiDisplayNormalTransaction : DisplayM Drawn := do
  match ← Prog.ofExcept (initDipslayPosAndItem cfg raw tx) with
  | none => return .sw swInvalidTransaction
  | some method =>
    if ← handleParams cfg raw tx beyond method then
      feeAndSignerRows cfg
      return .review
    else
      return .sw swInvalidTransaction

/-- `ui_display_transaction` after the check of the state, with the path of the global context. -/
def displayTransaction (bip32Path : List UInt32) (isBlindSigned : Bool) : DisplayM Drawn := do
  modify fun s => { s with buffers := fun _ => 0, nbPairs := 0 }
  if ← calcGasChars cfg tx cfg.gasFeePos maxBufferLen then
    let (ok, text) := deriveAddressFromBip32Path bip32Path maxBufferLen
    store cfg cfg.signerPos maxBufferLen text
    if ok then
      if isBlindSigned then uiDisplayBsTransaction cfg raw tx
      else uiDisplayNormalTransaction cfg raw tx beyond
    else
      return .sw swDisplayAddressFail
  else
    return .sw swInvalidTransaction

end

/-- A public key has an address, where no digest fails. -/
theorem signerText_reference (path : List UInt32) :
    (@signerText CryptoSdk.reference FormatSdk.reference maxBufferLen path).isSome := by
  let := CryptoSdk.reference
  let := FormatSdk.reference
  have := CryptoSdk.reference_total
  obtain ⟨hash, hhash⟩ : ∃ hash, (covertPkToAddressScript basePoint >>= hashScript) = some hash :=
    ⟨_, rfl⟩
  have hkey : signerText maxBufferLen path =
      (covertPkToAddressScript basePoint >>= hashScript).bind (addressText maxBufferLen) := rfl
  obtain ⟨script, -, hscript⟩ := Option.bind_eq_some_iff.mp hhash
  rw [hkey, hhash]
  exact addressText_isSome (hashScript_length hscript) (by decide)

end AppOnt
