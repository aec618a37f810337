import AppOnt.Transaction.Contract
import AppOnt.Transaction.Parse

/-!
# Deserializing a transaction

The stages of `deserialize.c`. A stage returns its status and keeps what it has
stored, whether it succeeds or not; where the source leaves a stage by the same
status at each of several steps, the steps are one conjunction here.
-/
namespace AppOnt

def Transaction.setHeader (tx : Transaction) (h : TxHeader) : Transaction := { tx with header := h }

def Transaction.setContract (tx : Transaction) (c : TxContract) : Transaction :=
  { tx with contract := c }

def modifyTx (f : Transaction → Transaction) : ParseM Unit :=
  modify fun s => { s with tx := f s.tx }

/-- Read a field of the header, store it and check it. -/
def readHeader {α : Type} (read : BufferM (Option α)) (store : TxHeader → α → TxHeader)
    (check : α → Bool) : ParseM Bool := do
  match ← onBuf read with
  | none => return false
  | some v =>
    modifyTx fun tx => tx.setHeader (store tx.header v)
    return check v

/-- Run `parse` on `&tx->contract.addr`. -/
def intoContractAddr (parse : TxParameter → BufferM (Bool × TxParameter)) : ParseM Bool :=
  intoField (·.contract.addr)
    (fun tx param => tx.setContract { tx.contract with addr := param }) parse

def Transaction.setMethodName (tx : Transaction) (param : TxParameter) : Transaction :=
  { tx with method := { tx.method with name := param } }

/-- Run `parse` on `&tx->method.name`. -/
def intoMethodName (parse : TxParameter → BufferM (Bool × TxParameter)) : ParseM Bool :=
  intoField (·.method.name) Transaction.setMethodName parse

variable [BufferSdk] (cfg : Config)

def transactionDeserializeHeader : ParseM ParserStatus := do
  if (← get).buf.size > cfg.maxTransactionLen then
    return .lengthWrong
  else if ← readHeader bufferReadU8 (fun h v => { h with version := v }) (· == 0x00) <&&>
      -- checked later
      readHeader bufferReadU8 (fun h v => { h with txType := v }) (fun _ => true) <&&>
      readHeader bufferReadU32Le (fun h v => { h with nonce := v }) (fun _ => true) <&&>
      readHeader bufferReadU64Le (fun h v => { h with gasPrice := v })
        (fun v => decide (gasPriceMin ≤ v)) <&&>
      (do
        let gasPrice := (← get).tx.header.gasPrice
        readHeader bufferReadU64Le (fun h v => { h with gasLimit := v })
          (fun v => decide (gasLimitMin ≤ v ∧ v ≤ tokenAmount / gasPrice))) <&&>
      (do
        let payer := (← get).buf.offset
        modifyTx fun tx => tx.setHeader { tx.header with payer := some payer }
        onBuf (bufferSeekCur addressScriptHashLen)) then
    return .ok
  else
    return .bytecodeWrong

/-- The size after a first byte of the prefix. -/
def readPayloadSize (firstByte : UInt8) : BufferM (Option Nat) :=
  match firstByte with
  | 0xfd => bufferReadU16Le
  | 0xfe => bufferReadU32Le
  | 0xff => bufferReadU64Le
  | _ => return some firstByte.toNat

/-- The size is converted to `size_t` before it is compared. -/
def transactionDeserializePayloadSize : ParseM ParserStatus := do
  match ← onBuf bufferReadU8 with
  | none => return .bytecodeWrong
  | some firstByte =>
    if firstByte = 0 then
      return .bytecodeWrong
    else
      match ← onBuf (readPayloadSize firstByte) with
      | none => return .bytecodeWrong
      | some payloadSize =>
        let buf := (← get).buf
        if cfg.addSize (cfg.addSize buf.offset payloadSize) opcodeEnd.length ≠ buf.size then
          return .lengthWrong
        else
          return .ok

def setContractType (type : TxContractType) : ParseM Unit :=
  modifyTx fun tx => tx.setContract { tx.contract with type := type }

/-- `buf->offset == buf->size`. -/
def atEnd : ParseM Bool := do
  let buf := (← get).buf
  return decide (buf.offset = buf.size)

/-- The contract of a native call, read off the end of the buffer. -/
def deserializeNativeContract (os size : Nat) : ParseM ParserStatus := do
  setContractType .native
  if ← onBuf (bufferCanRead nativeContractConstantLength) <&&>
      onBuf (bufferSeekSet (cfg.subSize size nativeContractConstantLength)) <&&>
      intoContractAddr (parseAddress true) <&&>
      onBuf (parseCheckConstant opcodeSyscall) <&&>
      onBuf (parseCheckConstant nativeInvoke) <&&>
      onBuf (parseCheckConstant opcodeEnd) <&&>
      atEnd <&&> onBuf (bufferSeekSet os) then
    return .ok
  else
    return .bytecodeWrong

/-- The contract of a NEOVM call, read off the end of the buffer. -/
def deserializeNeovmContract (os size : Nat) : ParseM ParserStatus := do
  setContractType .neovm
  if ← onBuf (bufferCanRead neovmContractConstantLength) <&&>
      onBuf (bufferSeekSet (cfg.subSize size neovmContractConstantLength)) <&&>
      onBuf (parseCheckConstant opcodeAppcall) <&&>
      intoContractAddr (parseAddress false) <&&>
      onBuf (parseCheckConstant opcodeEnd) <&&>
      atEnd <&&> onBuf (bufferSeekSet os) then
    return .ok
  else
    return .bytecodeWrong

/-- A byte near the end of the buffer tells a native call from a NEOVM call. -/
def transactionDeserializeContract : ParseM ParserStatus := do
  let s ← get
  let os := s.buf.offset
  let size := s.buf.size
  match s.tx.header.txType with
  | 0xd1 =>
    if ← onBuf (bufferCanRead (opcodeEnd.length + addressScriptHashLen + 1)) then
      let discriminator ← Prog.ofExcept (readPtr s.buf.ptr
        (some (cfg.subSize size (opcodeEnd.length + addressScriptHashLen + 1))) 1)
      if discriminator ≠ opcodeAppcall then
        deserializeNativeContract cfg os size
      else
        deserializeNeovmContract cfg os size
    else
      return .bytecodeWrong
  | 0xd2 =>
    setContractType .wasmvm
    if ← intoContractAddr (parseAddress false) then return .ok else return .bytecodeWrong
  | _ => return .bytecodeWrong

/-- The index after a delimiter at `i`, if there is one. -/
def delimiterAt (type : TxContractType) (sEnd i : Nat) : BufferM (Option Nat) := do
  if ← pure (decide (type = .native ∧ i ≤ cfg.subSize sEnd (opcodeParamStEnd.length - 2))) <&&>
      memcmpAt i opcodeParamStEnd then
    return some (i + opcodeParamStEnd.length)
  else if ← memcmpAt i opcodePack then
    return some (i + opcodePack.length)
  else
    return none

/-- The scan for the delimiter before the method name, from index `i` down to `sBegin`; the
result is `cur`. Below index zero the unsigned `i` wraps, and the next read is outside. -/
def scanMethod (type : TxContractType) (sBegin sEnd : Nat) : Nat → BufferM Nat
  | 0 => do
    if 0 < sBegin then
      return 0
    else
      match ← delimiterAt cfg type sEnd 0 with
      | some cur => return cur
      | none => throw (.byte (cfg.sizeMod - 1))
  | i + 1 => do
    if i + 1 < sBegin then
      return 0
    else
      match ← delimiterAt cfg type sEnd (i + 1) with
      | some cur => return cur
      | none => scanMethod type sBegin sEnd i

/-- The method name between the delimiter and the fixed end. `ARRAY_LENGTH(OPCODE_PACK) - 2` is
below zero on `size_t`. -/
def deserializeMethodBefore (type : TxContractType) (constantLength : Nat) :
    ParseM ParserStatus := do
  let buf := (← get).buf
  let sBegin := buf.offset
  let sEnd := cfg.subSize buf.size constantLength
  let back := cfg.subSize opcodePack.length 2
  if sEnd < sBegin ∨ sEnd > buf.size ∨ sEnd < cfg.addSize sBegin back then
    return .bytecodeWrong
  else
    let cur ← onBuf (scanMethod cfg type sBegin sEnd (cfg.subSize sEnd back))
    let methodIntentLength := cfg.subSize (cfg.subSize sEnd 1) cur
    if ← onBuf (bufferSeekSet cur) <&&> pure (decide (methodIntentLength ≠ 0)) <&&>
        intoMethodName parseMethodName <&&>
        (do return decide ((← get).tx.method.name.len = methodIntentLength)) <&&>
        onBuf (bufferSeekSet sBegin) then
      return .ok
    else
      return .bytecodeWrong

def transactionDeserializeMethod : ParseM ParserStatus := do
  match (← get).tx.contract.type with
  | .native => deserializeMethodBefore cfg .native nativeContractConstantLength
  | .neovm => deserializeMethodBefore cfg .neovm neovmContractConstantLength
  | .wasmvm =>
    match ← onBuf bufferReadU8 with
    | none => return .bytecodeWrong
    | some remainingSize =>
      let buf := (← get).buf
      if ← pure (decide (remainingSize ≠ 0 ∧ remainingSize.toNat =
            cfg.subSize (cfg.subSize buf.size buf.offset) opcodeEnd.length)) <&&>
          intoMethodName parseMethodName then
        return .ok
      else
        return .bytecodeWrong
  | .unknown => return .bytecodeWrong

/-- The loop over the transfer states, with its lookahead `buf->ptr[buf->offset]`; the result is
`num`, if every state was parsed. -/
def transferStates : Nat → Nat → Nat → ParseM (Option Nat)
  | 0, _, _ => throw .diverged
  | fuel + 1, num, cur => do
    let buf := (← get).buf
    let lookahead ← Prog.ofExcept (readPtr buf.ptr (some buf.offset) 1)
    if lookahead = opcodeStBegin.take 1 then
      match ← parseTransferState cfg cur cur with
      | none => return none
      | some cur => transferStates fuel (cfg.addSize num 1) cur
    else
      return some num

def nativeTransferDeserializeParams : ParseM ParserStatus := do
  match ← transferStates cfg ((← get).buf.size + 1) 0 0 with
  | none => return .bytecodeWrong
  | some num =>
    if ← onBuf (parseCheckAmount num) <&&> onBuf (parseCheckConstant opcodePack) then
      return .ok
    else
      return .bytecodeWrong

/-- `memcmp(tx->contract.addr.data, addr, ADDRESS_SCRIPT_HASH_LEN) == 0`. -/
def contractIs (addr : List UInt8) : ParseM Bool := do
  let s ← get
  return (← Prog.ofExcept (readPtr s.buf.ptr s.tx.contract.addr.data addressScriptHashLen)) == addr

def methodIs (name : String) : ParseM Bool := do
  let s ← get
  Prog.ofExcept (methodcmp s.buf.ptr s.tx.method.name name)

def setTicker (ticker : String) : ParseM Unit :=
  modifyTx fun tx => tx.setContract { tx.contract with ticker := some ticker }

def setTokenDecimals (decimals : Nat) : ParseM Unit :=
  modifyTx fun tx => tx.setContract { tx.contract with tokenDecimals := decimals }

/-- The registered signature of the method, the first one with its name. -/
def findMethod : List TxMethodSignature → ParseM (Option (List TxParameterType))
  | [] => return none
  | m :: ms => do
    if ← methodIs m.name then return some m.parameters else findMethod ms

/-- The entry of the contract, the first one with its address. -/
def findPayload : List Payload → ParseM (Option Payload)
  | [] => return none
  | p :: ps => do
    if ← contractIs p.contractAddr then return some p else findPayload ps

/-- The checks after the arguments, which depend on the virtual machine. -/
def closeParams (paramsNum : Nat) : ParseM Bool := do
  match (← get).tx.contract.type with
  | .native => onBuf (parseCheckConstant opcodeStEnd)
  | .neovm => onBuf (parseCheckAmount paramsNum) <&&> onBuf (parseCheckConstant opcodePack)
  | .wasmvm => onBuf (parseCheckConstant opcodeEnd)
  | .unknown => return true

/-- A native call keeps the decimals it has. -/
def setRegisteredToken (payload : Payload) : ParseM Unit := do
  setTicker payload.ticker
  if (← get).tx.contract.type ≠ .native then
    setTokenDecimals payload.tokenDecimals
  else
    return ()

/-- The parameters by the table of registered contracts. -/
def registeredParams : ParseM ParserStatus := do
  match ← findPayload getTxPayload with
  | none => return .txNotDefined
  | some payload =>
    setRegisteredToken payload
    match ← findMethod payload.methods with
    | none => return .txNotDefined
    | some parameters =>
      match ← parseMethodParams cfg parameters 0 0 with
      | none => return .bytecodeWrong
      | some paramsNum =>
        if ← closeParams paramsNum then return .ok else return .bytecodeWrong

/-- The opening of the native arguments that are not a list of transfers. -/
def nativeParams : ParseM ParserStatus := do
  if ← onBuf (parseCheckConstant opcodeStBegin) then
    registeredParams cfg
  else
    return .bytecodeWrong

/-- The parameters of a call of a native token. -/
def nativeTokenParams (isOnt isOng : Bool) : ParseM ParserStatus := do
  let isTransfer ← methodIs methodTransfer
  let isTransferV2 ← methodIs methodTransferV2
  let isTransferFromV2 ← methodIs methodTransferFromV2
  let isApproveV2 ← methodIs methodApproveV2
  let decimals := if isOng then ongDecimals else ontDecimals
  setTokenDecimals
    (if isTransferV2 || isTransferFromV2 || isApproveV2 then decimals + 9 else decimals)
  if isTransfer || isTransferV2 then
    setTicker (if isOnt then ontTicker else ongTicker)
    nativeTransferDeserializeParams cfg
  else
    nativeParams cfg

def transactionDeserializeParams : ParseM ParserStatus := do
  if (← get).tx.contract.type = .native then
    setTokenDecimals ontDecimals
    let isOnt ← contractIs ontAddr
    let isOng ← contractIs ongAddr
    if isOnt || isOng then
      nativeTokenParams cfg isOnt isOng
    else
      nativeParams cfg
  else
    registeredParams cfg

/-- How much of the buffer is left after the arguments. -/
def trailingLength (tx : Transaction) : Option Nat :=
  match tx.contract.type with
  | .native => some (tx.method.name.len + 1 + nativeContractConstantLength)
  | .neovm => some (tx.method.name.len + 1 + neovmContractConstantLength)
  | .wasmvm => some 0
  | .unknown => none

def checkLength : ParseM ParserStatus := do
  let s ← get
  match trailingLength s.tx with
  | none => return .bytecodeWrong
  | some len =>
    if cfg.addSize s.buf.offset len = s.buf.size then return .ok else return .lengthWrong

/-- Run the next stage if this one succeeds. -/
def andThen (stage next : ParseM ParserStatus) : ParseM ParserStatus := do
  match ← stage with
  | .ok => next
  | status => return status

def transactionDeserialize : ParseM ParserStatus :=
  andThen (transactionDeserializeHeader cfg) <|
  andThen (transactionDeserializePayloadSize cfg) <|
  andThen (transactionDeserializeContract cfg) <|
  andThen (transactionDeserializeMethod cfg) <|
  andThen (transactionDeserializeParams cfg) <|
  checkLength cfg

end AppOnt
