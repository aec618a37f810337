import AppOnt.Sdk.Calls
import AppOnt.Transaction.Utils

/-!
# Parsing parameters

The functions of `parse.c`. A function that fills in one parameter takes the
parameter as it is behind the pointer and returns it as it leaves it, so that it
is one definition for every place a parameter is stored in. A running index that
the source passes by pointer is passed by value and returned on success.
-/
namespace AppOnt

@[ext] structure ParserState where
  buf : Buffer
  tx : Transaction

/-- Code that reads a `buffer_t` and fills in a `transaction_t`. -/
abbrev ParseM := Prog Fault ParserState

def onBuf {α : Type} (x : BufferM α) : ParseM α :=
  Prog.within (·.buf) (fun s b => { s with buf := b }) x

def Transaction.setParameters (tx : Transaction) (f : Nat → TxParameter) : Transaction :=
  { tx with method := { tx.method with parameters := f } }

/-- Run `parse` on the address of a field of the transaction. -/
def intoField (field : Transaction → TxParameter) (put : Transaction → TxParameter → Transaction)
    (parse : TxParameter → BufferM (Bool × TxParameter)) : ParseM Bool := do
  let (ok, param) ← onBuf (parse (field (← get).tx))
  modify fun s => { s with tx := put s.tx param }
  return ok

/-- Run `parse` on `&tx->method.parameters[j]`. Handing out a pointer outside the array is
already a fault. -/
def intoParameter (cfg : Config) (j : Nat) (parse : TxParameter → BufferM (Bool × TxParameter)) :
    ParseM Bool := do
  if cfg.parametersMaxNum ≤ j then
    throw (.parameter j)
  else
    intoField (·.method.parameters j)
      (fun tx param => tx.setParameters (Function.update tx.method.parameters j param)) parse

variable [BufferSdk]

def parseCheckConstant (str : List UInt8) : BufferM Bool :=
  bufferCanRead str.length <&&> (do memcmpAt (← get).offset str) <&&> bufferSeekCur str.length

/-- How many bytes an amount takes, from its first byte. -/
def amountLen (amt : Nat) : Option Nat :=
  if (amt > opcodePushNumber ∧ amt ≤ opcodePushNumber + 16) ∨ amt = 0 then some 1
  else if amt > 2 * 8 then none
  else some (amt + 1)

def parseAmount (out : TxParameter) : BufferM (Bool × TxParameter) := do
  match ← bufferReadU8 with
  | none => return (false, out)
  | some amt =>
    match amountLen amt.toNat with
    | none => return (false, out)
    | some len =>
      let b ← get
      return (← bufferSeekCur (len - 1), ⟨some (b.offset - 1), .amount, len⟩)

def parseGetAmount : BufferM (Option Nat) := do
  let (ok, tmp) ← parseAmount .zero
  if ok then
    Prog.ofExcept (convertParamToUint64Le (← get).ptr tmp)
  else
    return none

def parseCheckAmount (num : Nat) : BufferM Bool := do
  match ← parseGetAmount with
  | some out => return decide (out = num)
  | none => return false

def parseUint128 (out : TxParameter) : BufferM (Bool × TxParameter) := do
  if ← bufferCanRead 16 then
    let b ← get
    return (← bufferSeekCur 16, ⟨some b.offset, .uint128, 16⟩)
  else
    return (false, out)

def parsePk (out : TxParameter) : BufferM (Bool × TxParameter) := do
  match ← bufferReadU8 with
  | none => return (false, out)
  | some size =>
    if ← pure (decide (size.toNat = 2 * compressedKeyLen)) <&&>
        bufferCanRead (2 * compressedKeyLen) then
      let b ← get
      return (← bufferSeekCur size.toNat, ⟨some b.offset, .pubkey, size.toNat⟩)
    else
      return (false, out)

def parseOntId : BufferM Bool := do
  match ← bufferReadU8 with
  | none => return false
  | some size => pure (decide (size.toNat ≠ 0)) <&&> bufferSeekCur size.toNat

def parseAddress (hasLength : Bool) (out : TxParameter) : BufferM (Bool × TxParameter) := do
  let prefixLen := if hasLength then 1 else 0
  if ← bufferCanRead (addressScriptHashLen + prefixLen) <&&>
      (if hasLength then return (← bufferReadU8) == some 20 else return true) then
    let b ← get
    return (← bufferSeekCur addressScriptHashLen, ⟨some b.offset, .addr, addressScriptHashLen⟩)
  else
    return (false, out)

/-- The type of the parameter is left as it was. -/
def parseMethodName (out : TxParameter) : BufferM (Bool × TxParameter) := do
  match ← bufferReadU8 with
  | none => return (false, out)
  | some size =>
    if ← pure (decide (size.toNat ≠ 0)) <&&> bufferCanRead size.toNat then
      let b ← get
      return (← bufferSeekCur size.toNat, { out with data := some b.offset, len := size.toNat })
    else
      return (false, out)

variable (cfg : Config)

/-- The keys from the `i`-th on, into `pairs[i]`. -/
def parsePks (pairs pksNum : Nat) : Nat → Nat → ParseM Bool
  | 0, _ => throw .diverged
  | fuel + 1, i =>
    if i ≤ pksNum then
      intoParameter cfg (pairs + i) parsePk <&&> onBuf (parseCheckConstant opcodeParamEnd) <&&>
        parsePks pairs pksNum fuel (cfg.addSize i 1)
    else
      return true

/-- The amounts from the `i`-th on, into `pairs[pks_num + i]`. -/
def parsePkAmounts (pairs pksNum : Nat) : Nat → Nat → ParseM Bool
  | 0, _ => throw .diverged
  | fuel + 1, i =>
    if i ≤ pksNum then
      intoParameter cfg (pairs + (pksNum + i) % 2 ^ 64) parseAmount <&&>
        (if i ≠ pksNum then onBuf (parseCheckConstant opcodeParamEnd) else return true) <&&>
        parsePkAmounts pairs pksNum fuel (cfg.addSize i 1)
    else
      return true

/-- `pks_num * 2 + 1 + *cur` is computed on 64 bits. -/
def parsePkAmountPairs (pairs cur : Nat) : ParseM (Option Nat) := do
  if ← intoParameter cfg pairs parseAmount then
    let s ← get
    match ← Prog.ofExcept (convertParamToUint64Le s.buf.ptr (s.tx.method.parameters pairs)) with
    | none => return none
    | some pksNum =>
      let fuel := s.buf.size + 1
      if ← pure (decide (pksNum ≠ 0 ∧
            (pksNum * 2 + 1 + cur) % 2 ^ 64 ≤ cfg.parametersMaxNum)) <&&>
          onBuf (parseCheckConstant opcodeParamEnd) <&&>
          parsePks cfg pairs pksNum fuel 1 <&&>
          onBuf (parseCheckAmount pksNum) <&&> onBuf (parseCheckConstant opcodeParamEnd) <&&>
          parsePkAmounts cfg pairs pksNum fuel 1 then
        return some (cfg.addSize cur (pksNum * 2 + 1))
      else
        return none
  else
    return none

def parseTransferState (transferState cur : Nat) : ParseM (Option Nat) := do
  if ← pure (decide (cfg.addSize cur 3 ≤ cfg.parametersMaxNum)) <&&>
      onBuf (parseCheckConstant opcodeStBegin) <&&>
      intoParameter cfg transferState (parseAddress true) <&&>
      onBuf (parseCheckConstant opcodeParamEnd) <&&>
      intoParameter cfg (transferState + 1) (parseAddress true) <&&>
      onBuf (parseCheckConstant opcodeParamEnd) <&&>
      intoParameter cfg (transferState + 2) parseAmount <&&>
      onBuf (parseCheckConstant opcodeParamEnd) <&&>
      onBuf (parseCheckConstant opcodeStEnd) then
    return some (cfg.addSize cur 3)
  else
    return none

/-- One case of the `switch` of `parse_method_params`, with the index after it. -/
def parseMethodParam (param : TxParameterType) (cur : Nat) : ParseM (Option Nat) := do
  let type := (← get).tx.contract.type
  match param with
  | .addr =>
    if ← intoParameter cfg cur (parseAddress (decide (type ≠ .wasmvm))) then return some (cur + 1)
    else return none
  | .amount =>
    if ← intoParameter cfg cur parseAmount then return some (cur + 1) else return none
  | .uint128 =>
    if ← intoParameter cfg cur parseUint128 then return some (cur + 1) else return none
  | .pubkey => if ← intoParameter cfg cur parsePk then return some (cur + 1) else return none
  | .ontid => if ← onBuf parseOntId then return some cur else return none
  | .pkAmountPairs => parsePkAmountPairs cfg cur cur
  | .transferState => parseTransferState cfg cur cur
  | .paramEnd | .transferStateList => return none

/-- What closes a parameter in the loop of `parse_method_params`. -/
def parseParamEnd : ParseM Bool := do
  if (← get).tx.contract.type = .native then
    onBuf (parseCheckConstant opcodeParamEnd)
  else
    return true

/-- The loop of `parse_method_params`; the result is `*params_num`. -/
def parseMethodParams : List TxParameterType → Nat → Nat → ParseM (Option Nat)
  | [], _, paramsNum => return some paramsNum
  | param :: params, cur, paramsNum => do
    if cur ≥ cfg.parametersMaxNum then
      return none
    else
      match ← parseMethodParam cfg param cur with
      | none => return none
      | some cur =>
        if ← parseParamEnd then
          parseMethodParams params cur (paramsNum + 1)
        else
          return none

end AppOnt
