import AppOnt.Transaction.Contract

/-!
# The transaction format

The format that the parser is meant for, as a syntax with its serialization.
A serialized transaction is a list of tokens, so that its bytes and the
parameters the parser is to store for it are two readings of one list. The
syntax carries its side conditions: a count says how many things it counts, a
call is registered, and the arguments have the types of its signature.
-/
namespace AppOnt

/-- Byte strings of a given length. -/
abbrev Bytes (n : Nat) := { bs : List UInt8 // bs.length = n }

/-- Bytes without a parameter, or a parameter after the bytes that introduce it. -/
inductive Token where
  | mark (bs : List UInt8)
  | value (type : TxParameterType) (lead data : List UInt8)

namespace Token

def bytes : Token → List UInt8
  | mark bs => bs
  | value _ lead data => lead ++ data

def encode (ts : List Token) : List UInt8 := ts.flatMap bytes

/-- The number of parameters. -/
def slots : List Token → Nat
  | [] => 0
  | mark _ :: ts => slots ts
  | value _ _ _ :: ts => slots ts + 1

/-- The parameters of tokens that are serialized from `off` on. -/
def layout (off : Nat) : List Token → List TxParameter
  | [] => []
  | mark bs :: ts => layout (off + bs.length) ts
  | value type lead data :: ts =>
    ⟨some (off + lead.length), type, data.length⟩ :: layout (off + lead.length + data.length) ts

/-- The parameters with their types, in order. -/
def fields : List Token → List (TxParameterType × List UInt8)
  | [] => []
  | mark _ :: ts => fields ts
  | value type _ data :: ts => (type, data) :: fields ts

variable (u v : List Token) (t : Token) (off : Nat)

@[simp] theorem encode_nil : encode [] = [] := rfl
@[simp] theorem encode_cons : encode (t :: v) = t.bytes ++ encode v := rfl
@[simp] theorem encode_append : encode (u ++ v) = encode u ++ encode v := by simp [encode]

@[simp] theorem slots_append : slots (u ++ v) = slots u + slots v := by
  induction u with
  | nil => simp [slots]
  | cons t u ih => cases t <;> simp [slots, ih]; omega

@[simp] theorem length_layout : (layout off v).length = slots v := by
  induction v generalizing off with
  | nil => rfl
  | cons t v ih => cases t <;> simp [layout, slots, ih]

theorem length_fields : (fields v).length = slots v := by
  induction v with
  | nil => rfl
  | cons t v ih => cases t <;> simp [fields, slots, ih]

/-- What the parameters point at. -/
theorem layout_fields {raw front r : List UInt8} (h : raw = front ++ (encode v ++ r))
    {k : Nat} {type : TxParameterType} {data : List UInt8} (hk : (fields v)[k]? = some (type, data)) :
    ∃ q, (layout front.length v)[k]? = some q ∧ q.type = type ∧
      readPtr raw q.data q.len = .ok data := by
  induction v generalizing front k with
  | nil => simp [fields] at hk
  | cons t v ih =>
    cases t with
    | mark bs =>
      have hbs : raw = front ++ bs ++ (encode v ++ r) := by rw [h]; simp [bytes]
      have := ih hbs hk
      rwa [List.length_append] at this
    | value ty lead d =>
      cases k with
      | zero =>
        obtain ⟨rfl, rfl⟩ : ty = type ∧ d = data := by simpa [fields] using hk
        refine ⟨_, rfl, rfl, readPtr_eq_ok.mpr ⟨_, rfl, ?_, ?_⟩⟩
        · simp [h, bytes]
          omega
        · have hd : raw = front ++ lead ++ (d ++ (encode v ++ r)) := by rw [h]; simp [bytes]
          rw [hd, ← List.length_append, List.drop_left, List.take_left]
      | succ k =>
        have hd : raw = front ++ lead ++ d ++ (encode v ++ r) := by rw [h]; simp [bytes]
        have := ih hd hk
        rwa [List.length_append, List.length_append] at this

theorem layout_append : layout off (u ++ v) = layout off u ++ layout (off + (encode u).length) v := by
  induction u generalizing off with
  | nil => simp [layout]
  | cons t u ih => cases t <;> simp [layout, bytes, ih, Nat.add_assoc]

end Token

/-- `f` with `ps` stored from index `j` on. -/
def storeParameters (f : Nat → TxParameter) (j : Nat) : List TxParameter → Nat → TxParameter
  | [] => f
  | p :: ps => storeParameters (Function.update f j p) (j + 1) ps

theorem storeParameters_append (f : Nat → TxParameter) (j : Nat) (ps qs : List TxParameter) :
    storeParameters f j (ps ++ qs) = storeParameters (storeParameters f j ps) (j + ps.length) qs := by
  induction ps generalizing f j with
  | nil => rfl
  | cons p ps ih => simp [storeParameters, ih, Nat.add_assoc, Nat.add_comm 1]

theorem storeParameters_of_lt (f : Nat → TxParameter) {j k : Nat} (ps : List TxParameter)
    (h : k < j) : storeParameters f j ps k = f k := by
  induction ps generalizing f j with
  | nil => rfl
  | cons p ps ih =>
    rw [storeParameters, ih _ (by omega), Function.update_of_ne (by omega)]

/-- The array after a store: what was stored, and elsewhere what was there. -/
theorem storeParameters_add (f : Nat → TxParameter) (j i : Nat) (ps : List TxParameter) :
    storeParameters f j ps (j + i) = ps[i]?.getD (f (j + i)) := by
  induction ps generalizing f j i with
  | nil => rfl
  | cons p ps ih =>
    cases i with
    | zero => simp [storeParameters, storeParameters_of_lt]
    | succ i =>
      have := ih (Function.update f j p) (j + 1) i
      rw [storeParameters, show j + (i + 1) = j + 1 + i by omega, this,
        Function.update_of_ne (by omega)]
      simp

/-- An amount: zero, a number from 1 to 16 as an opcode, or a length and the little-endian
bytes of a number. -/
inductive AmountCode where
  | zero
  | push (n : Fin 16)
  | bytes (bs : List UInt8) (ne_nil : bs ≠ []) (le : bs.length ≤ 16)

namespace AmountCode

def encode : AmountCode → List UInt8
  | zero => [0x00]
  | push n => [UInt8.ofNat (opcodePushNumber + 1 + n)]
  | bytes bs _ _ => UInt8.ofNat bs.length :: bs

def value : AmountCode → Nat
  | zero => 0
  | push n => n + 1
  | bytes bs _ _ => leNat bs

/-- The value as a 64-bit number, if at most eight bytes are used for it. -/
def uint64? : AmountCode → Option Nat
  | zero => some 0
  | push n => some (n + 1)
  | bytes bs _ _ => if bs.length ≤ 8 then some (leNat bs) else none

def token (a : AmountCode) : Token := .value .amount [] a.encode

end AmountCode

/-- An amount of at most eight bytes that says how many things there are. -/
structure Count (n : Nat) where
  code : AmountCode
  value_eq : code.uint64? = some n

def Count.token {n : Nat} (c : Count n) : Token := .mark c.code.encode

/-- The end of a native parameter. -/
def paramEnd : Token := .mark opcodeParamEnd

/-- An address; the length byte is missing in a WASM call. -/
def addressToken (hasLength : Bool) (a : Bytes addressScriptHashLen) : Token :=
  .value .addr (if hasLength then [0x14] else []) a.1

def pubkeyToken (key : Bytes (2 * compressedKeyLen)) : Token := .value .pubkey [0x42] key.1

structure TransferState where
  source : Bytes addressScriptHashLen
  target : Bytes addressScriptHashLen
  amount : AmountCode

def TransferState.tokens (s : TransferState) : List Token :=
  [.mark opcodeStBegin, addressToken true s.source, paramEnd, addressToken true s.target, paramEnd,
    s.amount.token, paramEnd, .mark opcodeStEnd]

/-- A list of public keys and the list of their amounts, each after its length. -/
structure PkAmountPairs where
  pairs : List (Bytes (2 * compressedKeyLen) × AmountCode)
  ne_nil : pairs ≠ []
  keys : Count pairs.length
  amounts : Count pairs.length

namespace PkAmountPairs

def keyTokens (ks : List (Bytes (2 * compressedKeyLen))) : List Token :=
  ks.flatMap fun k => [pubkeyToken k, paramEnd]

/-- The last amount is not closed here but as a parameter of the method. -/
def amountTokens : List AmountCode → List Token
  | [] => []
  | [a] => [a.token]
  | a :: as => a.token :: paramEnd :: amountTokens as

/-- The first length is stored as a parameter, the second one is only checked. -/
def tokens (p : PkAmountPairs) : List Token :=
  p.keys.code.token :: paramEnd :: keyTokens (p.pairs.map (·.1)) ++
    (p.amounts.token :: paramEnd :: amountTokens (p.pairs.map (·.2)))

end PkAmountPairs

/-- The virtual machines that a call is made for. -/
inductive Vm where
  | native | neovm | wasmvm
  deriving DecidableEq, Repr

def Vm.contractType : Vm → TxContractType
  | native => .native
  | neovm => .neovm
  | wasmvm => .wasmvm

/-- An argument of a given type. -/
inductive Arg : TxParameterType → Type
  | addr (a : Bytes addressScriptHashLen) : Arg .addr
  | pubkey (key : Bytes (2 * compressedKeyLen)) : Arg .pubkey
  | amount (a : AmountCode) : Arg .amount
  | uint128 (n : Bytes 16) : Arg .uint128
  | ontid (id : List UInt8) (ne_nil : id ≠ []) (lt : id.length < 256) : Arg .ontid
  | pkAmountPairs (p : PkAmountPairs) : Arg .pkAmountPairs
  | transferState (s : TransferState) : Arg .transferState

def Arg.tokens (vm : Vm) : {type : TxParameterType} → Arg type → List Token
  | _, addr a => [addressToken (vm ≠ .wasmvm) a]
  | _, pubkey key => [pubkeyToken key]
  | _, amount a => [a.token]
  | _, uint128 n => [.value .uint128 [] n.1]
  | _, ontid id _ _ => [.mark (UInt8.ofNat id.length :: id)]
  | _, pkAmountPairs p => p.tokens
  | _, transferState s => s.tokens

/-- Arguments for a signature. -/
inductive Args : List TxParameterType → Type
  | nil : Args []
  | cons {type : TxParameterType} {types : List TxParameterType} (a : Arg type)
      (as : Args types) : Args (type :: types)

def Args.tokens (vm : Vm) : {types : List TxParameterType} → Args types → List Token
  | _, nil => []
  | _, cons a as => a.tokens vm ++ (if vm = .native then [paramEnd] else []) ++ as.tokens vm

/-- The arguments of a call with what encloses them. A list of transfers is closed by its
length, which is not written as the byte that also starts a transfer. -/
inductive Arguments : Vm → List TxParameterType → Type
  | transfers (states : List TransferState) (count : Count states.length)
      (marked : count.code ≠ .zero) : Arguments .native [.transferStateList]
  | native {types : List TxParameterType} (args : Args types) : Arguments .native types
  | neovm {types : List TxParameterType} (args : Args types) (count : Count types.length) :
      Arguments .neovm types
  | wasmvm {types : List TxParameterType} (args : Args types) : Arguments .wasmvm types

def Arguments.tokens {types : List TxParameterType} : {vm : Vm} → Arguments vm types → List Token
  | _, transfers states count _ =>
    states.flatMap TransferState.tokens ++ [count.token, .mark opcodePack]
  | _, native args => .mark opcodeStBegin :: args.tokens .native ++ [.mark opcodeStEnd]
  | _, neovm args count => args.tokens .neovm ++ [count.token, .mark opcodePack]
  | _, wasmvm args => args.tokens .wasmvm

def Arguments.length {types : List TxParameterType} {vm : Vm} (a : Arguments vm types) : Nat :=
  (Token.encode a.tokens).length

/-- A call of a registered method. The byte that gives the length of the name and the arguments
of a WASM call can hold it. -/
structure Call where
  vm : Vm
  payload : Payload
  registered : payload ∈ getTxPayload
  method : TxMethodSignature
  method_mem : method ∈ payload.methods
  arguments : Arguments vm method.parameters
  remaining_lt : vm = .wasmvm → (chars method.name).length + 1 + arguments.length < 256

namespace Call

variable (c : Call)

def nameToken : Token :=
  .mark (UInt8.ofNat (chars c.method.name).length :: chars c.method.name)

/-- What comes before the name of the method, and what comes after it. -/
def before : List Token :=
  match c.vm with
  | .native | .neovm => c.arguments.tokens
  | .wasmvm => [.mark c.payload.contractAddr,
      .mark [UInt8.ofNat ((chars c.method.name).length + 1 + c.arguments.length)]]

def after : List Token :=
  match c.vm with
  | .native => [.mark ([0x14] ++ c.payload.contractAddr), .mark opcodeSyscall, .mark nativeInvoke]
  | .neovm => [.mark opcodeAppcall, .mark c.payload.contractAddr]
  | .wasmvm => c.arguments.tokens

/-- The payload code. -/
def tokens : List Token := c.before ++ c.nameToken :: c.after

end Call

/-- A header that is admitted. -/
structure Header where
  nonce : Bytes 4
  gasPrice : Bytes 8
  gasLimit : Bytes 8
  payer : Bytes addressScriptHashLen
  gasPrice_min : gasPriceMin ≤ leNat gasPrice.1
  gasLimit_min : gasLimitMin ≤ leNat gasLimit.1
  fee_max : leNat gasPrice.1 * leNat gasLimit.1 ≤ tokenAmount

def Header.encode (h : Header) (txType : UInt8) : List UInt8 :=
  [0x00, txType] ++ h.nonce.1 ++ h.gasPrice.1 ++ h.gasLimit.1 ++ h.payer.1

/-- The four forms of the payload size. -/
inductive SizePrefix where
  | byte (b : UInt8) (pos : b ≠ 0) (lt : b < 0xfd)
  | uint16 (bs : Bytes 2)
  | uint32 (bs : Bytes 4)
  | uint64 (bs : Bytes 8)

namespace SizePrefix

def encode : SizePrefix → List UInt8
  | byte b _ _ => [b]
  | uint16 bs => 0xfd :: bs.1
  | uint32 bs => 0xfe :: bs.1
  | uint64 bs => 0xff :: bs.1

def value : SizePrefix → Nat
  | byte b _ _ => b.toNat
  | uint16 bs => leNat bs.1
  | uint32 bs => leNat bs.1
  | uint64 bs => leNat bs.1

end SizePrefix

def Vm.txType : Vm → UInt8
  | native | neovm => 0xd1
  | wasmvm => 0xd2

/-- A transaction that calls a registered method. -/
structure Signable where
  header : Header
  sizePrefix : SizePrefix
  call : Call

namespace Signable

variable (x : Signable)

def tokens : List Token :=
  .mark (x.header.encode x.call.vm.txType) :: .mark x.sizePrefix.encode :: x.call.tokens ++
    [.mark opcodeEnd]

def encode : List UInt8 := Token.encode x.tokens

end Signable

end AppOnt
