import AppOnt.Config
import AppOnt.Sdk.Buffer

/-!
# Transaction types

The constants and structures of `tx_types.h`. A pointer into the transaction is
the index of the byte it points at, `none` being `NULL`; the parameter array is
a function of the index, and an access beyond it is a fault of the program that
makes it.
-/
namespace AppOnt

/-- What an instrumented run stops at: a read or a write outside its object, an
8-bit counter that wraps, or a loop that does not end. -/
inductive Fault where
  | null
  | byte (index : Nat)
  | parameter (index : Nat)
  | pair (index : Nat)
  | text (index : Nat)
  | slot
  | wrap
  | diverged
  deriving DecidableEq, Repr

/-- The characters of a C string literal, without the closing NUL. -/
def chars (s : String) : List UInt8 := s.toList.map fun c => UInt8.ofNat c.toNat

/-- Bytes read through a pointer into `raw`. -/
def readPtr (raw : List UInt8) (data : Option Nat) (n : Nat) : Except Fault (List UInt8) :=
  match data with
  | none => .error .null
  | some k => if k + n ≤ raw.length then .ok ((raw.drop k).take n) else .error (.byte (k + n - 1))

theorem readPtr_eq_ok {raw : List UInt8} {data : Option Nat} {n : Nat} {bs : List UInt8} :
    readPtr raw data n = .ok bs ↔
      ∃ k, data = some k ∧ k + n ≤ raw.length ∧ bs = (raw.drop k).take n := by
  cases data with
  | none => simp [readPtr]
  | some k =>
    by_cases h : k + n ≤ raw.length <;> simp [readPtr, h, eq_comm]

theorem readPtr_append {raw : List UInt8} {k : Nat} {u v : List UInt8} :
    readPtr raw (some k) (u ++ v).length = .ok (u ++ v) ↔
      readPtr raw (some k) u.length = .ok u ∧
        readPtr raw (some (k + u.length)) v.length = .ok v := by
  simp only [readPtr_eq_ok, Option.some.injEq, exists_eq_left', List.length_append]
  constructor
  · rintro ⟨hk, h⟩
    rw [List.take_add, List.drop_drop] at h
    obtain ⟨hu, hv⟩ := List.append_inj h (by simp; omega)
    exact ⟨⟨by omega, hu⟩, by omega, hv⟩
  · rintro ⟨⟨hk, hu⟩, hk', hv⟩
    rw [List.take_add, List.drop_drop, ← hu, ← hv]
    exact ⟨by omega, rfl⟩

theorem readPtr_of_split {raw front bs r : List UInt8} (h : raw = front ++ (bs ++ r)) :
    readPtr raw (some front.length) bs.length = .ok bs :=
  readPtr_eq_ok.mpr ⟨_, rfl, by simp [h], by rw [h, List.drop_left, List.take_left]⟩

theorem readPtr_of_drop {raw bs r : List UInt8} {k : Nat} (h : raw.drop k = bs ++ r)
    (hne : bs ≠ []) : readPtr raw (some k) bs.length = .ok bs := by
  have hl := congrArg List.length h
  have hpos : 0 < bs.length := List.length_pos_iff.mpr hne
  rw [List.length_drop, List.length_append] at hl
  exact readPtr_eq_ok.mpr ⟨k, rfl, by omega, by rw [h, List.take_left]⟩

theorem Buffer.Consumes.readPtr {b b' : Buffer} {bs : List UInt8} (h : b.Consumes bs b') :
    readPtr b.ptr (some b.offset) bs.length = .ok bs := by
  have := b'.offset_le
  rw [h.offset, h.1] at this
  exact readPtr_eq_ok.mpr ⟨_, rfl, this, h.take.symm⟩

def gasPriceMin : Nat := 2500
def gasLimitMin : Nat := 20000

/-- `TOKEN_AMOUNT`, the total supply of ONT and of ONG. -/
def tokenAmount : Nat := 1000000000000000000

def addressScriptHashLen : Nat := 20
def compressedKeyLen : Nat := 33

/-- The fixed bytes that end a native and a NEOVM payload. -/
def nativeContractConstantLength : Nat := 47
def neovmContractConstantLength : Nat := 22

def opcodePushNumber : Nat := 0x50
def opcodeSyscall : List UInt8 := [0x00, 0x68]
def opcodeAppcall : List UInt8 := [0x67]
def opcodePack : List UInt8 := [0xc1]
def opcodeEnd : List UInt8 := [0x00]
def opcodeStBegin : List UInt8 := [0x00, 0xc6, 0x6b]
def opcodeStEnd : List UInt8 := [0x6c]
def opcodeParamEnd : List UInt8 := [0x6a, 0x7c, 0xc8]
def opcodeParamStEnd : List UInt8 := [0x6a, 0x7c, 0xc8, 0x6c]
def nativeInvoke : List UInt8 := 0x16 :: chars "Ontology.Native.Invoke"

inductive ParserStatus where
  | ok | txNotDefined | lengthWrong | bytecodeWrong
  deriving DecidableEq, Repr

inductive TxContractType where
  | unknown | native | neovm | wasmvm
  deriving DecidableEq, Repr

inductive TxParameterType where
  | paramEnd | addr | pubkey | amount | uint128 | ontid
  | pkAmountPairs | transferState | transferStateList
  deriving DecidableEq, Repr

structure TxHeader where
  version : UInt8
  txType : UInt8
  payer : Option Nat
  nonce : Nat
  gasPrice : Nat
  gasLimit : Nat
  deriving DecidableEq, Repr

structure TxParameter where
  data : Option Nat
  type : TxParameterType
  len : Nat
  deriving DecidableEq, Repr

def TxParameter.zero : TxParameter := ⟨none, .paramEnd, 0⟩

instance : Inhabited TxParameter := ⟨.zero⟩

structure TxContract where
  type : TxContractType
  addr : TxParameter
  ticker : Option String
  tokenDecimals : Nat
  deriving DecidableEq, Repr

structure TxMethod where
  name : TxParameter
  parameters : Nat → TxParameter

@[ext] structure Transaction where
  header : TxHeader
  contract : TxContract
  method : TxMethod

/-- The all-zero `transaction_t`. -/
def Transaction.zero : Transaction where
  header := ⟨0, 0, none, 0, 0, 0⟩
  contract := ⟨.unknown, .zero, none, 0⟩
  method := ⟨.zero, fun _ => .zero⟩

end AppOnt
