import AppOnt.Transaction.Types

/-!
# Decoding helpers

The decoders of `utils.c`: little-endian numbers, prefixed amounts, comparing a
method name and the BIP-44 prefix. Parameters point into `raw`, and a read
outside it is a fault.
-/
namespace AppOnt

/-- The loop `*out |= (uint64_t) amount[i] << (8 * i)` from index `i` on. -/
def orBytes : List UInt8 → Nat → Nat → Nat
  | [], _, out => out
  | b :: bs, i, out => orBytes bs (i + 1) (out ||| b.toNat <<< (8 * i))

def convertBytesToUint64Le (raw : List UInt8) (amount : Option Nat) (len : Nat) :
    Except Fault (Option Nat) := do
  if amount = none then return none
  if len > 8 ∨ len = 0 then return none
  let bs ← readPtr raw amount len
  return some (orBytes bs 0 0)

def convertParamToUint64Le (raw : List UInt8) (amount : TxParameter) :
    Except Fault (Option Nat) := do
  if amount.type ≠ .amount then return none
  if amount.len > 8 + 1 ∨ amount.len = 0 then return none
  let first ← readPtr raw amount.data 1
  let amt := (first.headD 0).toNat
  if amt = 0 then
    return if amount.len = 1 then some 0 else none
  if amt > opcodePushNumber ∧ amt ≤ opcodePushNumber + 16 then
    return if amount.len = 1 then some (amt - opcodePushNumber) else none
  if amount.len - 1 = amt then
    convertBytesToUint64Le raw (amount.data.map (· + 1)) amt
  else
    return none

/-- `strlen` of the name is compared first, so the pointer is read only at that length. -/
def methodcmp (raw : List UInt8) (param : TxParameter) (methodName : String) :
    Except Fault Bool := do
  if param.len = (chars methodName).length then
    return (← readPtr raw param.data param.len) == chars methodName
  else
    return false

theorem methodcmp_eq {raw : List UInt8} {param : TxParameter} {name : List UInt8}
    (hread : readPtr raw param.data param.len = .ok name) (hlen : param.len = name.length)
    (m : String) : methodcmp raw param m = .ok (decide (chars m = name)) := by
  unfold methodcmp
  split
  · simp [hread, bind, Except.bind, pure, Except.pure, Bool.beq_eq_decide_eq, eq_comm]
  · rename_i hne
    have : chars m ≠ name := fun he => hne (by rw [he, hlen])
    simp [this, pure, Except.pure]

def bip44Purpose : UInt32 := 0x8000002C
def bip44CoinType1024 : UInt32 := 0x80000400
def bip44CoinType888 : UInt32 := 0x80000378

def isValidBip44Prefix (path : List UInt32) (pathLen : Nat) : Bool :=
  if pathLen < 2 then false
  else path[0]? == some bip44Purpose &&
    (path[1]? == some bip44CoinType1024 || path[1]? == some bip44CoinType888)

/-- The check looks at entries in use only. -/
theorem isValidBip44Prefix_append {path rest : List UInt32} {n : Nat} (h : path.length = n) :
    isValidBip44Prefix (path ++ rest) n = isValidBip44Prefix path n := by
  unfold isValidBip44Prefix
  split
  · rfl
  · rw [List.getElem?_append_left (by omega), List.getElem?_append_left (by omega)]

theorem orBytes_eq (bs : List UInt8) (i out : Nat) (h : out < 2 ^ (8 * i)) :
    orBytes bs i out = out + leNat bs * 2 ^ (8 * i) := by
  induction bs generalizing i out with
  | nil => simp [orBytes, leNat]
  | cons b bs ih =>
    have hb := b.toNat_lt
    have hor : out ||| b.toNat <<< (8 * i) = out + b.toNat * 2 ^ (8 * i) := by
      rw [Nat.shiftLeft_eq, Nat.mul_comm, Nat.or_comm, ← Nat.two_pow_add_eq_or_of_lt h, Nat.add_comm]
    have hp : 2 ^ (8 * (i + 1)) = 256 * 2 ^ (8 * i) := by rw [Nat.mul_add, Nat.pow_add]; ring
    have hlt : out + b.toNat * 2 ^ (8 * i) < 2 ^ (8 * (i + 1)) := by
      rw [hp]
      have : b.toNat * 2 ^ (8 * i) ≤ 255 * 2 ^ (8 * i) := Nat.mul_le_mul_right _ (by omega)
      omega
    rw [orBytes, hor, ih _ _ hlt, hp, leNat]
    ring

/-- A number of one to eight bytes is read little-endian. -/
theorem convertBytesToUint64Le_eq {raw : List UInt8} {k : Nat} {bs : List UInt8}
    (hpos : bs ≠ []) (hle : bs.length ≤ 8) (hr : readPtr raw (some k) bs.length = .ok bs) :
    convertBytesToUint64Le raw (some k) bs.length = .ok (some (leNat bs)) := by
  simp [convertBytesToUint64Le, hr, orBytes_eq, show ¬ (bs.length > 8) by omega, hpos, bind,
    Except.bind, pure, Except.pure]

end AppOnt
