import AppOnt.Library.Recognizer
import AppOnt.Transaction.Types

/-!
# Programs over a read buffer

The SDK's buffer calls and the application's own reads of `buf->ptr` as
programs on the buffer, each with the states that it ends in on success.
-/
namespace AppOnt

/-- Code that reads a `buffer_t`. -/
abbrev BufferM := Prog Fault Buffer

section
variable [BufferSdk]

def bufferCanRead (n : Nat) : BufferM Bool := do
  return BufferSdk.bufferCanRead (← get) n

def bufferSeekSet (n : Nat) : BufferM Bool := do
  match BufferSdk.bufferSeekSet (← get) n with
  | some b => set b; return true
  | none => return false

def bufferSeekCur (n : Nat) : BufferM Bool := do
  match BufferSdk.bufferSeekCur (← get) n with
  | some b => set b; return true
  | none => return false

def bufferReadU8 : BufferM (Option UInt8) := Prog.attempt BufferSdk.bufferReadU8
def bufferReadU16Le : BufferM (Option Nat) := Prog.attempt BufferSdk.bufferReadU16Le
def bufferReadU32Le : BufferM (Option Nat) := Prog.attempt BufferSdk.bufferReadU32Le
def bufferReadU64Le : BufferM (Option Nat) := Prog.attempt BufferSdk.bufferReadU64Le

end

/-- `memcmp(buf->ptr + k, bs, sizeof(bs)) == 0`, which reads all the bytes it compares. -/
def memcmpAt (k : Nat) (bs : List UInt8) : BufferM Bool := do
  let b ← get
  let read ← Prog.ofExcept (readPtr b.ptr (some k) bs.length)
  return read == bs

open Prog

theorem memcmpAt_returns {k : Nat} {bs : List UInt8} {b : Buffer} (h : k + bs.length ≤ b.size) :
    Returns (memcmpAt k bs) b true fun b' => (b.ptr.drop k).take bs.length = bs ∧ b' = b := by
  have hr : readPtr b.ptr (some k) bs.length = .ok ((b.ptr.drop k).take bs.length) :=
    readPtr_eq_ok.mpr ⟨k, rfl, h, rfl⟩
  simp [Returns, memcmpAt, hr]

variable [BufferSdk] (b : Buffer)

theorem bufferCanRead_returns (n : Nat) :
    Returns (bufferCanRead n) b true fun b' => n ≤ b.rest.length ∧ b' = b := by
  simp [Returns, bufferCanRead, Buffer.length_rest, BufferSdk.canRead_iff]

theorem bufferSeekSet_returns (n : Nat) :
    Returns (bufferSeekSet n) b true fun b' => b'.ptr = b.ptr ∧ b'.offset = n := by
  simp only [← BufferSdk.seekSet_iff, Returns, bufferSeekSet, ensures_bind, ensures_get]
  cases BufferSdk.bufferSeekSet b n <;> simp [eq_comm]

theorem bufferSeekCur_returns (n : Nat) :
    Returns (bufferSeekCur n) b true fun b' => ∃ bs, bs.length = n ∧ b.Consumes bs b' := by
  simp only [← BufferSdk.seekCur_iff, Returns, bufferSeekCur, ensures_bind, ensures_get]
  cases BufferSdk.bufferSeekCur b n <;> simp [eq_comm]

theorem bufferReadU8_delivers :
    Delivers bufferReadU8 b fun x b' => b.Consumes [x] b' :=
  (delivers_attempt _).congr fun x b' => (BufferSdk.readU8_iff b x b').symm

theorem bufferReadU16Le_delivers : Delivers bufferReadU16Le b fun n b' =>
    ∃ bs, leNat bs = n ∧ bs.length = 2 ∧ b.Consumes bs b' :=
  (delivers_attempt _).congr fun n b' => (BufferSdk.readU16Le_iff b n b').symm

theorem bufferReadU32Le_delivers : Delivers bufferReadU32Le b fun n b' =>
    ∃ bs, leNat bs = n ∧ bs.length = 4 ∧ b.Consumes bs b' :=
  (delivers_attempt _).congr fun n b' => (BufferSdk.readU32Le_iff b n b').symm

theorem bufferReadU64Le_delivers : Delivers bufferReadU64Le b fun n b' =>
    ∃ bs, leNat bs = n ∧ bs.length = 8 ∧ b.Consumes bs b' :=
  (delivers_attempt _).congr fun n b' => (BufferSdk.readU64Le_iff b n b').symm

end AppOnt
