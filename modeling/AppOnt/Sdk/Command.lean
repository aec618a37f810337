import AppOnt.Sdk.Calls

/-!
# The SDK's command data

A command as `apdu_parser` delivers it, and the two calls that copy out of its
data. `buffer_read_bip32_path` fills an array of big-endian words; it fails for no
words, for more than ten and where bytes are missing, and may then have written
some words.
-/
namespace AppOnt

/-- `command_t`; `data` is `NULL` exactly if there is none, and its length is a byte. -/
structure Command where
  cla : UInt8
  ins : UInt8
  p1 : UInt8
  p2 : UInt8
  data : List UInt8
  length_lt : data.length < 256

def maxBip32Path : Nat := 10

/-- The value of big-endian bytes. -/
def beNat (bs : List UInt8) : Nat := bs.foldl (fun n b => 256 * n + b.toNat) 0

/-- The first `n` big-endian words. -/
def beWords : Nat → List UInt8 → List UInt32
  | 0, _ => []
  | n + 1, bs => UInt32.ofNat (beNat (bs.take 4)) :: beWords n (bs.drop 4)

@[simp] theorem length_beWords (n : Nat) (bs : List UInt8) : (beWords n bs).length = n := by
  induction n generalizing bs with
  | zero => rfl
  | succ n ih => rw [beWords, List.length_cons, ih]

/-- The calls with the result and the array after them, or the bytes that they copy. -/
class CommandSdk where
  bufferReadBip32Path : Buffer → (out : List UInt32) → (outLen : Nat) → Bool × List UInt32
  bufferMove : Buffer → (outLen : Nat) → Option (List UInt8)
  readPath_iff : ∀ b out n, (bufferReadBip32Path b out n).1 = true ↔
    0 < n ∧ n ≤ maxBip32Path ∧ 4 * n ≤ b.rest.length
  readPath_eq : ∀ b out n, (bufferReadBip32Path b out n).1 = true →
    (bufferReadBip32Path b out n).2 = beWords n b.rest ++ out.drop n
  readPath_length : ∀ b out n, out.length = maxBip32Path →
    (bufferReadBip32Path b out n).2.length = maxBip32Path
  move_iff : ∀ b n bs, bufferMove b n = some bs ↔ b.rest.length ≤ n ∧ bs = b.rest

/-- The calls as they are documented; the words up to the first missing byte are written. -/
@[reducible] def CommandSdk.reference : CommandSdk where
  bufferReadBip32Path b out n :=
    if n = 0 ∨ maxBip32Path < n then (false, out)
    else
      let k := min n (b.rest.length / 4)
      (decide (k = n), beWords k b.rest ++ out.drop k)
  bufferMove b n := if b.rest.length ≤ n then some b.rest else none
  readPath_iff b out n := by
    split
    · simp
      omega
    · simp only [decide_eq_true_eq]
      omega
  readPath_eq b out n h := by
    split
    · simp_all
    · rename_i hn
      rw [if_neg hn] at h
      simp only [decide_eq_true_eq] at h
      simp only [h]
  readPath_length b out n h := by
    split
    · exact h
    · simp only [List.length_append, length_beWords, List.length_drop, h]
      omega
  move_iff b n bs := by
    split <;> simp_all [eq_comm]

end AppOnt
