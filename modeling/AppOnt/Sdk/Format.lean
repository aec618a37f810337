import AppOnt.Library.Base58
import AppOnt.Library.Numeral

/-!
# The SDK's text formatting

The calls that write a text into a buffer of `dst_len` bytes. A call is given by
the text that it writes, `none` where it reports a failure; the closing NUL, which
`base58_encode` does not write, is left to the caller. What is documented of the
calls is a field: in a buffer that is long enough they write the exact decimal,
two digits for each byte, and 34 characters for an address.
-/
namespace AppOnt

class FormatSdk where
  formatFpu64Trimmed : (dstLen value decimals : Nat) → Option (List UInt8)
  formatU64 : (dstLen value : Nat) → Option (List UInt8)
  formatHex : List UInt8 → (dstLen : Nat) → Option (List UInt8)
  base58Encode : List UInt8 → (outLen : Nat) → Option (List UInt8)
  fpu64Trimmed_eq {dstLen value decimals : Nat} : value < 2 ^ 64 → 21 + decimals < dstLen →
    formatFpu64Trimmed dstLen value decimals = some (trimmed value decimals)
  u64_eq {dstLen value : Nat} : value < 2 ^ 64 → 20 < dstLen →
    formatU64 dstLen value = some (numeral value)
  hex_length {bs : List UInt8} {dstLen : Nat} : 2 * bs.length < dstLen →
    ∃ text, formatHex bs dstLen = some text ∧ text.length = 2 * bs.length
  base58_length {bs : List UInt8} {outLen : Nat} : bs.length = 24 → 34 ≤ outLen →
    ∃ text, base58Encode (0x17 :: bs) outLen = some text ∧ text.length = 34 ∧ (0 : UInt8) ∉ text

/-- `base58_encode` is the usual encoding, and fails exactly where there is no room for it. -/
class FormatSdk.StandardBase58 [FormatSdk] : Prop where
  base58Encode_eq (bs : List UInt8) (outLen : Nat) : base58Encode bs outLen =
    if (Base58.encode bs).length ≤ outLen then some (Base58.encode bs) else none

def hexDigit (d : Nat) : UInt8 := UInt8.ofNat (if d < 10 then 48 + d else 55 + d)

def hexText (bs : List UInt8) : List UInt8 :=
  bs.flatMap fun b => [hexDigit (b.toNat / 16), hexDigit (b.toNat % 16)]

theorem length_hexText (bs : List UInt8) : (hexText bs).length = 2 * bs.length := by
  induction bs with
  | nil => rfl
  | cons b bs ih =>
    rw [hexText, List.flatMap_cons, List.length_append, ← hexText, ih, List.length_cons]
    simp only [List.length_cons, List.length_nil]
    omega

/-- The bounds behind the 34 characters of an address. -/
theorem length_base58_preAddress {bs : List UInt8} (h : bs.length = 24) :
    (Base58.encode (0x17 :: bs)).length = 34 :=
  Base58.length_encode (by decide) (by rw [h]; decide) (by rw [h]; decide)

/-- The calls as they are documented. -/
@[reducible] def FormatSdk.reference : FormatSdk where
  formatFpu64Trimmed dstLen value decimals :=
    if value < 2 ^ 64 ∧ 21 + decimals < dstLen then some (trimmed value decimals) else none
  formatU64 dstLen value := if value < 2 ^ 64 ∧ 20 < dstLen then some (numeral value) else none
  formatHex bs dstLen := if 2 * bs.length < dstLen then some (hexText bs) else none
  base58Encode bs outLen :=
    if (Base58.encode bs).length ≤ outLen then some (Base58.encode bs) else none
  fpu64Trimmed_eq hv hd := if_pos ⟨hv, hd⟩
  u64_eq hv hd := if_pos ⟨hv, hd⟩
  hex_length {bs _} h := ⟨hexText bs, if_pos h, length_hexText bs⟩
  base58_length {bs _} h hn :=
    ⟨Base58.encode (0x17 :: bs), if_pos (by rw [length_base58_preAddress h]; exact hn),
      length_base58_preAddress h, Base58.zero_not_mem_encode _⟩

theorem FormatSdk.reference_standardBase58 : @FormatSdk.StandardBase58 FormatSdk.reference :=
  @FormatSdk.StandardBase58.mk FormatSdk.reference fun _ _ => rfl

end AppOnt
