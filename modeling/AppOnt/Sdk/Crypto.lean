import AppOnt.Library.Digest
import AppOnt.Transaction.Types

/-!
# The SDK's cryptography

The digests, which may fail, and the two calls that use the device's seed. A
path is the array `bip32_path` with the number of entries in use; the calls see
these entries only.
-/
namespace AppOnt

def uncompressedKeyLen : Nat := 65
def chainCodeLen : Nat := 32

/-- What `bip32_derive_get_pubkey_256` writes. -/
structure PublicKey where
  rawPublicKey : List UInt8
  chainCode : List UInt8
  deriving DecidableEq

/-- What `bip32_derive_ecdsa_sign_hash_256` writes. -/
structure Signature where
  der : List UInt8
  info : UInt32
  deriving DecidableEq

class CryptoSdk where
  cxSha256Hash : List UInt8 → Option (List UInt8)
  cxRipemd160Hash : List UInt8 → Option (List UInt8)
  /-- The contexts of a digest that is computed piecewise. -/
  CxSha256 : Type
  cxSha256Init : CxSha256
  cxHashUpdate : CxSha256 → List UInt8 → Option CxSha256
  cxHashFinal : CxSha256 → Option (List UInt8)
  bip32DeriveGetPubkey256 : List UInt32 → Except Nat PublicKey
  bip32DeriveEcdsaSignHash256 : List UInt32 → List UInt8 → Except Nat Signature
  sha256_length {bs h : List UInt8} : cxSha256Hash bs = some h → h.length = 32
  ripemd160_length {bs h : List UInt8} : cxRipemd160Hash bs = some h → h.length = 20
  pubkey_length {path : List UInt32} {key : PublicKey} : bip32DeriveGetPubkey256 path = .ok key →
    key.rawPublicKey.length = uncompressedKeyLen ∧ key.chainCode.length = chainCodeLen

/-- No digest fails. -/
class CryptoSdk.Total [CryptoSdk] : Prop where
  sha256_isSome (bs : List UInt8) : (cxSha256Hash bs).isSome
  ripemd160_isSome (bs : List UInt8) : (cxRipemd160Hash bs).isSome

/-- What else is documented: the length of a digest that is computed piecewise, the bound on a
signature, and that the low half of an error code is no status word of the application. -/
class CryptoSdk.Documented [CryptoSdk] : Prop where
  hashFinal_length {ctx : CxSha256} {h : List UInt8} : cxHashFinal ctx = some h → h.length = 32
  der_length {path : List UInt32} {h : List UInt8} {sig : Signature} :
    bip32DeriveEcdsaSignHash256 path h = .ok sig → sig.der.length ≤ 72
  cxErr_not_mem {path : List UInt32} {e : Nat} : bip32DeriveGetPubkey256 path = .error e →
    e % 2 ^ 16 ∉ statusWords

/-- The base point of the curve, a public key like any other. -/
def basePoint : List UInt8 :=
  [0x04,
   0x6b, 0x17, 0xd1, 0xf2, 0xe1, 0x2c, 0x42, 0x47, 0xf8, 0xbc, 0xe6, 0xe5, 0x63, 0xa4, 0x40, 0xf2,
   0x77, 0x03, 0x7d, 0x81, 0x2d, 0xeb, 0x33, 0xa0, 0xf4, 0xa1, 0x39, 0x45, 0xd8, 0x98, 0xc2, 0x96,
   0x4f, 0xe3, 0x42, 0xe2, 0xfe, 0x1a, 0x7f, 0x9b, 0x8e, 0xe7, 0xeb, 0x4a, 0x7c, 0x0f, 0x9e, 0x16,
   0x2b, 0xce, 0x33, 0x57, 0x6b, 0x31, 0x5e, 0xce, 0xcb, 0xb6, 0x40, 0x68, 0x37, 0xbf, 0x51, 0xf5]

/-- The digests, on a device where every path leads to one key. -/
@[reducible] def CryptoSdk.reference : CryptoSdk where
  cxSha256Hash bs := some (Digest.sha256 bs)
  cxRipemd160Hash bs := some (Digest.ripemd160 bs)
  CxSha256 := List UInt8
  cxSha256Init := []
  cxHashUpdate ctx bs := some (ctx ++ bs)
  cxHashFinal ctx := some (Digest.sha256 ctx)
  bip32DeriveGetPubkey256 _ := .ok ⟨basePoint, List.replicate chainCodeLen 0⟩
  bip32DeriveEcdsaSignHash256 _ _ := .ok ⟨List.replicate 70 0x30, 0⟩
  sha256_length h := Option.some.inj h ▸ Digest.length_sha256 _
  ripemd160_length h := Option.some.inj h ▸ Digest.length_ripemd160 _
  pubkey_length h := by
    cases h
    exact ⟨rfl, List.length_replicate⟩

theorem CryptoSdk.reference_total : @CryptoSdk.Total CryptoSdk.reference :=
  @CryptoSdk.Total.mk CryptoSdk.reference (fun _ => rfl) fun _ => rfl

theorem CryptoSdk.reference_documented : @CryptoSdk.Documented CryptoSdk.reference :=
  @CryptoSdk.Documented.mk CryptoSdk.reference
    (fun h => Option.some.inj h ▸ Digest.length_sha256 _) (fun h => by cases h; decide)
    fun h => by cases h

end AppOnt
