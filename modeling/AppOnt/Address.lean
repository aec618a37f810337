import AppOnt.Sdk.Crypto
import AppOnt.Sdk.Format

/-!
# Addresses

`address.c`. A function returns its result with the bytes that it writes to
`out`, which has no closing NUL: the callers pass a zeroed field.
-/
namespace AppOnt

def addressVersion : UInt8 := 0x17
def addressScriptLen : Nat := 35
def scriptHashChecksumLen : Nat := 4
def base58AddressLen : Nat := 34
def opcodePushbytes21 : UInt8 := 0x21
def opcodeChecksig : UInt8 := 0xac

/-- The script of a public key. -/
def covertPkToAddressScript (uncompressedKey : List UInt8) : Option (List UInt8) :=
  if uncompressedKey.headD 0 ≠ 0x04 then none
  else
    let x := (uncompressedKey.drop 1).take 32
    let y := (uncompressedKey.drop 33).take 32
    let parity := if (y.getD 31 0) &&& 1 ≠ 0 then 0x03 else 0x02
    some (opcodePushbytes21 :: parity :: x ++ [opcodeChecksig])

open CryptoSdk FormatSdk

section
variable [CryptoSdk] [FormatSdk]

def hashScript (script : List UInt8) : Option (List UInt8) :=
  if script.length ≠ addressScriptLen ∨ script.headD 0 ≠ opcodePushbytes21 ∨
      script.getD 34 0 ≠ opcodeChecksig then none
  else cxSha256Hash script >>= cxRipemd160Hash

/-- The checksum of a versioned script hash. -/
def addressChecksum (scriptHash : List UInt8) : Option (List UInt8) :=
  (cxSha256Hash (addressVersion :: scriptHash) >>= cxSha256Hash).map (·.take scriptHashChecksumLen)

/-- `base58_encode` reports a failure by `-1`, which counts as true. -/
def convertScriptHashToBase58Address (outLen : Nat) (scriptHash : List UInt8) :
    Bool × List UInt8 :=
  if outLen < base58AddressLen then (false, [])
  else
    match addressChecksum scriptHash with
    | none => (false, [])
    | some checksum =>
      match base58Encode (addressVersion :: (scriptHash ++ checksum)) outLen with
      | some text => (decide (text ≠ []), text)
      | none => (true, [])

def convertUncompressedPubkeyToAddress (outLen : Nat) (uncompressedKey : List UInt8) :
    Bool × List UInt8 :=
  if outLen < base58AddressLen then (false, [])
  else
    match covertPkToAddressScript uncompressedKey >>= hashScript with
    | none => (false, [])
    | some hash => convertScriptHashToBase58Address outLen hash

/-- The path is that of the global context. -/
def deriveAddressFromBip32Path (bip32Path : List UInt32) (outLen : Nat) : Bool × List UInt8 :=
  match bip32DeriveGetPubkey256 bip32Path with
  | .error _ => (false, [])
  | .ok key => convertUncompressedPubkeyToAddress outLen key.rawPublicKey

/-- The text of an address. -/
def addressText (outLen : Nat) (scriptHash : List UInt8) : Option (List UInt8) :=
  (addressChecksum scriptHash).bind fun checksum =>
    base58Encode (addressVersion :: (scriptHash ++ checksum)) outLen

/-- The text of the address of a path. -/
def signerText (outLen : Nat) (bip32Path : List UInt32) : Option (List UInt8) :=
  match bip32DeriveGetPubkey256 bip32Path with
  | .error _ => none
  | .ok key => (covertPkToAddressScript key.rawPublicKey >>= hashScript).bind (addressText outLen)

variable {outLen : Nat} {scriptHash text : List UInt8} {path : List UInt32}

omit [FormatSdk] in
theorem addressChecksum_length {checksum : List UInt8}
    (h : addressChecksum scriptHash = some checksum) : checksum.length = scriptHashChecksumLen := by
  obtain ⟨hash, hhash, rfl⟩ := Option.map_eq_some_iff.mp h
  obtain ⟨hash₁, -, hhash₂⟩ := Option.bind_eq_some_iff.mp hhash
  rw [List.length_take, sha256_length hhash₂]
  rfl

omit [FormatSdk] in
theorem hashScript_length {script : List UInt8} (h : hashScript script = some scriptHash) :
    scriptHash.length = addressScriptHashLen := by
  unfold hashScript at h
  split at h
  · cases h
  · obtain ⟨hash, -, h⟩ := Option.bind_eq_some_iff.mp h
    exact ripemd160_length h

/-- With a checksum the encoding cannot fail, and has the length of an address. -/
theorem addressText_of_checksum {checksum : List UInt8} (hlen : scriptHash.length = 20)
    (hout : base58AddressLen ≤ outLen) (h : addressChecksum scriptHash = some checksum) :
    ∃ text, base58Encode (addressVersion :: (scriptHash ++ checksum)) outLen = some text ∧
      addressText outLen scriptHash = some text ∧ text.length = 34 ∧ (0 : UInt8) ∉ text := by
  have hbytes : (scriptHash ++ checksum).length = 24 := by
    rw [List.length_append, hlen, addressChecksum_length h]
    rfl
  obtain ⟨text, henc, hspec⟩ := base58_length hbytes hout
  exact ⟨text, henc, by rw [addressText, h]; exact henc, hspec⟩

theorem addressText_spec (hlen : scriptHash.length = addressScriptHashLen)
    (hout : base58AddressLen ≤ outLen) (h : addressText outLen scriptHash = some text) :
    text.length = 34 ∧ (0 : UInt8) ∉ text := by
  obtain ⟨checksum, hsum, -⟩ := Option.bind_eq_some_iff.mp h
  obtain ⟨text', -, h', hspec⟩ := addressText_of_checksum hlen hout hsum
  obtain rfl : text = text' := Option.some.inj (h.symm.trans h')
  exact hspec

theorem convertScriptHash_eq (hlen : scriptHash.length = addressScriptHashLen)
    (hout : base58AddressLen ≤ outLen) :
    convertScriptHashToBase58Address outLen scriptHash =
      ((addressText outLen scriptHash).isSome, (addressText outLen scriptHash).getD []) := by
  rw [convertScriptHashToBase58Address, if_neg (Nat.not_lt.mpr hout)]
  cases hsum : addressChecksum scriptHash with
  | none => simp [addressText, hsum]
  | some checksum =>
    obtain ⟨text, henc, htext, hl, -⟩ := addressText_of_checksum hlen hout hsum
    have hne : text ≠ [] := List.length_pos_iff.mp (by rw [hl]; decide)
    simp [henc, htext, hne]

theorem deriveAddress_eq (hout : base58AddressLen ≤ outLen) :
    deriveAddressFromBip32Path path outLen =
      ((signerText outLen path).isSome, (signerText outLen path).getD []) := by
  rw [deriveAddressFromBip32Path, signerText]
  cases bip32DeriveGetPubkey256 path with
  | error => rfl
  | ok key =>
    dsimp only
    rw [convertUncompressedPubkeyToAddress, if_neg (Nat.not_lt.mpr hout)]
    cases hhash : covertPkToAddressScript key.rawPublicKey >>= hashScript with
    | none => rfl
    | some hash =>
      obtain ⟨script, -, hscript⟩ := Option.bind_eq_some_iff.mp hhash
      exact convertScriptHash_eq (hashScript_length hscript) hout

theorem signerText_spec (hout : base58AddressLen ≤ outLen) (h : signerText outLen path = some text) :
    text.length = 34 ∧ (0 : UInt8) ∉ text := by
  unfold signerText at h
  split at h
  · cases h
  · obtain ⟨hash, hhash, htext⟩ := Option.bind_eq_some_iff.mp h
    obtain ⟨script, -, hscript⟩ := Option.bind_eq_some_iff.mp hhash
    exact addressText_spec (hashScript_length hscript) hout htext

/-- Where no digest fails every script hash has an address. -/
theorem addressText_isSome [CryptoSdk.Total] (hlen : scriptHash.length = addressScriptHashLen)
    (hout : base58AddressLen ≤ outLen) : (addressText outLen scriptHash).isSome := by
  obtain ⟨h₁, hh₁⟩ := Option.isSome_iff_exists.mp (Total.sha256_isSome (addressVersion :: scriptHash))
  obtain ⟨h₂, hh₂⟩ := Option.isSome_iff_exists.mp (Total.sha256_isSome h₁)
  have hsum : addressChecksum scriptHash = some (h₂.take scriptHashChecksumLen) := by
    simp [addressChecksum, hh₁, hh₂]
  obtain ⟨text, -, htext, -⟩ := addressText_of_checksum hlen hout hsum
  rw [htext]
  rfl

section
variable [StandardBase58]

omit [CryptoSdk] [FormatSdk] [StandardBase58] in
/-- The bounds behind the first character of an address. -/
theorem head_preAddress {bs : List UInt8} (h : bs.length = 24) :
    chars "A" <+: Base58.encode (addressVersion :: bs) := by
  have hhead : (Base58.encode (addressVersion :: bs)).head? = some (Base58.symbol 9) :=
    Base58.head_encode (n := 33) (by decide) (by decide) (by decide) (by rw [h]; decide)
      (by rw [h]; decide)
  obtain ⟨r, hr⟩ := List.head?_eq_some_iff.mp hhead
  have hA : chars "A" = [Base58.symbol 9] := by decide +kernel
  rw [hA, hr]
  exact ⟨r, rfl⟩

/-- The address of a script hash is the encoding of what its checksum completes. -/
theorem convertScriptHash_standard [CryptoSdk.Total] (hlen : scriptHash.length = addressScriptHashLen)
    (hout : base58AddressLen ≤ outLen) : ∃ checksum, addressChecksum scriptHash = some checksum ∧
      (scriptHash ++ checksum).length = 24 ∧
      base58Encode (addressVersion :: (scriptHash ++ checksum)) outLen =
        some (Base58.encode (addressVersion :: (scriptHash ++ checksum))) ∧
      convertScriptHashToBase58Address outLen scriptHash =
        (true, Base58.encode (addressVersion :: (scriptHash ++ checksum))) := by
  obtain ⟨text, htext⟩ := Option.isSome_iff_exists.mp (addressText_isSome hlen hout)
  obtain ⟨checksum, hsum, henc⟩ := Option.bind_eq_some_iff.mp htext
  have hbytes : (scriptHash ++ checksum).length = 24 := by
    rw [List.length_append, hlen, addressChecksum_length hsum]
    rfl
  have hfits : (Base58.encode (addressVersion :: (scriptHash ++ checksum))).length ≤ outLen := by
    have h34 : (Base58.encode (addressVersion :: (scriptHash ++ checksum))).length = 34 :=
      length_base58_preAddress hbytes
    rw [h34]
    exact hout
  have hstandard := StandardBase58.base58Encode_eq (addressVersion :: (scriptHash ++ checksum)) outLen
  rw [if_pos hfits] at hstandard
  refine ⟨checksum, hsum, hbytes, hstandard, ?_⟩
  rw [convertScriptHash_eq hlen hout, addressText, hsum, Option.bind_some, hstandard]
  rfl

/-- Every script hash has an address of 34 characters that starts with an A, and no other script
hash has the same one. -/
theorem scriptHash_address [CryptoSdk.Total] :
    (∀ (scriptHash : List UInt8) (outLen : Nat), scriptHash.length = addressScriptHashLen →
      base58AddressLen ≤ outLen → ∃ checksum text, addressChecksum scriptHash = some checksum ∧
        base58Encode (addressVersion :: (scriptHash ++ checksum)) outLen = some text ∧
        convertScriptHashToBase58Address outLen scriptHash = (true, text) ∧
        text.length = 34 ∧ chars "A" <+: text ∧ text ⊆ Base58.alphabet) ∧
    ∀ (scriptHash scriptHash' : List UInt8) (outLen outLen' : Nat),
      scriptHash.length = addressScriptHashLen → scriptHash'.length = addressScriptHashLen →
      base58AddressLen ≤ outLen → base58AddressLen ≤ outLen' →
      (convertScriptHashToBase58Address outLen scriptHash).2 =
        (convertScriptHashToBase58Address outLen' scriptHash').2 → scriptHash = scriptHash' := by
  refine ⟨fun h outLen hlen hout => ?_, fun h h' outLen outLen' hlen hlen' hout hout' heq => ?_⟩
  · obtain ⟨checksum, hsum, hbytes, henc, hconv⟩ := convertScriptHash_standard hlen hout
    exact ⟨checksum, _, hsum, henc, hconv, length_base58_preAddress hbytes, head_preAddress hbytes,
      Base58.encode_subset _⟩
  · obtain ⟨checksum, -, hbytes, -, hconv⟩ := convertScriptHash_standard hlen hout
    obtain ⟨checksum', -, hbytes', -, hconv'⟩ := convertScriptHash_standard hlen' hout'
    rw [hconv, hconv'] at heq
    have hcons := Base58.encode_inj (by decide) (by decide) (hbytes.trans hbytes'.symm) heq
    exact List.append_inj_left (List.cons.inj hcons).2 (hlen.trans hlen'.symm)

end

end

theorem scriptHash_address_sample :
    let := CryptoSdk.reference
    let := FormatSdk.reference
    ∃ text, convertScriptHashToBase58Address 67 (List.replicate 20 0x22) = (true, text) ∧
      text.length = 34 ∧ chars "A" <+: text := by
  let := CryptoSdk.reference
  let := FormatSdk.reference
  have := CryptoSdk.reference_total
  have := FormatSdk.reference_standardBase58
  obtain ⟨checksum, text, -, -, hconv, hlen, hA, -⟩ :=
    scriptHash_address.1 (List.replicate 20 0x22) 67 List.length_replicate (by decide)
  exact ⟨text, hconv, hlen, hA⟩

end AppOnt
