import AppOnt.App.Effect

/-!
# The response unpacker

The functions of the tests' application client that take an answer apart. A length
in front of bytes that are missing is not noticed, as a slice is cut short, so a
response is not determined by what is unpacked of it; what the device answers is
unpacked as it was.
-/
namespace AppOnt

def popSizedBufFromBuffer (buffer : List UInt8) (size : Nat) : List UInt8 × List UInt8 :=
  (buffer.drop size, buffer.take size)

/-- `pop_size_prefixed_buf_from_buf`, which needs a first byte. -/
def popSizePrefixedBufFromBuf : List UInt8 → Option (List UInt8 × Nat × List UInt8)
  | [] => none
  | dataLen :: buffer => some (buffer.drop dataLen.toNat, dataLen.toNat, buffer.take dataLen.toNat)

/-- `response.decode("ascii")`. -/
def unpackGetAppNameResponse (response : List UInt8) : Option String :=
  if response.all (· < 128) then some (String.ofList (response.map fun b => Char.ofNat b.toNat)) else none

def unpackGetVersionResponse : List UInt8 → Option (Nat × Nat × Nat)
  | [major, minor, patch] => some (major.toNat, minor.toNat, patch.toNat)
  | _ => none

def unpackGetPublicKeyResponse (response : List UInt8) : Option (Nat × List UInt8 × Nat × List UInt8) := do
  let (response, pubKeyLen, pubKey) ← popSizePrefixedBufFromBuf response
  let (response, chainCodeLen, chainCode) ← popSizePrefixedBufFromBuf response
  if pubKeyLen = 65 ∧ chainCodeLen = 32 ∧ response.length = 0 then
    return (pubKeyLen, pubKey, chainCodeLen, chainCode)
  else none

def unpackSignTxResponse (response : List UInt8) : Option (Nat × List UInt8 × Nat) := do
  let (response, derSigLen, derSig) ← popSizePrefixedBufFromBuf response
  let (response, v) := popSizedBufFromBuffer response 1
  if response.length = 0 then return (derSigLen, derSig, beNat v) else none

def unpackSignPersonalMsgResponse (response : List UInt8) : Option (Nat × List UInt8 × Nat) := do
  let (response, derSigLen, derSig) ← popSizePrefixedBufFromBuf response
  let (response, v) := popSizedBufFromBuffer response 1
  if response.length = 0 then return (derSigLen, derSig, leNat v) else none

/-- What was written with its length in front is popped again. -/
theorem popSizePrefixedBufFromBuf_cons {data : List UInt8} (hlen : data.length < 256) (rest : List UInt8) :
    popSizePrefixedBufFromBuf (UInt8.ofNat data.length :: (data ++ rest)) = some (rest, data.length, data) := by
  have hnat : (UInt8.ofNat data.length).toNat = data.length := UInt8.toNat_ofNat_of_lt hlen
  rw [popSizePrefixedBufFromBuf, hnat, List.drop_left, List.take_left]

theorem unpack_pubkeyResponse {rawPublicKey chainCode : List UInt8}
    (hraw : rawPublicKey.length = uncompressedKeyLen) (hchain : chainCode.length = chainCodeLen) :
    unpackGetPublicKeyResponse (pubkeyResponse rawPublicKey chainCode) = some (65, rawPublicKey, 32, chainCode) := by
  have hraw' : rawPublicKey.length < 256 := hraw.trans_lt (by decide)
  have hchain' : chainCode.length < 256 := hchain.trans_lt (by decide)
  have hpop := popSizePrefixedBufFromBuf_cons hraw' (UInt8.ofNat chainCodeLen :: chainCode)
  have hpop' := popSizePrefixedBufFromBuf_cons hchain' []
  rw [hraw] at hpop
  rw [hchain, List.append_nil] at hpop'
  rw [unpackGetPublicKeyResponse, pubkeyResponse, List.cons_append, hpop]
  simp only [Option.bind_eq_bind, Option.bind_some, hpop']
  rfl

theorem unpack_signature {der : List UInt8} {v : UInt8} (hlen : der.length < 256) :
    unpackSignTxResponse (UInt8.ofNat der.length :: der ++ [v]) = some (der.length, der, v.toNat) ∧
      unpackSignPersonalMsgResponse (UInt8.ofNat der.length :: der ++ [v]) = some (der.length, der, v.toNat) := by
  have hpop := popSizePrefixedBufFromBuf_cons hlen [v]
  rw [unpackSignTxResponse, unpackSignPersonalMsgResponse, List.cons_append, hpop]
  simp [popSizedBufFromBuffer, beNat, leNat]

end AppOnt
