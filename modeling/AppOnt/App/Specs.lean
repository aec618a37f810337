import AppOnt.App.Approval
import AppOnt.App.Protocol

/-!
# Specifications of the handlers' parts

The total counterparts of the specifications behind the effects: what each part of a
handler does where it does not fault, and that the parts that store and show what is
bounded do not.
-/
namespace AppOnt

open CryptoSdk Prog

section
variable {s : App} {Q : Unit → App → Prop}

@[simp] theorem ensures_observe {o : Observation} :
    Ensures (observe o) s Q ↔ Q ⟨⟩ { s with shown := s.shown ++ [o] } := ensures_modify

@[simp] theorem ensures_ioSendSw {sw : StatusWord} :
    Ensures (ioSendSw sw) s Q ↔ Q ⟨⟩ { s with shown := s.shown ++ [.answer [] sw] } := ensures_modify

@[simp] theorem ensures_ioSendResponse {data : List UInt8} :
    Ensures (ioSendResponse data) s Q ↔ Q ⟨⟩ { s with shown := s.shown ++ [.answer data swOk] } :=
  ensures_modify

@[simp] theorem ensures_getContext {Q : Context → App → Prop} :
    Ensures getContext s Q ↔ Q s.context s := by simp [getContext]

@[simp] theorem ensures_modifyContext {f : Context → Context} :
    Ensures (modifyContext f) s Q ↔ Q ⟨⟩ { s with context := f s.context } := ensures_modify

@[simp] theorem ensures_setState {state : AppState} :
    Ensures (setState state) s Q ↔ Q ⟨⟩ { s with context := { s.context with state := state } } :=
  ensures_modify

@[simp] theorem ensures_writeRaw {len k : Nat} {bs : List UInt8} :
    Ensures (writeRaw len k bs) s Q ↔
      k + bs.length ≤ len ∧ Q ⟨⟩ { s with context := s.context.write k bs } := by
  simp only [writeRaw, ensures_ite, ensures_throw, ensures_modifyContext]
  grind

@[simp] theorem ensures_getPath {Q : List UInt32 → App → Prop} :
    Ensures getPath s Q ↔ s.context.bip32PathLen.toNat ≤ maxBip32Path ∧ Q s.context.path s := by
  simp only [getPath, ensures_bind, ensures_getContext, ensures_ite, ensures_pure, ensures_throw]
  grind

theorem ensures_showReview {x : DisplayM Drawn} {review : Review} :
    Ensures (showReview x review) s Q ↔ Ensures x s.display fun drawn d =>
      match drawn with
      | .sw code => Q ⟨⟩ { s with display := d, shown := s.shown ++ [.answer [] code] }
      | .review => Q ⟨⟩ { s with display := d, shown := s.shown ++ [.review review s.context], screen := some review } := by
  rw [showReview, ensures_bind, ensures_within]
  refine iff_of_eq (congrArg _ (funext fun drawn => funext fun d => ?_))
  cases drawn <;> simp

/-- Where the request and the state are the ones of a review, it is built. -/
theorem ensures_uiDisplay {reqType : RequestType} {state : AppState} {draw : Context → AppM Unit}
    (hreq : s.context.reqType = reqType) (hstate : s.context.state = state) :
    Ensures (uiDisplay reqType state draw) s Q ↔ Ensures (draw s.context) s Q := by
  rw [uiDisplay, ensures_bind, ensures_getContext, if_neg]
  simp [hreq, hstate]

theorem ensures_cryptoSign [CryptoSdk] [CryptoSdk.Documented] {digest : List UInt8}
    {Q : Option Signature → App → Prop} (hlen : s.context.bip32PathLen.toNat ≤ maxBip32Path) :
    Ensures (cryptoSign digest) s Q ↔ Q (bip32DeriveEcdsaSignHash256 s.context.path digest).toOption
      { s with shown := s.shown ++ [.sign s.context digest] } := by
  simp only [cryptoSign, ensures_bind, ensures_getContext, ensures_observe, ensures_getPath, hlen, true_and]
  cases hsign : bip32DeriveEcdsaSignHash256 s.context.path digest with
  | error e => simp [Except.toOption]
  | ok sig =>
    have hder := Nat.not_lt.mpr (CryptoSdk.Documented.der_length hsign)
    simp [Except.toOption, maxSignatureLen, hder]

/-- A command with a path clears the context; with a path that is refused it answers, and else it
goes on. -/
theorem withPath_ensures [BufferSdk] [CommandSdk] {reqType : RequestType} {data : List UInt8}
    {next : AppM Unit} (hdata : data ≠ [])
    (hrefused : ∀ bip32Path len sw, readPath data = .error sw → Q ⟨⟩ { s with
        context := .opened reqType bip32Path len, shown := s.shown ++ [.answer [] sw] })
    (haccepted : ∀ path bip32Path len, readPath data = .ok path →
      (Context.opened reqType bip32Path len).path = path → len.toNat ≤ maxBip32Path →
      Ensures next { s with context := .opened reqType bip32Path len } Q) :
    Ensures (withPath reqType (.ofBytes data) next) s Q := by
  obtain ⟨len, bs, rfl⟩ := List.exists_cons_of_ne_nil hdata
  obtain ⟨b, hread, hrest⟩ := bufferReadU8_cons len bs
  have hiff := CommandSdk.readPath_iff b Context.zero.bip32Path len.toNat
  have heq := CommandSdk.readPath_eq b Context.zero.bip32Path len.toNat
  rw [hrest] at hiff heq
  simp only [withPath, readBip32Path, hread, ensures_bind, ensures_modifyContext, ensures_getContext,
    ensures_pure]
  change Ensures (if (CommandSdk.bufferReadBip32Path b Context.zero.bip32Path len.toNat).1 = true then _
    else _) _ Q
  by_cases hok : (CommandSdk.bufferReadBip32Path b Context.zero.bip32Path len.toNat).1 = true
  · have hwords := hiff.mp hok
    have hpath := heq hok
    have hvalid : isValidBip44Prefix (CommandSdk.bufferReadBip32Path b Context.zero.bip32Path
        len.toNat).2 len.toNat = isValidBip44Prefix (beWords len.toNat bs) len.toNat := by
      rw [hpath]
      exact isValidBip44Prefix_append (length_beWords _ _)
    rw [if_pos hok, ensures_bind, ensures_getContext]
    change Ensures (if isValidBip44Prefix (CommandSdk.bufferReadBip32Path b Context.zero.bip32Path
      len.toNat).2 len.toNat = true then _ else _) _ Q
    rw [hvalid]
    by_cases hprefix : isValidBip44Prefix (beWords len.toNat bs) len.toNat = true
    · rw [if_pos hprefix]
      refine haccepted _ _ _ (by rw [readPath, if_pos hwords, if_pos hprefix]) ?_ hwords.2.1
      change (CommandSdk.bufferReadBip32Path b Context.zero.bip32Path len.toNat).2.take _ = _
      rw [hpath]
      exact List.take_left' (length_beWords _ _)
    · rw [if_neg hprefix]
      exact ensures_ioSendSw.mpr (hrefused _ _ _ (by rw [readPath, if_pos hwords, if_neg hprefix]))
  · rw [if_neg hok]
    exact ensures_ioSendSw.mpr (hrefused _ _ _ (by rw [readPath, if_neg fun h => hok (hiff.mpr h)]))

end

section
variable [CryptoSdk] {cfg : Config} {path : List UInt32}

/-- The key is read back from where it was stored. -/
theorem read_publicKey {c : Context} {key : PublicKey}
    (hkey : bip32DeriveGetPubkey256 path = .ok key) :
    ((c.write 0 key.rawPublicKey).write uncompressedKeyLen key.chainCode).rawPublicKey = key.rawPublicKey ∧
      ((c.write 0 key.rawPublicKey).write uncompressedKeyLen key.chainCode).chainCode = key.chainCode := by
  obtain ⟨hraw, hchain⟩ := CryptoSdk.pubkey_length hkey
  constructor
  · rw [Context.rawPublicKey, Context.write, (Memory.write_agreeOff _ _ _).read_eq (.inl (by omega)), ← hraw]
    exact Memory.read_write c.rawTx 0 key.rawPublicKey
  · rw [Context.chainCode, ← hchain]
    exact Memory.read_write _ _ _

theorem msgHash_room [CryptoSdk.Documented] {hash : List UInt8} {msg : List UInt8}
    (hdigest : messageDigest msg = some hash) :
    cfg.msgHashPos + hash.length ≤ cfg.maxTransactionLen := by
  have hpos : cfg.msgHashPos = 1024 + cfg.sizeBytes := rfl
  have hsize : cfg.sizeBytes ≤ 8 := by
    unfold Config.sizeBytes
    split <;> decide
  rw [length_messageDigest hdigest]
  have := cfg.target_cases
  omega

variable [FormatSdk] [CryptoSdk.Total]

/-- Whether a path has an address does not depend on the room for it. -/
theorem signerText_isSome_congr {outLen outLen' : Nat}
    (hout : base58AddressLen ≤ outLen) (hout' : base58AddressLen ≤ outLen') :
    (signerText outLen path).isSome = (signerText outLen' path).isSome := by
  rw [signerText, signerText]
  cases bip32DeriveGetPubkey256 path with
  | error code => rfl
  | ok key =>
    dsimp only
    cases hhash : covertPkToAddressScript key.rawPublicKey >>= hashScript with
    | none => rfl
    | some hash =>
      obtain ⟨script, -, hscript⟩ := Option.bind_eq_some_iff.mp hhash
      have hlen := hashScript_length hscript
      rw [Option.bind_some, Option.bind_some, addressText_isSome hlen hout, addressText_isSome hlen hout']

/-- The address of a public key is drawn if the path of the key has one. -/
theorem displayAddress_ensures {key : PublicKey} {d : Display}
    (hkey : bip32DeriveGetPubkey256 path = .ok key) :
    Ensures (displayAddress cfg key.rawPublicKey) d fun drawn _ => drawn =
      if signerText maxBufferLen path = none then .sw swDisplayAddressFail else .review := by
  have hcfg := cfg.target_cases
  have hbase : base58AddressLen = 34 := rfl
  have hsize : cfg.numPairs * maxBufferLen = (cfg.parametersMaxNum + 2) * 67 := rfl
  have hout : base58AddressLen ≤ cfg.numPairs * maxBufferLen := by omega
  have hconv : convertUncompressedPubkeyToAddress (cfg.numPairs * maxBufferLen) key.rawPublicKey =
      ((signerText (cfg.numPairs * maxBufferLen) path).isSome,
        (signerText (cfg.numPairs * maxBufferLen) path).getD []) := by
    rw [← deriveAddress_eq hout, deriveAddressFromBip32Path, hkey]
  have hsome : (signerText (cfg.numPairs * maxBufferLen) path).isSome = (signerText maxBufferLen path).isSome :=
    signerText_isSome_congr hout (by decide)
  rw [displayAddress, ensures_bind, ensures_modify, hconv]
  cases htext : signerText (cfg.numPairs * maxBufferLen) path with
  | none =>
    rw [htext] at hsome
    have hnone : signerText maxBufferLen path = none := by simpa using hsome.symm
    simp [hnone]
  | some text =>
    rw [htext] at hsome
    have hne : signerText maxBufferLen path ≠ none := Option.isSome_iff_ne_none.mp hsome.symm
    have hspec := (signerText_spec hout htext).1
    simp only [Option.isSome_some, Option.getD_some, ensures_bind, ensures_store, if_true, ensures_pure,
      if_neg hne, and_true]
    omega

end

end AppOnt
