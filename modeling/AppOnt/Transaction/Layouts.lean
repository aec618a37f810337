import AppOnt.Transaction.Undefined

/-!
# Calls with any arguments

The layouts of a payload in the comment of `deserialize.c`, with any bytes in
the place of the arguments. The contract and the method are located whatever
the arguments are, so the arguments decide neither which method the device
reads nor whether a call is taken for one that is not defined.
-/
namespace AppOnt

open Prog Token

/-- `Method-w-Length`. -/
def methodWithLength (name : List UInt8) : List UInt8 := UInt8.ofNat name.length :: name

/-- The payload code of a WASM call, with any bytes for `Remaining-Length`. -/
def wasmvmPayload (remaining contract name args : List UInt8) : List UInt8 :=
  contract ++ (remaining ++ (methodWithLength name ++ args))

/-- The payload code by the virtual machine; the arguments of a native and of a NEOVM call contain
the delimiter that ends them. -/
def Vm.payload (vm : Vm) (contract name args : List UInt8) : List UInt8 :=
  match vm with
  | .native => args ++ (methodWithLength name ++
      ([0x14] ++ contract ++ (opcodeSyscall ++ nativeInvoke)))
  | .neovm => args ++ (methodWithLength name ++ (opcodeAppcall ++ contract))
  | .wasmvm => wasmvmPayload [UInt8.ofNat (methodWithLength name ++ args).length] contract name args

/-- A transaction with a header and a payload. -/
def transactionBytes (h : Header) (txType : UInt8) (p : SizePrefix) (payload : List UInt8) :
    List UInt8 :=
  h.encode txType ++ (p.encode ++ (payload ++ opcodeEnd))

section
variable {cfg : Config} {h : Header} {p : SizePrefix} {vm : Vm} {a : Bytes addressScriptHashLen}
  {name args : List UInt8} {tx : Transaction}

theorem length_transactionBytes (txType : UInt8) (payload : List UInt8) :
    (transactionBytes h txType p payload).length = 42 + p.encode.length + payload.length + 1 := by
  simp only [transactionBytes, List.length_append, h.length_encode, opcodeEnd, List.length_singleton]
  omega

theorem payload_append_end (hvm : vm ≠ .wasmvm) : vm.payload a.1 name args ++ opcodeEnd =
    args ++ (methodWithLength name ++ vm.tail a.1) := by
  cases vm with
  | native => simp [Vm.payload, Vm.tail, nativeTail]
  | neovm => simp [Vm.payload, Vm.tail, neovmTail]
  | wasmvm => exact absurd rfl hvm

theorem transactionBytes_eq (hvm : vm ≠ .wasmvm) :
    transactionBytes h vm.txType p (vm.payload a.1 name args) =
      h.encode vm.txType ++ p.encode ++ args ++ (methodWithLength name ++ vm.tail a.1) := by
  rw [transactionBytes, payload_append_end hvm]
  simp only [List.append_assoc]

/-- Where the method stage of a native or NEOVM call starts to scan, seen from the start. -/
theorem length_before_tail (hvm : vm ≠ .wasmvm) :
    (transactionBytes h vm.txType p (vm.payload a.1 name args)).length - (vm.tail a.1).length =
      (h.encode vm.txType ++ p.encode ++ args).length + (methodWithLength name).length := by
  rw [transactionBytes_eq hvm]
  simp only [List.length_append]
  omega

/-- The scan of a native or NEOVM call stops at the end of the arguments, if nothing after them
stops it. -/
theorem methodStart_payload (hvm : vm ≠ .wasmvm)
    (hends : opcodePack <:+ args ∨ vm.contractType = .native ∧ opcodeParamStEnd <:+ args)
    (hplain : ∀ x ∈ methodWithLength name ++ (vm.tail a.1).take 2,
      x ≠ 0xc1 ∧ (vm.contractType = .native → x ≠ 0x7c)) :
    methodStart vm.contractType (transactionBytes h vm.txType p (vm.payload a.1 name args))
      (42 + p.encode.length)
      ((transactionBytes h vm.txType p (vm.payload a.1 name args)).length - (vm.tail a.1).length)
      ((transactionBytes h vm.txType p (vm.payload a.1 name args)).length - (vm.tail a.1).length + 1) =
        42 + p.encode.length + args.length := by
  have hfront : (h.encode vm.txType ++ p.encode).length = 42 + p.encode.length := by
    rw [List.length_append, h.length_encode]
  have hmain := @methodStart_append vm.contractType (h.encode vm.txType ++ p.encode) args
    (methodWithLength name ++ vm.tail a.1)
    ((h.encode vm.txType ++ p.encode ++ args).length + (methodWithLength name).length) hends
    (Nat.le_add_right _ _) ?_
  · rw [length_before_tail hvm, transactionBytes_eq hvm]
    rw [hfront] at hmain
    rw [hmain, List.length_append, hfront]
  · rwa [show (h.encode vm.txType ++ p.encode ++ args).length + (methodWithLength name).length + 2 -
      (h.encode vm.txType ++ p.encode ++ args).length = (methodWithLength name).length + 2 by omega,
      List.take_length_add_append]

/-- The contract and the method stage of a native or NEOVM call. -/
theorem located_before (hvm : vm ≠ .wasmvm) {t : ParserState}
    (hstart : methodStart vm.contractType t.buf.ptr t.buf.offset
      (t.buf.size - (vm.tail a.1).length) (t.buf.size - (vm.tail a.1).length + 1) =
        t.buf.offset + args.length)
    (hrest : t.buf.rest = args ++ (methodWithLength name ++ vm.tail a.1)) :
    ∃ u r, vm.ContractAt a t u ∧ vm.MethodStage name u r ∧ r.buf.offset = t.buf.offset := by
  have hsize : t.buf.offset + args.length + 1 + name.length + (vm.tail a.1).length = t.buf.size := by
    have := congrArg List.length hrest
    simp only [List.length_append, methodWithLength, List.length_cons] at this
    have := t.buf.offset_add_length_rest
    omega
  have hu : ∃ w, t.buf.rest = w ++ vm.tail a.1 :=
    ⟨args ++ methodWithLength name, by rw [hrest, List.append_assoc]⟩
  refine ⟨_, _, (Vm.contractAt_iff hvm).mpr ⟨hu, rfl⟩,
    (Vm.methodStage_iff hvm a).mpr ⟨_, hstart.symm, hsize, ?_, rfl⟩, rfl⟩
  rw [← List.drop_drop]
  change _ <+: t.buf.rest.drop args.length
  rw [hrest, List.drop_left]
  exact List.prefix_append _ _

/-- The contract and the method stage of a WASM call. -/
theorem located_wasmvm {t : ParserState} (hlt : (methodWithLength name ++ args).length < 256)
    (hrest : t.buf.rest = Vm.wasmvm.payload a.1 name args ++ opcodeEnd) :
    ∃ u r, Vm.wasmvm.ContractAt a t u ∧ Vm.wasmvm.MethodStage name u r := by
  have hremaining : (UInt8.ofNat (methodWithLength name ++ args).length).toNat =
      (methodWithLength name ++ args).length := UInt8.toNat_ofNat_of_lt' hlt
  have htokens : t.buf.rest = a.1 ++ (([UInt8.ofNat (methodWithLength name ++ args).length] ++
      (UInt8.ofNat name.length :: name)) ++ (args ++ opcodeEnd)) := by
    rw [hrest]
    simp [Vm.payload, wasmvmPayload, methodWithLength]
  obtain ⟨b₁, hb₁, hr₁⟩ := Buffer.exists_consumes htokens
  obtain ⟨b₂, hb₂, -⟩ := Buffer.exists_consumes hr₁
  have hsize := b₁.offset_add_length_rest
  rw [hr₁] at hsize
  refine ⟨⟨b₁, t.tx.setContractAt .wasmvm t.buf.offset⟩, ⟨b₂, _⟩, ⟨hb₁, rfl⟩, _, ?_, ?_, hb₂, rfl⟩
  · intro h0
    rw [h0] at hremaining
    simp [methodWithLength] at hremaining
  · rw [hremaining, ← hsize]
    simp [methodWithLength, opcodeEnd]
    omega

/-- The contract and the method are located whatever the arguments are. -/
theorem located_layout (hvalue : p.value = (vm.payload a.1 name args).length)
    (hsize : (transactionBytes h vm.txType p (vm.payload a.1 name args)).length ≤
      cfg.maxTransactionLen) (hname : name ≠ [] ∧ name.length < 256)
    (hscan : vm ≠ .wasmvm → methodStart vm.contractType
      (transactionBytes h vm.txType p (vm.payload a.1 name args)) (42 + p.encode.length)
      ((transactionBytes h vm.txType p (vm.payload a.1 name args)).length - (vm.tail a.1).length)
      ((transactionBytes h vm.txType p (vm.payload a.1 name args)).length - (vm.tail a.1).length + 1) =
        42 + p.encode.length + args.length)
    (hrem : vm = .wasmvm → (methodWithLength name ++ args).length < 256) :
    ∃ r, Located cfg h p vm a name
      ⟨.ofBytes (transactionBytes h vm.txType p (vm.payload a.1 name args)), tx⟩ r ∧
        (vm ≠ .wasmvm → r.buf.offset = 42 + p.encode.length) := by
  have hmax := cfg.target_cases
  have hM := cfg.sizeMod_cases
  have hlen := length_transactionBytes (h := h) (p := p) vm.txType (vm.payload a.1 name args)
  obtain ⟨b₁, hb₁, hr₁⟩ := Buffer.exists_consumes (show (Buffer.ofBytes (transactionBytes h vm.txType p
    (vm.payload a.1 name args))).rest = _ from rfl)
  obtain ⟨b₂, hb₂, hr₂⟩ := Buffer.exists_consumes hr₁
  have hoff₁ : b₁.offset = 42 := by rw [hb₁.offset, h.length_encode]; rfl
  have hoff₂ : b₂.offset = 42 + p.encode.length := by rw [hb₂.offset, hoff₁]
  have hptr : b₂.ptr = transactionBytes h vm.txType p (vm.payload a.1 name args) := by
    rw [hb₂.1, hb₁.1, Buffer.ptr_ofBytes]
  have hdecl : p.Declares cfg b₁.offset b₁.size := by
    rw [SizePrefix.Declares, hoff₁, hb₁.size, hvalue, Nat.mod_eq_of_lt (by omega)]
    exact hlen.symm
  let t₂ : ParserState := ⟨b₂, tx.setHeader (h.view vm.txType 22)⟩
  suffices hrest : ∃ u r, vm.ContractAt a t₂ u ∧ vm.MethodStage name u r ∧
      (vm ≠ .wasmvm → r.buf.offset = 42 + p.encode.length) by
    obtain ⟨u, r, hc, hm, hoff⟩ := hrest
    exact ⟨r, ⟨hsize, ⟨⟨b₁, _⟩, t₂, u, ⟨hb₁, rfl⟩, hdecl, ⟨hb₂, rfl⟩, hc, hm⟩, hname.1, hname.2⟩, hoff⟩
  by_cases hvm : vm = .wasmvm
  · subst hvm
    obtain ⟨u, r, hc, hm⟩ := located_wasmvm (t := t₂) (hrem rfl) hr₂
    exact ⟨u, r, hc, hm, fun hne => absurd rfl hne⟩
  · have hstart := hscan hvm
    rw [← hptr, ← hoff₂] at hstart
    obtain ⟨u, r, hc, hm, hoff⟩ := located_before (t := t₂) hvm hstart
      (hr₂.trans (payload_append_end hvm))
    exact ⟨u, r, hc, hm, fun _ => hoff.trans hoff₂⟩

/-- The fixed end of a NEOVM call starts with a byte before the address. -/
theorem take_neovmTail : (Vm.neovm.tail a.1).take 2 = 0x67 :: a.1.take 1 := by
  change 0x67 :: (a.1 ++ _).take 1 = _
  rw [List.take_append_of_le_length (by rw [a.2]; decide)]

end

/-- What stands between the arguments and the method, by the virtual machine. -/
def Vm.Delimits (vm : Vm) (delimiter : List UInt8) : Prop :=
  match vm with
  | .native => delimiter = opcodeParamStEnd ∨ delimiter = opcodePack
  | .neovm => delimiter = opcodePack
  | .wasmvm => delimiter = []

theorem Vm.Delimits.suffix {vm : Vm} {delimiter : List UInt8} (hd : vm.Delimits delimiter)
    (hvm : vm ≠ .wasmvm) (args : List UInt8) : opcodePack <:+ args ++ delimiter ∨
      vm.contractType = .native ∧ opcodeParamStEnd <:+ args ++ delimiter := by
  cases vm with
  | native =>
    rcases hd with rfl | rfl
    · exact .inr ⟨rfl, List.suffix_append _ _⟩
    · exact .inl (List.suffix_append _ _)
  | neovm =>
    obtain rfl := hd
    exact .inl (List.suffix_append _ _)
  | wasmvm => exact absurd rfl hvm

section
variable [BufferSdk] (cfg : Config)

/-- Whatever stands in the place of the arguments of a registered method, the device reads its name,
and the transaction is not undefined. -/
theorem registeredMethod_read (h : Header) (p : SizePrefix) (q : Payload) (hq : q ∈ getTxPayload)
    (m : TxMethodSignature) (hm : m ∈ q.methods) (vm : Vm) (args delimiter : List UInt8)
    (hdelimits : vm.Delimits delimiter)
    (hremaining : vm = .wasmvm → (methodWithLength (chars m.name) ++ args).length < 256)
    (hvalue : p.value = (vm.payload q.contractAddr (chars m.name) (args ++ delimiter)).length)
    (raw : List UInt8) (hraw : raw = transactionBytes h vm.txType p
      (vm.payload q.contractAddr (chars m.name) (args ++ delimiter))) (tx : Transaction) :
    (raw.length ≤ cfg.maxTransactionLen → ∃ r,
      (throughMethod cfg).run ⟨.ofBytes raw, tx⟩ = .ok (.ok, r) ∧
      readPtr raw r.tx.method.name.data r.tx.method.name.len = .ok (chars m.name) ∧
      (vm ≠ .wasmvm → r.buf.offset = 42 + p.encode.length)) ∧
    ∀ t, (transactionDeserialize cfg).run ⟨.ofBytes raw, tx⟩ ≠ .ok (.txNotDefined, t) := by
  have haddr := length_contractAddr q hq
  have hlocated (hsize : raw.length ≤ cfg.maxTransactionLen) : ∃ r,
      Located cfg h p vm ⟨q.contractAddr, haddr⟩ (chars m.name) ⟨.ofBytes raw, tx⟩ r ∧
        (vm ≠ .wasmvm → r.buf.offset = 42 + p.encode.length) := by
    subst hraw
    refine @located_layout cfg h p vm ⟨q.contractAddr, haddr⟩ (chars m.name) (args ++ delimiter) tx
      hvalue hsize (name_bounds q hq m hm) (fun hvm => ?_) fun hvm => ?_
    · refine methodStart_payload (a := ⟨q.contractAddr, haddr⟩) hvm (hdelimits.suffix hvm args)
        fun x hx => ?_
      have hplain := (plain_name q hq m hm).append (plain_tail vm q hq) x hx
      exact ⟨hplain.1, fun _ => hplain.2⟩
    · subst hvm
      obtain rfl : delimiter = [] := hdelimits
      rw [List.append_nil]
      exact hremaining rfl
  constructor
  · intro hsize
    obtain ⟨r, hl, hoff⟩ := hlocated hsize
    refine ⟨r, (throughMethod_returns.iff r).mpr ⟨_, _, _, _, _, hl⟩, ?_, hoff⟩
    have hname := hl.named.name_eq
    rwa [hl.ptr_eq] at hname
  · intro t hrun
    obtain ⟨_, _, _, _, _, _, hl', -⟩ := transactionDeserialize_located (.inr rfl) hrun
    obtain ⟨r, hl, -⟩ := hlocated hl'.size_le
    exact (hl.yields _ t hrun rfl).1 ⟨q, hq, rfl, m, hm, rfl⟩

end

/-- A transfer of ONT with delimiters in the place of its arguments. -/
theorem registeredMethod_read_sample :
    let raw := transactionBytes minimalHeader 0xd1 (.byte 61 (by decide) (by decide))
      (Vm.native.payload ontAddr (chars methodTransfer) (opcodePack ++ opcodeParamStEnd ++ opcodePack))
    (∃ r, (@throughMethod BufferSdk.reference ⟨.nano, .w32⟩).run ⟨.ofBytes raw, .zero⟩ = .ok (.ok, r) ∧
      readPtr raw r.tx.method.name.data r.tx.method.name.len = .ok (chars methodTransfer) ∧
      r.buf.offset = 43) ∧
    ∀ t, (@transactionDeserialize BufferSdk.reference ⟨.nano, .w32⟩).run ⟨.ofBytes raw, .zero⟩ ≠
      .ok (.txNotDefined, t) := by
  intro raw
  obtain ⟨hread, hdefined⟩ := @registeredMethod_read BufferSdk.reference ⟨.nano, .w32⟩ minimalHeader
    (.byte 61 (by decide) (by decide)) ⟨ontDecimals, ontTicker, ontAddr, getNativeTokenMethods⟩
    (by decide) ⟨methodTransfer, [.transferStateList]⟩ (by decide) .native
    (opcodePack ++ opcodeParamStEnd) opcodePack (.inr rfl) (fun hvm => absurd hvm (by decide))
    (by decide) raw rfl .zero
  obtain ⟨r, hr, hname, hoff⟩ := hread (by decide +kernel)
  exact ⟨⟨r, hr, hname, hoff (by decide)⟩, hdefined⟩

section
variable [BufferSdk] {cfg : Config} {h h' : Header} {p p' : SizePrefix} {vm vm' : Vm}
  {a : Bytes addressScriptHashLen} {name name' args payload : List UInt8} {tx : Transaction}
  {r : ParserState} {txType : UInt8} {a' : Bytes addressScriptHashLen}

omit [BufferSdk] in
/-- What is located in a transaction that is written down. -/
theorem Located.of_bytes (hl : Located cfg h' p' vm' a' name'
      ⟨.ofBytes (transactionBytes h txType p payload), tx⟩ r) :
    vm'.txType = txType ∧ p' = p ∧ ∃ t u, t.buf.offset = 42 + p.encode.length ∧
      t.buf.ptr = transactionBytes h txType p payload ∧ t.buf.rest = payload ++ opcodeEnd ∧
      vm'.ContractAt a' t u ∧ vm'.MethodStage name' u r := by
  obtain ⟨t₁, t₂, t₃, h₁, hp, h₂, hc, hm⟩ := hl.stages
  have hencode : transactionBytes h txType p payload = h'.encode vm'.txType ++ t₁.buf.rest := h₁.1.2
  have htype : vm'.txType = txType := by
    have h1 (k : Header) (ty : UInt8) (v : List UInt8) : (k.encode ty ++ v)[1]? = some ty := rfl
    have := congrArg (·[1]?) hencode
    simp only [transactionBytes, h1] at this
    exact (Option.some.inj this).symm
  have hrest : p.encode ++ (payload ++ opcodeEnd) = p'.encode ++ t₂.buf.rest := by
    rw [← h₂.1.2]
    exact (List.append_inj hencode (by rw [h.length_encode, h'.length_encode])).2
  obtain rfl : p' = p := SizePrefix.eq_of_prefix ⟨_, hrest.symm⟩ (List.prefix_append _ _)
  refine ⟨htype, rfl, t₂, t₃, ?_, ?_, (List.append_cancel_left hrest).symm, hc, hm⟩
  · rw [h₂.1.offset, h₁.1.offset, h'.length_encode]
    rfl
  · rw [h₂.1.1, h₁.1.1, Buffer.ptr_ofBytes]

/-- A first byte of the address that is the delimiter hides the method. -/
theorem neovmCall_hidden (haddr : a.1.head? = some 0xc1)
    (hrun : ∃ t, (transactionDeserialize cfg).run
      ⟨.ofBytes (transactionBytes h 0xd1 p (Vm.neovm.payload a.1 name args)), tx⟩ =
        .ok (.txNotDefined, t)) : False := by
  obtain ⟨t, hrun⟩ := hrun
  obtain ⟨h', p', vm', a', name', r, hl, -⟩ := transactionDeserialize_located (.inr rfl) hrun
  obtain ⟨htype, -, t, u, hoff, hptr, hrest, hc, hm⟩ := hl.of_bytes
  have htail : ∃ w, t.buf.rest = w ++ neovmTail a.1 :=
    ⟨args ++ methodWithLength name, by
      rw [hrest, payload_append_end (by decide), List.append_assoc]
      rfl⟩
  cases vm' with
  | native => exact absurd ((discriminator_native hc.1).symm.trans (discriminator_neovm htail)) (by decide)
  | wasmvm => exact absurd htype (by decide)
  | neovm =>
    have hle := hc.tail_le (by decide)
    rw [Vm.length_tail (by decide), if_neg (by decide)] at hle
    obtain ⟨-, hu⟩ := hc
    obtain ⟨cur, hcur, hlen, -, -⟩ := hm
    have hbuf : u.buf = t.buf := by rw [hu]
    rw [hbuf] at hcur hlen hle
    obtain ⟨w, hw⟩ := htail
    have hdrop := Buffer.drop_size_sub hw (k := 21) (by rw [length_neovmTail]; omega)
    obtain ⟨v, hv⟩ : ∃ v, a.1 = 0xc1 :: v := by
      cases ha : a.1 with
      | nil => simp [ha] at haddr
      | cons x v => exact ⟨v, by simpa [ha] using haddr⟩
    have hstart := @methodStart_eq .neovm t.buf.ptr t.buf.offset (t.buf.size - 22)
      (t.buf.size - 22 + 1) (t.buf.size - 22 + 1) (t.buf.size - 22 + 2) ?_ (by omega) le_rfl
      (by omega)
    · omega
    · have hpre : opcodePack <+: t.buf.ptr.drop (t.buf.size - 22 + 1) := by
        rw [show t.buf.size - 22 + 1 = t.buf.size - 21 by omega, hdrop, length_neovmTail, neovmTail, hv]
        exact ⟨v ++ opcodeEnd, rfl⟩
      unfold delimiter?
      rw [if_neg (by simp), if_pos hpre]

/-- A NEOVM call that is not registered is offered for blind signing exactly if the first byte of
its address is not the delimiter before the method: the scan starts inside the address. -/
theorem neovmCall_undefined_iff (cfg : Config) (h : Header) (p : SizePrefix)
    (a : Bytes addressScriptHashLen) (name args : List UInt8)
    (hname : 1 ≤ name.length ∧ name.length ≤ 75) (hplain : 0xc1 ∉ name)
    (hregistered : ¬ Registered a.1 name)
    (hvalue : p.value = (Vm.neovm.payload a.1 name (args ++ opcodePack)).length)
    (hsize : (transactionBytes h 0xd1 p (Vm.neovm.payload a.1 name (args ++ opcodePack))).length ≤
      cfg.maxTransactionLen) (tx : Transaction) :
    (∃ t, (transactionDeserialize cfg).run
      ⟨.ofBytes (transactionBytes h 0xd1 p (Vm.neovm.payload a.1 name (args ++ opcodePack))), tx⟩ =
        .ok (.txNotDefined, t)) ↔ a.1.head? ≠ some 0xc1 := by
  constructor
  · intro hrun haddr
    exact neovmCall_hidden haddr hrun
  · intro haddr
    have hne : name ≠ [] := List.length_pos_iff.mp hname.1
    have hlength : UInt8.ofNat name.length ≠ 0xc1 := by
      intro heq
      have := congrArg UInt8.toNat heq
      rw [UInt8.toNat_ofNat_of_lt' (show name.length < 256 by omega)] at this
      have : name.length = 193 := this
      omega
    have hafter : ∀ x ∈ methodWithLength name ++ (Vm.neovm.tail a.1).take 2, x ≠ 0xc1 := by
      rintro x hx rfl
      rw [take_neovmTail] at hx
      rcases List.mem_append.mp hx with hx | hx
      · rcases List.mem_cons.mp hx with hx | hx
        · exact hlength hx.symm
        · exact hplain hx
      · cases ha : a.1 with
        | nil => simpa [ha, addressScriptHashLen] using a.2
        | cons y v =>
          rw [ha] at hx haddr
          have hy : y ≠ 0xc1 := by simpa using haddr
          simp [hy.symm] at hx
    obtain ⟨r, hl, -⟩ := @located_layout cfg h p .neovm a name (args ++ opcodePack) tx hvalue hsize
      ⟨hne, by omega⟩ (fun hvm => methodStart_payload hvm (.inl (List.suffix_append _ _))
        fun x hx => ⟨hafter x hx, fun hnative => absurd hnative (by decide)⟩)
      (fun hvm => absurd hvm (by decide))
    exact (hl.undefined_iff (by decide)).mpr hregistered

end

/-- A call of an unknown NEOVM contract. -/
def unknownNeovm (a : List UInt8) : List UInt8 :=
  transactionBytes minimalHeader 0xd1 (.byte 26 (by decide) (by decide))
    (Vm.neovm.payload a (chars "foo") opcodePack)

theorem neovmCall_undefined_iff_sample :
    (∃ t, (@transactionDeserialize BufferSdk.reference ⟨.nano, .w32⟩).run
      ⟨.ofBytes (unknownNeovm (List.replicate 20 0x11)), .zero⟩ = .ok (.txNotDefined, t)) ↔
      (List.replicate 20 (0x11 : UInt8)).head? ≠ some 0xc1 :=
  letI := BufferSdk.reference
  neovmCall_undefined_iff ⟨.nano, .w32⟩ minimalHeader (.byte 26 (by decide) (by decide))
    ⟨List.replicate 20 0x11, rfl⟩ (chars "foo") [] (by decide) (by decide) (by decide) (by decide)
    (by decide +kernel) .zero

theorem unknownNeovm_refused : ¬ Registered (0xc1 :: List.replicate 19 0x11) (chars "foo") ∧
    ((@transactionDeserialize BufferSdk.reference ⟨.nano, .w32⟩).run
      ⟨.ofBytes (unknownNeovm (0xc1 :: List.replicate 19 0x11)), .zero⟩).map (·.1) =
        .ok .bytecodeWrong := by
  decide +kernel

theorem SizePrefix.exists_value {n : Nat} (hn : n < 65536) :
    ∃ p : SizePrefix, p.value = n ∧ p.encode.length = 3 := by
  refine ⟨.uint16 ⟨[UInt8.ofNat (n % 256), UInt8.ofNat (n / 256)], rfl⟩, ?_, rfl⟩
  simp [SizePrefix.value, leNat, Nat.mod_eq_of_lt (show n / 256 < 256 by omega)]
  omega

section
variable [BufferSdk] {cfg : Config} {h : Header} {a : Bytes addressScriptHashLen}
  {name args : List UInt8} {tx : Transaction}

/-- The length of the name and the arguments is read as one byte. -/
theorem wasmvmCall_short {remaining : List UInt8} {p : SizePrefix}
    (hname : 1 ≤ name.length ∧ name.length ≤ 75)
    (hrun : ∃ t, (transactionDeserialize cfg).run
      ⟨.ofBytes (transactionBytes h 0xd2 p (wasmvmPayload remaining a.1 name args)), tx⟩ =
        .ok (.txNotDefined, t)) : (methodWithLength name ++ args).length < 256 := by
  obtain ⟨t, hrun⟩ := hrun
  obtain ⟨h', p', vm', a', name', r, hl, -⟩ := transactionDeserialize_located (.inr rfl) hrun
  obtain ⟨htype, -, t, u, hoff, hptr, hrest, hc, hm⟩ := hl.of_bytes
  have hlt : vm' = .wasmvm := by
    cases vm' with
    | wasmvm => rfl
    | _ => exact absurd htype (by decide)
  subst hlt
  obtain ⟨hb, -⟩ := hc
  obtain ⟨byte, -, hlen, hb', -⟩ := hm
  have hread : u.buf.rest = remaining ++ (methodWithLength name ++ args) ++ opcodeEnd := by
    have := hb.2
    rw [hrest, wasmvmPayload, List.append_assoc] at this
    exact (List.append_inj this (by rw [a.2, a'.2])).2.symm
  have hsize := u.buf.offset_add_length_rest
  rw [hread] at hsize
  simp only [List.length_append, methodWithLength, List.length_cons, opcodeEnd, List.length_nil] at hsize ⊢
  have hbyte := byte.toNat_lt
  cases remaining with
  | cons x v =>
    simp only [List.length_cons] at hsize
    omega
  | nil =>
    -- the byte that is read is the length of the name
    have heq : byte = UInt8.ofNat name.length := by
      have := hb'.2
      rw [hread] at this
      exact (List.cons.inj this).1.symm
    rw [heq, UInt8.toNat_ofNat_of_lt' (show name.length < 256 by omega)] at hlen
    simp only [List.length_nil] at hsize
    omega

/-- A WASM call that is not registered can be offered for blind signing exactly if its name and
arguments are shorter than 256 bytes. -/
theorem wasmvmCall_undefined_iff (cfg : Config) (h : Header) (a : Bytes addressScriptHashLen)
    (name args : List UInt8) (hname : 1 ≤ name.length ∧ name.length ≤ 75)
    (hregistered : ¬ Registered a.1 name) (tx : Transaction) :
    (∃ remaining p t, p.value = (wasmvmPayload remaining a.1 name args).length ∧
      (transactionBytes h 0xd2 p (wasmvmPayload remaining a.1 name args)).length ≤
        cfg.maxTransactionLen ∧
      (transactionDeserialize cfg).run
        ⟨.ofBytes (transactionBytes h 0xd2 p (wasmvmPayload remaining a.1 name args)), tx⟩ =
          .ok (.txNotDefined, t)) ↔ (methodWithLength name ++ args).length < 256 := by
  constructor
  · rintro ⟨remaining, p, t, _, _, hrun⟩
    exact wasmvmCall_short hname ⟨t, hrun⟩
  · intro hlt
    have hmax := cfg.target_cases
    have hne : name ≠ [] := List.length_pos_iff.mp hname.1
    have hlen : (Vm.wasmvm.payload a.1 name args).length =
        21 + (methodWithLength name ++ args).length := by
      simp [Vm.payload, wasmvmPayload, a.2, addressScriptHashLen]
      omega
    obtain ⟨p, hvalue, hp⟩ := SizePrefix.exists_value
      (show (Vm.wasmvm.payload a.1 name args).length < 65536 by omega)
    have hsize : (transactionBytes h 0xd2 p (Vm.wasmvm.payload a.1 name args)).length ≤
        cfg.maxTransactionLen := by
      rw [length_transactionBytes, hp, hlen]
      omega
    obtain ⟨r, hl, -⟩ := @located_layout cfg h p .wasmvm a name args tx hvalue hsize
      ⟨hne, by omega⟩ (fun hvm => absurd rfl hvm) fun _ => hlt
    obtain ⟨t, hrun⟩ := (hl.undefined_iff (by decide)).mpr hregistered
    exact ⟨_, p, t, hvalue, hsize, hrun⟩

end

theorem wasmvmCall_undefined_iff_sample : (∃ remaining p t,
    p.value = (wasmvmPayload remaining (List.replicate 20 0x11) (chars "foo") [7]).length ∧
    (transactionBytes minimalHeader 0xd2 p
      (wasmvmPayload remaining (List.replicate 20 0x11) (chars "foo") [7])).length ≤ 4096 ∧
    (@transactionDeserialize BufferSdk.reference ⟨.nano, .w32⟩).run
      ⟨.ofBytes (transactionBytes minimalHeader 0xd2 p
        (wasmvmPayload remaining (List.replicate 20 0x11) (chars "foo") [7])), .zero⟩ =
          .ok (.txNotDefined, t)) ↔ (methodWithLength (chars "foo") ++ [7]).length < 256 :=
  letI := BufferSdk.reference
  wasmvmCall_undefined_iff ⟨.nano, .w32⟩ minimalHeader ⟨List.replicate 20 0x11, rfl⟩ (chars "foo")
    [7] (by decide) (by decide) .zero

/-- No encoding of the length makes a call with 300 bytes of arguments known. -/
theorem longWasmvmCall_refused :
    ¬ Registered (List.replicate 20 0x11) (chars "foo") ∧
    ¬ ∃ remaining p t, (@transactionDeserialize BufferSdk.reference ⟨.nano, .w32⟩).run
      ⟨.ofBytes (transactionBytes minimalHeader 0xd2 p (wasmvmPayload remaining
        (List.replicate 20 0x11) (chars "foo") (List.replicate 300 0))), .zero⟩ =
          .ok (.txNotDefined, t) := by
  let _ := BufferSdk.reference
  refine ⟨by decide, fun ⟨remaining, p, t, hrun⟩ => ?_⟩
  have hlt := wasmvmCall_short (a := ⟨List.replicate 20 0x11, rfl⟩) (by decide) ⟨t, hrun⟩
  rw [List.length_append, List.length_replicate] at hlt
  omega

end AppOnt
