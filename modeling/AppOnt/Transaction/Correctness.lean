import AppOnt.Transaction.Accept

/-!
# Soundness, completeness and bounds of the deserializer

What an accepted transaction consists of, what is certain to be accepted, and
that no run leaves the buffer or the parameter array. All three are read off the
exact description of what `transactionDeserialize` accepts.
-/
namespace AppOnt

open Prog Token

theorem slots_args_cons {type : TxParameterType} {types : List TxParameterType} {vm : Vm}
    (a : Arg type) (as : Args types) :
    slots ((Args.cons a as).tokens vm) = slots (a.tokens vm) + slots (as.tokens vm) := by
  rw [Args.tokens, slots_append, slots_append]
  split <;> rfl

theorem Arg.slots_pos {type : TxParameterType} (a : Arg type) (vm : Vm) (h : type ≠ .ontid) :
    0 < slots (a.tokens vm) := by
  cases a with
  | ontid id _ _ => exact absurd rfl h
  | pkAmountPairs p => simp [Arg.tokens]
  | _ => simp [Arg.tokens, slots, addressToken, pubkeyToken, AmountCode.token,
      TransferState.tokens, paramEnd]

theorem Args.slots_pos {types : List TxParameterType} (args : Args types) (vm : Vm)
    (hne : types ≠ []) (h : types.getLast? ≠ some .ontid) : 0 < slots (args.tokens vm) := by
  induction args with
  | nil => exact absurd rfl hne
  | @cons type types a as ih =>
    rw [slots_args_cons]
    cases types with
    | nil =>
      have := a.slots_pos vm (by simpa using h)
      omega
    | cons type' types =>
      have := ih (by simp) (by rwa [List.getLast?_cons_cons] at h)
      omega

/-- Room for all the parameters is room for each, since an ONT ID, which takes none, is never the
last one. -/
theorem Args.fits_of_slots {cfg : Config} {types : List TxParameterType} (args : Args types)
    (vm : Vm) (j : Nat) (h : types.getLast? ≠ some .ontid)
    (hslots : j + slots (args.tokens vm) ≤ cfg.parametersMaxNum) : args.Fits cfg vm j := by
  induction args generalizing j with
  | nil => trivial
  | @cons type types a as ih =>
    have hpos := (Args.cons a as).slots_pos vm (by simp) h
    rw [slots_args_cons] at hslots hpos
    refine ⟨by omega, by omega, ?_⟩
    cases types with
    | nil =>
      cases as
      trivial
    | cons type' types =>
      exact ih _ (by rwa [List.getLast?_cons_cons] at h) (by omega)

theorem Args.Fits.slots_le {cfg : Config} {types : List TxParameterType} {args : Args types}
    {vm : Vm} {j : Nat} (hj : j ≤ cfg.parametersMaxNum) (h : args.Fits cfg vm j) :
    j + slots (args.tokens vm) ≤ cfg.parametersMaxNum := by
  induction args generalizing j with
  | nil => exact hj
  | cons a as ih =>
    obtain ⟨-, hle, has⟩ := h
    rw [slots_args_cons, ← Nat.add_assoc]
    exact ih hle has

theorem parameters_getLast : ∀ p ∈ getTxPayload, ∀ m ∈ p.methods,
    m.parameters.getLast? ≠ some .ontid := by
  decide

theorem Arguments.fits_iff {cfg : Config} {vm : Vm} {types : List TxParameterType}
    (args : Arguments vm types) (htypes : types.getLast? ≠ some .ontid) :
    args.Fits cfg ↔ slots args.tokens ≤ cfg.parametersMaxNum := by
  cases args with
  | transfers states count marked =>
    rw [Arguments.Fits, Arguments.tokens, slots_append, slots_transferStates]
    rfl
  | native args =>
    have hslots : slots (Arguments.native args).tokens = slots (args.tokens .native) := by
      simp [Arguments.tokens, slots]
    rw [hslots]
    exact ⟨fun h => by simpa using h.slots_le (Nat.zero_le _),
      fun h => args.fits_of_slots .native 0 htypes (by simpa using h)⟩
  | neovm args count =>
    have hslots : slots (Arguments.neovm args count).tokens = slots (args.tokens .neovm) := by
      simp [Arguments.tokens, slots, Count.token]
    rw [hslots]
    exact ⟨fun h => by simpa using h.slots_le (Nat.zero_le _),
      fun h => args.fits_of_slots .neovm 0 htypes (by simpa using h)⟩
  | wasmvm args =>
    exact ⟨fun h => by simpa [Arguments.tokens] using h.slots_le (Nat.zero_le _),
      fun h => args.fits_of_slots .wasmvm 0 htypes (by simpa [Arguments.tokens] using h)⟩

namespace Signable

variable (x : Signable)

/-- The arguments in the serialized transaction. -/
theorem encode_arguments : ∃ front r,
    x.encode = front ++ (Token.encode x.call.arguments.tokens ++
      (Token.encode x.call.vm.closing ++ r)) ∧ front.length = x.call.argumentsPos x.payloadPos := by
  obtain ⟨h, p, vm, payload, hp, m, hm, args, hrem⟩ := x
  have haddr : payload.contractAddr.length = 20 := length_contractAddr _ hp
  cases vm with
  | wasmvm =>
    refine ⟨h.encode 0xd2 ++ p.encode ++ payload.contractAddr ++ [UInt8.ofNat ((chars m.name).length
      + 1 + args.length)] ++ (UInt8.ofNat (chars m.name).length :: chars m.name), [], ?_, ?_⟩
    · simp [encode_eq, Call.tokens, Call.before, Call.after, Call.nameToken, bytes, Vm.txType,
        Vm.closing]
    · simp [h.length_encode, haddr, payloadPos, Call.argumentsPos, Call.name]
      omega
  | _ =>
    refine ⟨h.encode 0xd1 ++ p.encode, Token.encode (Call.nameToken ⟨_, payload, hp, m, hm, args, hrem⟩ ::
      Call.after ⟨_, payload, hp, m, hm, args, hrem⟩) ++ opcodeEnd, ?_, ?_⟩
    · simp [encode_eq, Call.tokens, Call.before, Vm.txType, Vm.closing]
    · simp [h.length_encode, payloadPos, Call.argumentsPos]

theorem endPos_le : x.call.endPos x.payloadPos ≤ x.encode.length := by
  obtain ⟨front, r, hx, hl⟩ := x.encode_arguments
  rw [hx, Call.endPos, encode_append, ← hl]
  simp only [List.length_append]
  omega

theorem encode_name : ∃ front r, x.encode = front ++ (x.call.name ++ r) ∧
    front.length = x.call.namePos x.payloadPos := by
  refine ⟨x.header.encode x.call.vm.txType ++ x.sizePrefix.encode ++ Token.encode x.call.before ++
    [UInt8.ofNat (chars x.call.method.name).length], Token.encode x.call.after ++ opcodeEnd, ?_, ?_⟩
  · simp [encode_eq, Call.tokens, Call.nameToken, Call.name, bytes]
  · simp [x.header.length_encode, payloadPos, Call.namePos]
    omega

theorem encode_contract : ∃ front r, x.encode = front ++ (x.call.payload.contractAddr ++ r) ∧
    front.length = x.call.contractPos x.payloadPos := by
  obtain ⟨h, p, vm, payload, hp, m, hm, args, hrem⟩ := x
  cases vm with
  | native =>
    refine ⟨h.encode 0xd1 ++ p.encode ++ Token.encode args.tokens ++
      (UInt8.ofNat (chars m.name).length :: chars m.name) ++ [0x14],
      opcodeSyscall ++ nativeInvoke ++ opcodeEnd, ?_, ?_⟩
    · simp [encode_eq, Call.tokens, Call.before, Call.after, Call.nameToken, bytes, Vm.txType]
    · simp [h.length_encode, payloadPos, Call.contractPos, Call.before, Call.name]
      omega
  | neovm =>
    refine ⟨h.encode 0xd1 ++ p.encode ++ Token.encode args.tokens ++
      (UInt8.ofNat (chars m.name).length :: chars m.name) ++ opcodeAppcall, opcodeEnd, ?_, ?_⟩
    · simp [encode_eq, Call.tokens, Call.before, Call.after, Call.nameToken, bytes, Vm.txType]
    · simp [h.length_encode, payloadPos, Call.contractPos, Call.before, Call.name, opcodeAppcall]
      omega
  | wasmvm =>
    refine ⟨h.encode 0xd2 ++ p.encode, Token.encode (Call.before
      ⟨_, payload, hp, m, hm, args, hrem⟩).tail ++ Token.encode (Call.nameToken
      ⟨_, payload, hp, m, hm, args, hrem⟩ :: args.tokens) ++ opcodeEnd, ?_, ?_⟩
    · simp [encode_eq, Call.tokens, Call.before, Call.after, bytes, Vm.txType]
    · simp [h.length_encode, payloadPos, Call.contractPos]

variable (tx : Transaction)

/-- The stored pointers lead to what was serialized. -/
theorem read_name : readPtr x.encode (x.view tx).method.name.data (x.view tx).method.name.len =
    .ok x.call.name := by
  obtain ⟨front, r, hx, hl⟩ := x.encode_name
  have := readPtr_of_split hx
  rwa [hl] at this

theorem read_contract : readPtr x.encode (x.view tx).contract.addr.data addressScriptHashLen =
    .ok x.call.payload.contractAddr := by
  obtain ⟨front, r, hx, hl⟩ := x.encode_contract
  have := readPtr_of_split hx
  rwa [hl, length_contractAddr _ x.call.registered] at this

/-- The fields of the arguments are stored from the first parameter on. -/
theorem read_parameters {k : Nat} {type : TxParameterType} {data : List UInt8}
    (hk : (fields x.call.arguments.tokens)[k]? = some (type, data)) :
    ((x.view tx).method.parameters k).type = type ∧
      readPtr x.encode ((x.view tx).method.parameters k).data
        ((x.view tx).method.parameters k).len = .ok data := by
  obtain ⟨front, r, hx, hl⟩ := x.encode_arguments
  obtain ⟨q, hq, htype, hread⟩ := layout_fields _ hx hk
  have hview : (x.view tx).method.parameters k = q := by
    have := storeParameters_add tx.method.parameters 0 k
      (layout (x.call.argumentsPos x.payloadPos) x.call.arguments.tokens)
    rw [← hl, hq, Option.getD_some, Nat.zero_add] at this
    rw [← this, hl]
    rfl
  rw [hview]
  exact ⟨htype, hread⟩

end Signable

/-- The smallest gas price and gas limit. -/
def minimalHeader : Header where
  nonce := ⟨[0, 0, 0, 0], rfl⟩
  gasPrice := ⟨[0xc4, 0x09, 0, 0, 0, 0, 0, 0], rfl⟩
  gasLimit := ⟨[0x20, 0x4e, 0, 0, 0, 0, 0, 0], rfl⟩
  payer := ⟨List.replicate 20 0x11, rfl⟩
  gasPrice_min := by decide
  gasLimit_min := by decide
  fee_max := by decide

def ontTransfer (states : List TransferState) (count : Count states.length)
    (marked : count.code ≠ .zero) : Call where
  vm := .native
  payload := ⟨ontDecimals, ontTicker, ontAddr, getNativeTokenMethods⟩
  registered := by decide
  method := ⟨methodTransfer, [.transferStateList]⟩
  method_mem := by decide
  arguments := .transfers states count marked
  remaining_lt := fun h => absurd h (by decide)

def fiveOnt : TransferState :=
  ⟨⟨List.replicate 20 0x22, rfl⟩, ⟨List.replicate 20 0x33, rfl⟩, .push 4⟩

/-- One transfer of 5 ONT. -/
def sampleTransfer : Signable :=
  ⟨minimalHeader, .byte 0x71 (by decide) (by decide), ontTransfer [fiveOnt] ⟨.push 0, rfl⟩ (by simp)⟩

theorem sampleTransfer_admitted : sampleTransfer.Admitted ⟨.nano, .w32⟩ :=
  ⟨by decide +kernel, by unfold SizePrefix.Declares; decide +kernel,
    show 3 * 1 ≤ 90 by decide⟩

section
variable [BufferSdk]

/-- The run of the parser over an admitted transaction. -/
theorem Signable.Admitted.run {cfg : Config} {x : Signable} (h : x.Admitted cfg) (tx : Transaction) :
    (transactionDeserialize cfg).run ⟨.ofBytes x.encode, tx⟩ =
      .ok (.ok, ⟨⟨x.encode, x.call.endPos x.payloadPos, x.endPos_le⟩, x.view tx⟩) :=
  ((transactionDeserialize_returns cfg x.encode tx).iff _).mpr ⟨x, rfl, h, rfl, rfl, rfl⟩

/-- An accepted byte string is the serialization of a transaction, with the fields of its arguments
stored in the order of the signature. -/
theorem transactionDeserialize_sound (cfg : Config) (raw : List UInt8) (tx : Transaction)
    (t : ParserState) (h : (transactionDeserialize cfg).run ⟨.ofBytes raw, tx⟩ = .ok (.ok, t)) :
    ∃ x : Signable, x.Admitted cfg ∧ t.tx = x.view tx ∧
      raw = x.header.encode x.call.vm.txType ++
        (x.sizePrefix.encode ++ (Token.encode x.call.tokens ++ opcodeEnd)) ∧
      (x.header.encode x.call.vm.txType).length = 42 ∧
      ∀ k type data, (fields x.call.arguments.tokens)[k]? = some (type, data) →
        (t.tx.method.parameters k).type = type ∧
          readPtr raw (t.tx.method.parameters k).data (t.tx.method.parameters k).len = .ok data := by
  obtain ⟨x, hx, hadm, -, -, htx⟩ := ((transactionDeserialize_returns cfg raw tx).iff t).mp h
  refine ⟨x, hadm, htx, by rw [← hx, x.encode_eq], x.header.length_encode _, fun k type data hk => ?_⟩
  rw [htx, ← hx]
  exact x.read_parameters tx hk

end

theorem transactionDeserialize_sound_sample : ∃ x : Signable, x.Admitted ⟨.nano, .w32⟩ ∧
    sampleTransfer.view .zero = x.view .zero ∧
    sampleTransfer.encode = x.header.encode x.call.vm.txType ++
      (x.sizePrefix.encode ++ (Token.encode x.call.tokens ++ opcodeEnd)) ∧
    (x.header.encode x.call.vm.txType).length = 42 ∧
    ∀ k type data, (fields x.call.arguments.tokens)[k]? = some (type, data) →
      ((sampleTransfer.view .zero).method.parameters k).type = type ∧
        readPtr sampleTransfer.encode ((sampleTransfer.view .zero).method.parameters k).data
          ((sampleTransfer.view .zero).method.parameters k).len = .ok data :=
  letI := BufferSdk.reference
  transactionDeserialize_sound ⟨.nano, .w32⟩ sampleTransfer.encode .zero
    _ (sampleTransfer_admitted.run .zero)

section
variable [BufferSdk]

end

section
variable [BufferSdk]

/-- The loop of `parse_method_params` gets from one of its states to another. -/
inductive LoopReaches (cfg : Config) : List TxParameterType → Nat → ParserState →
    List TxParameterType → Nat → ParserState → Prop
  | refl (types : List TxParameterType) (cur : Nat) (s : ParserState) :
      LoopReaches cfg types cur s types cur s
  | step {type : TxParameterType} {types types' : List TxParameterType} {cur cur₁ cur' : Nat}
      {s t r s' : ParserState} (hcur : cur < cfg.parametersMaxNum)
      (hparam : (parseMethodParam cfg type cur).run s = .ok (some cur₁, t))
      (hend : parseParamEnd.run t = .ok (true, r)) (h : LoopReaches cfg types cur₁ r types' cur' s') :
      LoopReaches cfg (type :: types) cur s types' cur' s'

/-- What the loop keeps: a bounded buffer, the contract, and room before a list of pairs. -/
structure LoopInv (cfg : Config) (vm : Vm) (types : List TxParameterType) (cur : Nat)
    (s : ParserState) : Prop where
  size_le : s.buf.size ≤ cfg.maxTransactionLen
  type_eq : s.tx.contract.type = vm.contractType
  early : PairsEarly cur types

variable {cfg : Config} {vm : Vm} {types types' : List TxParameterType} {cur cur₁ : Nat}
  {s t r : ParserState}

theorem LoopInv.step {type : TxParameterType} (h : LoopInv cfg vm (type :: types) cur s)
    (hcur : cur < cfg.parametersMaxNum)
    (hparam : (parseMethodParam cfg type cur).run s = .ok (some cur₁, t))
    (hend : parseParamEnd.run t = .ok (true, r)) : LoopInv cfg vm types cur₁ r := by
  obtain ⟨a, hcur₁, -, ha⟩ := ((parseMethodParam_delivers hcur
    (fun hp => by subst hp; exact h.early.head) h.size_le h.type_eq).iff cur₁ t).mp hparam
  have htype : t.tx.contract.type = vm.contractType := by rw [ha.contract, h.type_eq]
  have hr := ((parseParamEnd_returns (j := cur₁) htype).iff r).mp hend
  refine ⟨?_, ?_, h.early.tail fun hp => ?_⟩
  · rw [hr.size, ha.size]
    exact h.size_le
  · rw [hr.contract, htype]
  · have := a.slots_le vm hp
    omega

theorem LoopReaches.inv (h : LoopReaches cfg types cur s types' cur₁ t)
    (hs : LoopInv cfg vm types cur s) : LoopInv cfg vm types' cur₁ t := by
  induction h with
  | refl => exact hs
  | step hcur hparam hend _ ih => exact ih (hs.step hcur hparam hend)

/-- The check of the number of pairs on 64 bits bounds it over the integers. -/
theorem LoopInv.pairs_le (h : LoopInv cfg vm (.pkAmountPairs :: types) cur s)
    (hrun : (parsePkAmountPairs cfg cur cur).run s = .ok (some cur₁, t)) :
    ∃ pairs : PkAmountPairs, Reads cur pairs.tokens s t ∧
      2 * pairs.pairs.length + 1 + cur ≤ cfg.parametersMaxNum := by
  obtain ⟨pairs, hcur, hle, hr⟩ :=
    ((parsePkAmountPairs_delivers h.early.head s h.size_le).iff cur₁ t).mp hrun
  rw [PkAmountPairs.slots_tokens] at hcur
  exact ⟨pairs, hr, by omega⟩

/-- No run reads outside the buffer, writes outside the parameter array or goes on forever, and no
list of pairs that is read, whatever the signature and the bytes, is longer than the array. -/
theorem transactionDeserialize_inBounds (cfg : Config) (raw : List UInt8) (tx : Transaction) :
    (∃ status t, (transactionDeserialize cfg).run ⟨.ofBytes raw, tx⟩ = .ok (status, t)) ∧
    ∀ p ∈ getTxPayload, ∀ m ∈ p.methods, ∀ (vm : Vm) (s : ParserState),
      s.buf.size ≤ cfg.maxTransactionLen → s.tx.contract.type = vm.contractType →
      ∀ types cur s', LoopReaches cfg m.parameters 0 s (.pkAmountPairs :: types) cur s' →
      ∀ cur' t, (parsePkAmountPairs cfg cur cur).run s' = .ok (some cur', t) →
      ∃ pairs : PkAmountPairs, Reads cur pairs.tokens s' t ∧
        2 * pairs.pairs.length + 1 + cur ≤ cfg.parametersMaxNum := by
  constructor
  · obtain ⟨status, t, h, -⟩ := transactionDeserialize_returns cfg raw tx
    exact ⟨status, t, h⟩
  · intro p hp m hm vm s hs hvm types cur s' hreach cur' t hrun
    have hinv : LoopInv cfg vm m.parameters 0 s := ⟨hs, hvm, pairsEarly_of_registered p hp m hm⟩
    exact (hreach.inv hinv).pairs_le hrun

end

end AppOnt
