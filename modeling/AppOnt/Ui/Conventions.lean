import AppOnt.Transaction.Fields
import AppOnt.Ui.TxInit

/-!
# The conventions of a registered contract

A registered contract belongs to one virtual machine, which fixes how its
arguments are written and which row shows what. The parser takes the machine
from two bytes of the transaction and everything else from the address, so the
conventions are the contract's own exactly when the two agree.
-/
namespace AppOnt

open Token

/-- The virtual machine that a registered contract belongs to. -/
def Payload.vm (p : Payload) : Vm :=
  if p.contractAddr = stontAddr then .wasmvm
  else if p.contractAddr = wingAddr ∨ p.contractAddr = mblAddr then .neovm
  else .native

/-- The decimals of the amounts of a method: the second versions of the methods of the native
tokens have nine more. -/
def Payload.decimalsOf (p : Payload) (method : String) : Nat :=
  if (p.contractAddr = ontAddr ∨ p.contractAddr = ongAddr) ∧
      (method = methodTransferV2 ∨ method = methodTransferFromV2 ∨ method = methodApproveV2) then
    p.tokenDecimals + 9
  else p.tokenDecimals

theorem length_wasmvm {types : List TxParameterType} (args : Args types)
    (h : ∀ type ∈ types, type = .addr ∨ type = .uint128) :
    (encode (args.tokens .wasmvm)).length ≤ 20 * types.length := by
  induction args with
  | nil => exact Nat.le_refl 0
  | @cons type types a as ih =>
    have hrest := ih fun type hmem => h type (List.mem_cons_of_mem _ hmem)
    have hfirst : (encode (a.tokens .wasmvm)).length ≤ 20 := by
      cases a with
      | addr a => simp [Arg.tokens, addressToken, encode, bytes, a.2, addressScriptHashLen]
      | uint128 n => simp [Arg.tokens, encode, bytes, n.2]
      | _ => exact absurd (h _ List.mem_cons_self) (by decide)
    simp only [Args.tokens, encode_append, List.length_append, List.length_cons]
    have hnone : (encode (if Vm.wasmvm = .native then [paramEnd] else [])).length = 0 := rfl
    omega

/-- The length of the name and the arguments of a WASM contract's own call always fits in a byte. -/
theorem Payload.remaining_lt {p : Payload} (hp : p ∈ getTxPayload) (hvm : p.vm = .wasmvm)
    {m : TxMethodSignature} (hm : m ∈ p.methods) (args : Arguments .wasmvm m.parameters) :
    (chars m.name).length + 1 + args.length < 256 := by
  have htable : ∀ p ∈ getTxPayload, p.vm = .wasmvm → ∀ m ∈ p.methods,
      (∀ type ∈ m.parameters, type = .addr ∨ type = .uint128) ∧
        (chars m.name).length + 1 + 20 * m.parameters.length < 256 := by decide +kernel
  obtain ⟨htypes, hlt⟩ := htable p hp hvm m hm
  cases args with
  | wasmvm args =>
    have hlen := length_wasmvm args htypes
    exact Nat.lt_of_le_of_lt (Nat.add_le_add_left hlen _) hlt

/-- The review labels the parameter `k`: by its own configuration, or by that of its place in a
transfer of a list. A row without a parameter is not shown. -/
inductive LabelledBy (raw : List UInt8) (tx : Transaction) (display : MethodDisplay) (k : Nat)
    (item : String) : Prop
  | config (present : (tx.method.parameters k).data ≠ none)
      (h : display.configs[k]?.map (·.item) = some item)
  | state (native : tx.contract.type = .native)
      (transfer : methodcmp raw tx.method.name methodTransfer = .ok true ∨
        methodcmp raw tx.method.name methodTransferV2 = .ok true)
      (present : (tx.method.parameters k).data ≠ none)
      (h : display.configs[k % 3]?.map (·.item) = some item)

/-- A label says what kind of parameter it shows. -/
def LabelFits (item : String) (type : TxParameterType) : Prop :=
  (item = itemAmount → type = .amount ∨ type = .uint128) ∧
    (item = itemFrom ∨ item = itemTo ∨ item = itemSpender → type = .addr)

instance (item : String) (type : TxParameterType) : Decidable (LabelFits item type) := by
  unfold LabelFits
  infer_instance

/-- The call is read with the conventions of the contract that it is for. -/
structure FollowsConventions (cfg : Config) (raw : List UInt8) (tx : Transaction) : Prop where
  contract : ∃ p ∈ getTxPayload, ∃ m ∈ p.methods,
    readPtr raw tx.contract.addr.data addressScriptHashLen = .ok p.contractAddr ∧
      readPtr raw tx.method.name.data tx.method.name.len = .ok (chars m.name) ∧
      tx.contract.type = p.vm.contractType ∧ tx.contract.ticker = some p.ticker ∧
      tx.contract.tokenDecimals = p.decimalsOf m.name
  rows : ∃ display, initDipslayPosAndItem cfg raw tx = .ok (some display) ∧
    ∀ k item, LabelledBy raw tx display k item → LabelFits item (tx.method.parameters k).type

/-- How long the payload size is that starts with a given byte. -/
def sizePrefixLength (firstByte : UInt8) : Nat :=
  match firstByte with
  | 0xfd => 3
  | 0xfe => 5
  | 0xff => 9
  | _ => 1

/-- The machine that two bytes of a transaction select, and the contract address in its place. -/
def calledContract (raw : List UInt8) : Vm × List UInt8 :=
  if raw.getD 1 0 = 0xd2 then
    (.wasmvm, (raw.drop (42 + sizePrefixLength (raw.getD 42 0))).take 20)
  else if raw.getD (raw.length - 22) 0 = 0x67 then (.neovm, (raw.drop (raw.length - 21)).take 20)
  else (.native, (raw.drop (raw.length - 46)).take 20)

theorem sizePrefixLength_of_lt {b : UInt8} (h : b < 0xfd) : sizePrefixLength b = 1 := by
  unfold sizePrefixLength
  split <;> first | rfl | exact absurd h (by decide)

theorem SizePrefix.length_of_head (p : SizePrefix) (r : List UInt8) :
    sizePrefixLength ((p.encode ++ r).getD 0 0) = p.encode.length := by
  cases p with
  | byte b pos lt => exact sizePrefixLength_of_lt lt
  | uint16 bs => simp [encode, sizePrefixLength, bs.2]
  | uint32 bs => simp [encode, sizePrefixLength, bs.2]
  | uint64 bs => simp [encode, sizePrefixLength, bs.2]

section
variable {raw front addr r : List UInt8}

theorem calledContract_wasmvm (front r : List UInt8) (p : SizePrefix) (haddr : addr.length = 20)
    (h : raw = front ++ (p.encode ++ (addr ++ r))) (hfront : front.length = 42)
    (htype : raw.getD 1 0 = 0xd2) : calledContract raw = (.wasmvm, addr) := by
  have hhead : raw.getD 42 0 = (p.encode ++ (addr ++ r)).getD 0 0 := by
    rw [h, List.getD_append_right _ _ _ _ (Nat.le_of_eq hfront), hfront]
  have hdrop : raw.drop (42 + p.encode.length) = addr ++ r := by
    rw [h, ← List.append_assoc, ← hfront, ← List.length_append, List.drop_left]
  rw [calledContract, if_pos htype, hhead, p.length_of_head, hdrop, ← haddr, List.take_left]

theorem calledContract_neovm (front : List UInt8) (haddr : addr.length = 20)
    (h : raw = front ++ (0x67 :: (addr ++ opcodeEnd))) (htype : raw.getD 1 0 ≠ 0xd2) :
    calledContract raw = (.neovm, addr) := by
  have hlen : raw.length = front.length + 22 := by
    rw [h]
    simp [haddr, opcodeEnd]
  have hdisc : raw.getD (raw.length - 22) 0 = 0x67 := by
    rw [hlen, Nat.add_sub_cancel, h, List.getD_append_right _ _ _ _ (Nat.le_refl _), Nat.sub_self]
    rfl
  have hdrop : raw.drop (raw.length - 21) = addr ++ opcodeEnd := by
    rw [hlen, h, List.append_cons]
    exact List.drop_left' (by simp)
  rw [calledContract, if_neg htype, if_pos hdisc, hdrop, ← haddr, List.take_left]

theorem calledContract_native (front : List UInt8) (haddr : addr.length = 20)
    (h : raw = front ++ (addr ++ (opcodeSyscall ++ nativeInvoke ++ opcodeEnd)))
    (htype : raw.getD 1 0 ≠ 0xd2) : calledContract raw = (.native, addr) := by
  have hlen : raw.length = front.length + 46 := by
    rw [h]
    simp [haddr]
    rfl
  have hdisc : raw.getD (raw.length - 22) 0 ≠ 0x67 := by
    rw [hlen, h, List.getD_append_right _ _ _ _ (by omega),
      List.getD_append_right _ _ _ _ (by omega), haddr]
    rw [show front.length + 46 - 22 - front.length - 20 = 4 by omega]
    decide
  have hdrop : raw.drop (raw.length - 46) = addr ++ (opcodeSyscall ++ nativeInvoke ++ opcodeEnd) := by
    rw [hlen, Nat.add_sub_cancel, h, List.drop_left]
  rw [calledContract, if_neg htype, if_neg hdisc, hdrop, ← haddr, List.take_left]

end

theorem Signable.getD_txType (x : Signable) : x.encode.getD 1 0 = x.call.vm.txType := by
  rw [x.encode_eq]
  rfl

/-- The bytes of a serialized transaction select its own machine and contract. -/
theorem calledContract_encode (x : Signable) :
    calledContract x.encode = (x.call.vm, x.call.payload.contractAddr) := by
  have htype := x.getD_txType
  obtain ⟨h, p, vm, payload, hp, m, hm, args, hrem⟩ := x
  have haddr : payload.contractAddr.length = 20 := length_contractAddr _ hp
  cases vm with
  | wasmvm =>
    refine calledContract_wasmvm (h.encode 0xd2) (Token.encode
      (Call.tokens ⟨.wasmvm, payload, hp, m, hm, args, hrem⟩).tail ++ opcodeEnd) p haddr ?_
      (h.length_encode _) htype
    simp [Signable.encode_eq, Call.tokens, Call.before, bytes, Vm.txType]
  | neovm =>
    refine calledContract_neovm (h.encode 0xd1 ++ p.encode ++ Token.encode args.tokens ++
      (UInt8.ofNat (chars m.name).length :: chars m.name)) haddr ?_ ?_
    · simp [Signable.encode_eq, Call.tokens, Call.before, Call.after, Call.nameToken, bytes, Vm.txType,
        opcodeAppcall]
    · rw [htype]
      exact (by decide : Vm.txType .neovm ≠ 0xd2)
  | native =>
    refine calledContract_native (h.encode 0xd1 ++ p.encode ++ Token.encode args.tokens ++
      (UInt8.ofNat (chars m.name).length :: chars m.name) ++ [0x14]) haddr ?_ ?_
    · simp [Signable.encode_eq, Call.tokens, Call.before, Call.after, Call.nameToken, bytes, Vm.txType]
    · rw [htype]
      exact (by decide : Vm.txType .native ≠ 0xd2)

/-- Two registered contracts with one address are one. -/
theorem payload_unique {p q : Payload} (hp : p ∈ getTxPayload) (hq : q ∈ getTxPayload)
    (h : p.contractAddr = q.contractAddr) : p = q :=
  List.inj_on_of_nodup_map nodup_contractAddr hp hq h

theorem tokenDecimals_vm : ∀ p ∈ getTxPayload, ∀ m ∈ p.methods,
    p.vm.tokenDecimals p m.name = p.decimalsOf m.name := by
  decide +kernel

/-- The labels depend on the device, not on the width of `size_t`. -/
theorem displayOf_target (cfg : Config) (type : TxContractType) (name : List UInt8) :
    displayOf cfg type name = displayOf ⟨cfg.target, .w32⟩ type name := rfl

theorem map_methodDisplays (cfg : Config) (type : TxContractType) :
    (methodDisplays cfg type).map (·.1) = (methodDisplays ⟨.nano, .w32⟩ .native).map (·.1) := rfl

theorem mem_methodDisplays : ∀ p ∈ getTxPayload, ∀ m ∈ p.methods,
    m.name ∈ (methodDisplays ⟨.nano, .w32⟩ .native).map (·.1) := by
  decide +kernel

/-- Every registered method is displayed, on every machine. -/
theorem displayOf_isSome (cfg : Config) (type : TxContractType) {p : Payload} (hp : p ∈ getTxPayload)
    {m : TxMethodSignature} (hm : m ∈ p.methods) : (displayOf cfg type (chars m.name)).isSome := by
  have h := mem_methodDisplays p hp m hm
  rw [← map_methodDisplays cfg type] at h
  obtain ⟨d, hd, hname⟩ := List.mem_map.mp h
  rw [displayOf, Option.isSome_map, List.find?_isSome]
  exact ⟨d, hd, by rw [hname]; exact decide_eq_true rfl⟩

/-- The table of rows agrees with the signatures, machine by machine. -/
theorem rows_agree (cfg : Config) : ∀ p ∈ getTxPayload, ∀ m ∈ p.methods,
    ∀ display ∈ displayOf cfg p.vm.contractType (chars m.name),
      if m.parameters = [.transferStateList] then display.configs.length = 3 ∧
        ∀ c ∈ display.configs.zip [.addr, .addr, .amount], LabelFits c.1.item c.2
      else display.configs.length ≤ (fixedTypes m.parameters).length ∧
        ∀ c ∈ display.configs.zip (fixedTypes m.parameters), LabelFits c.1.item c.2 := by
  simp only [displayOf_target cfg]
  cases cfg.target <;> decide +kernel

theorem transfer_parameters : ∀ p ∈ getTxPayload, ∀ m ∈ p.methods, p.vm = .native →
    m.name = methodTransfer ∨ m.name = methodTransferV2 → m.parameters = [.transferStateList] := by
  decide +kernel

theorem chars_method_inj : ∀ p ∈ getTxPayload, ∀ m ∈ p.methods,
    (chars methodTransfer = chars m.name → m.name = methodTransfer) ∧
      (chars methodTransferV2 = chars m.name → m.name = methodTransferV2) := by
  decide +kernel

/-- What pairs up in two lists satisfies what all their pairs do. -/
theorem of_mem_zip {α β : Type} {u : List α} {v : List β} {P : α → β → Prop}
    (h : ∀ c ∈ u.zip v, P c.1 c.2) {k : Nat} {a : α} {b : β} (ha : u[k]? = some a)
    (hb : v[k]? = some b) : P a b :=
  h (a, b) (List.mem_of_getElem? (List.getElem?_zip_eq_some.mpr ⟨ha, hb⟩))

namespace Signable

variable (x : Signable) {cfg : Config}

theorem initDipslay_view (cfg : Config) (tx : Transaction) :
    initDipslayPosAndItem cfg x.encode (x.view tx) =
      .ok (displayOf cfg x.call.vm.contractType x.call.name) :=
  initDipslay_eq (x.read_name tx) rfl (name_bounds _ x.call.registered _ x.call.method_mem).1

theorem methodcmp_view (tx : Transaction) (m : String) :
    methodcmp x.encode (x.view tx).method.name m = .ok (decide (chars m = x.call.name)) :=
  methodcmp_eq (x.read_name tx) rfl m

/-- On the machine of the contract the labels fit the parameters. -/
theorem labelFits (hvm : x.call.payload.vm = x.call.vm) {display : MethodDisplay} {k : Nat}
    {item : String} (hd : displayOf cfg x.call.vm.contractType x.call.name = some display)
    (h : LabelledBy x.encode (x.view .zero) display k item) :
    LabelFits item ((x.view .zero).method.parameters k).type := by
  have hp := x.call.registered
  have hm := x.call.method_mem
  have hrows := rows_agree cfg _ hp _ hm display (by rw [hvm]; exact hd)
  cases h with
  | config present hitem =>
    obtain ⟨c, hc, rfl⟩ := Option.map_eq_some_iff.mp hitem
    split at hrows
    · rename_i hlist
      have hlt := (List.getElem?_eq_some_iff.mp hc).1
      have htype := x.type_of_state hlist present
      rw [Nat.mod_eq_of_lt (by omega)] at htype
      exact of_mem_zip (P := fun c ty => LabelFits c.item ty) hrows.2 hc htype
    · have hlt := (List.getElem?_eq_some_iff.mp hc).1
      have hfixed := List.getElem?_eq_getElem (Nat.lt_of_lt_of_le hlt hrows.1)
      obtain ⟨data, hf⟩ := x.call.arguments.type_of_fixed hfixed
      rw [(x.stored _ hf).type_eq]
      exact of_mem_zip (P := fun c ty => LabelFits c.item ty) hrows.2 hc hfixed
  | state native transfer present hitem =>
    obtain ⟨c, hc, rfl⟩ := Option.map_eq_some_iff.mp hitem
    have hname : x.call.method.name = methodTransfer ∨ x.call.method.name = methodTransferV2 := by
      have hinj := chars_method_inj _ hp _ hm
      simp only [x.methodcmp_view, Except.ok.injEq, decide_eq_true_eq] at transfer
      exact transfer.imp hinj.1 hinj.2
    have hnative : x.call.payload.vm = .native := hvm.trans (Vm.contractType_inj native)
    have hlist := transfer_parameters _ hp _ hm hnative hname
    rw [if_pos hlist] at hrows
    exact of_mem_zip (P := fun c ty => LabelFits c.item ty) hrows.2 hc (x.type_of_state hlist present)

theorem followsConventions_iff :
    FollowsConventions cfg x.encode (x.view .zero) ↔ x.call.payload.vm = x.call.vm := by
  have hp := x.call.registered
  constructor
  · intro h
    obtain ⟨p, hp', m, -, haddr, -, htype, -⟩ := h.contract
    have := payload_unique hp hp' (Except.ok.inj ((x.read_contract .zero).symm.trans haddr))
    rw [this]
    exact (Vm.contractType_inj htype).symm
  · intro hvm
    obtain ⟨display, hd⟩ := Option.isSome_iff_exists.mp
      (displayOf_isSome cfg x.call.vm.contractType hp x.call.method_mem)
    refine ⟨⟨_, hp, _, x.call.method_mem, x.read_contract .zero, x.read_name .zero, ?_, rfl, ?_⟩,
      display, ?_, fun k item h => x.labelFits hvm hd h⟩
    · rw [hvm]
      rfl
    · rw [← tokenDecimals_vm _ hp _ x.call.method_mem, hvm]
      rfl
    · rw [x.initDipslay_view, Call.name, hd]

end Signable

/-- An accepted call is read with the conventions of its contract exactly when the machine that its
bytes select is the one that the contract belongs to. -/
theorem followsConventions_iff_calledContract [BufferSdk] (cfg : Config) (raw : List UInt8)
    (t : ParserState) (h : (transactionDeserialize cfg).run ⟨.ofBytes raw, .zero⟩ = .ok (.ok, t)) :
    FollowsConventions cfg raw t.tx ↔
      calledContract raw ∈ getTxPayload.map fun p => (p.vm, p.contractAddr) := by
  obtain ⟨x, rfl, -, -, -, htx⟩ := ((transactionDeserialize_returns cfg raw .zero).iff t).mp h
  rw [htx, x.followsConventions_iff, calledContract_encode, List.mem_map]
  constructor
  · exact fun hvm => ⟨_, x.call.registered, by rw [hvm]⟩
  · rintro ⟨p, hp, he⟩
    obtain ⟨hvm, haddr⟩ := Prod.mk.inj he
    rw [← payload_unique hp x.call.registered haddr, hvm]

theorem followsConventions_sample :
    FollowsConventions ⟨.nano, .w32⟩ sampleTransfer.encode (sampleTransfer.view .zero) :=
  letI := BufferSdk.reference
  (followsConventions_iff_calledContract ⟨.nano, .w32⟩ sampleTransfer.encode
    _ (sampleTransfer_admitted.run .zero)).mpr (by decide +kernel)

/-- A transfer of the WING contract, called as a native contract. -/
def wingAsNative : Call where
  vm := .native
  payload := ⟨9, "WING", wingAddr, getNeovmOep4TokenMethods⟩
  registered := by decide
  method := ⟨methodTransfer, [.amount, .addr, .addr]⟩
  method_mem := by decide
  arguments := .native (.cons (.amount fiveOnt.amount) (.cons (.addr ⟨List.replicate 20 0x44, by decide⟩)
    (.cons (.addr ⟨List.replicate 20 0x55, by decide⟩) .nil)))
  remaining_lt := fun h => absurd h (by decide)

def wingTransaction : Signable :=
  ⟨minimalHeader, .byte 0x6f (by decide) (by decide), wingAsNative⟩

theorem wingTransaction_admitted : wingTransaction.Admitted ⟨.nano, .w32⟩ :=
  ⟨by decide +kernel, by unfold SizePrefix.Declares; decide +kernel, by
    refine (Arguments.fits_iff _ ?_).mpr ?_ <;> decide +kernel⟩

theorem wingTransaction_misread : ∃ t,
    (@transactionDeserialize BufferSdk.reference ⟨.nano, .w32⟩).run
      ⟨.ofBytes wingTransaction.encode, .zero⟩ = .ok (.ok, t) ∧
    t.tx.contract.ticker = some "WING" ∧ t.tx.contract.tokenDecimals = 0 ∧
    ¬ FollowsConventions ⟨.nano, .w32⟩ wingTransaction.encode t.tx := by
  let := BufferSdk.reference
  refine ⟨_, wingTransaction_admitted.run .zero, rfl, rfl, ?_⟩
  rw [wingTransaction.followsConventions_iff]
  decide

end AppOnt
