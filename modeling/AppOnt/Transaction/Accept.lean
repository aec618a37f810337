import AppOnt.Transaction.ParamsStage

/-!
# What the deserializer accepts

The stages composed: `transactionDeserialize` faults on no bytes, and it returns
`PARSING_OK` exactly on the serializations of the format, with the transaction
that was serialized. Three passes tie up here: the tail is read first, the name
is found backwards and the arguments are read forwards, and the last length
check makes the forward pass end where the scan stopped.
-/
namespace AppOnt

open Prog Token

namespace Call

variable (c : Call) (off : Nat)

def name : List UInt8 := chars c.method.name

/-- The positions of a call that is serialized from `off` on. -/
def namePos : Nat := off + (encode c.before).length + 1

def contractPos : Nat :=
  match c.vm with
  | .native | .neovm => off + (encode c.before).length + c.name.length + 2
  | .wasmvm => off

def argumentsPos : Nat :=
  match c.vm with
  | .native | .neovm => off
  | .wasmvm => off + 22 + c.name.length

/-- The parsed call: nothing is copied, so its pointers say where it was serialized. -/
def view (tx : Transaction) : Transaction :=
  { tx with
    contract := ⟨c.vm.contractType, ⟨some (c.contractPos off), .addr, 20⟩, some c.payload.ticker,
      c.vm.tokenDecimals c.payload c.method.name⟩
    method := ⟨⟨some (c.namePos off), tx.method.name.type, c.name.length⟩,
      storeParameters tx.method.parameters 0 (layout (c.argumentsPos off) c.arguments.tokens)⟩ }

/-- Where the buffer is left. -/
def endPos : Nat := c.argumentsPos off + (encode (c.arguments.tokens ++ c.vm.closing)).length

end Call

namespace Signable

variable (x : Signable)

/-- Where the payload code starts. -/
def payloadPos : Nat := 42 + x.sizePrefix.encode.length

def view (tx : Transaction) : Transaction :=
  x.call.view x.payloadPos (tx.setHeader (x.header.view x.call.vm.txType 22))

/-- The limits of a build: a length, the room for parameters, and a payload size that agrees with
the length modulo the width of `size_t`. -/
structure Admitted (cfg : Config) : Prop where
  length_le : x.encode.length ≤ cfg.maxTransactionLen
  declares : x.sizePrefix.Declares cfg 42 x.encode.length
  fits : x.call.arguments.Fits cfg

end Signable

theorem Vm.contractType_inj {vm vm' : Vm} (h : vm.contractType = vm'.contractType) : vm = vm' := by
  cases vm <;> cases vm' <;> first | rfl | cases h

theorem andThen_returns {x y : ParseM ParserStatus} {s : ParserState} {R : ParserState → Prop}
    {S : ParserState → ParserState → Prop} (hx : Returns x s .ok R)
    (hy : ∀ t, R t → Returns y t .ok (S t)) :
    Returns (andThen x y) s .ok fun u => ∃ t, R t ∧ S t u := by
  refine hx.bind hy fun status t hne => ?_
  cases status with
  | ok => exact absurd rfl hne
  | _ => exact returns_pure_ne (by simp)

section
variable {cfg : Config} {s t r v : ParserState} {vm : Vm} {a : Bytes addressScriptHashLen}
  {name : List UInt8}

theorem Vm.ContractAt.type_eq (h : vm.ContractAt a s t) :
    t.tx.contract.type = vm.contractType := by
  cases vm with
  | native => rw [h.2]; rfl
  | neovm => rw [h.2]; rfl
  | wasmvm => rw [h.2]; rfl

theorem Vm.ContractAt.size_eq (h : vm.ContractAt a s t) : t.buf.size = s.buf.size := by
  cases vm with
  | native => rw [h.2]
  | neovm => rw [h.2]
  | wasmvm => exact h.1.size

theorem Vm.ContractAt.contract_eq (h : vm.ContractAt a s t) :
    readPtr t.buf.ptr t.tx.contract.addr.data addressScriptHashLen = .ok a.1 := by
  have hne : a.1 ≠ [] := List.length_pos_iff.mp (by rw [a.2]; decide)
  suffices hread : readPtr t.buf.ptr t.tx.contract.addr.data a.1.length = .ok a.1 by
    rwa [a.2] at hread
  cases vm with
  | native =>
    obtain ⟨⟨u, hu⟩, ht⟩ := h
    subst ht
    refine readPtr_of_drop (r := opcodeSyscall ++ (nativeInvoke ++ opcodeEnd)) ?_ hne
    rw [Buffer.drop_size_sub hu (by rw [length_nativeTail]; omega), length_nativeTail]
    rfl
  | neovm =>
    obtain ⟨⟨u, hu⟩, ht⟩ := h
    subst ht
    refine readPtr_of_drop (r := opcodeEnd) ?_ hne
    rw [Buffer.drop_size_sub hu (by rw [length_neovmTail]; omega), length_neovmTail]
    rfl
  | wasmvm =>
    rw [h.2, h.1.1]
    exact h.1.readPtr

theorem Vm.ContractAt.offset_le (h : vm.ContractAt a s t) : s.buf.offset ≤ t.buf.offset := by
  cases vm with
  | native => rw [h.2]
  | neovm => rw [h.2]
  | wasmvm => rw [h.1.offset]; omega

theorem Vm.ContractAt.tail_le (h : vm.ContractAt a s t) (hvm : vm ≠ .wasmvm) :
    t.buf.offset + (vm.tail a.1).length ≤ t.buf.size := by
  obtain ⟨⟨u, hu⟩, ht⟩ := (Vm.contractAt_iff hvm).mp h
  subst ht
  have hl := congrArg List.length hu
  have := s.buf.offset_add_length_rest
  rw [List.length_append] at hl
  dsimp only
  omega

theorem Vm.MethodStage.contract_eq (h : vm.MethodStage name t r) :
    r.tx.contract = t.tx.contract := by
  cases vm with
  | native => obtain ⟨cur, -, -, -, hr⟩ := h; rw [hr]; rfl
  | neovm => obtain ⟨cur, -, -, -, hr⟩ := h; rw [hr]; rfl
  | wasmvm => obtain ⟨remaining, -, -, -, hr⟩ := h; rw [hr]; rfl

theorem Vm.MethodStage.size_eq (h : vm.MethodStage name t r) : r.buf.size = t.buf.size := by
  cases vm with
  | native => obtain ⟨cur, -, -, -, hr⟩ := h; rw [hr]
  | neovm => obtain ⟨cur, -, -, -, hr⟩ := h; rw [hr]
  | wasmvm => obtain ⟨remaining, -, -, hb, -⟩ := h; exact hb.size

theorem Vm.MethodStage.ends (h : vm.MethodStage name t r) (hc : vm.ContractAt a s t)
    (hvm : vm = .native) : ∃ u, r.buf.rest = u ++ [0x00] := by
  subst hvm
  obtain ⟨⟨u, hu⟩, ht⟩ := hc
  obtain ⟨cur, -, -, -, hr⟩ := h
  subst hr ht
  refine ⟨u ++ (([0x14] ++ a.1) ++ (opcodeSyscall ++ nativeInvoke)), ?_⟩
  rw [hu, nativeTail]
  simp only [List.append_assoc]
  rfl

theorem Vm.ParamsAt.type_eq (h : vm.ParamsAt cfg a.1 name s t) :
    t.tx.contract.type = s.tx.contract.type := by
  obtain ⟨p, -, -, m, -, -, args, -, hr⟩ := h
  rw [hr.contract]
  rfl

theorem Vm.ParamsAt.name_eq (h : vm.ParamsAt cfg a.1 name s t) :
    t.tx.method.name = s.tx.method.name := by
  obtain ⟨p, -, -, m, -, -, args, -, hr⟩ := h
  rw [hr.2]
  rfl

theorem Vm.ParamsAt.size_eq (h : vm.ParamsAt cfg a.1 name s t) : t.buf.size = s.buf.size := by
  obtain ⟨p, -, -, m, -, -, args, -, hr⟩ := h
  exact hr.size

theorem MethodAt.name_eq {type : TxContractType} {c : Nat} (h : MethodAt type c name s t) :
    readPtr t.buf.ptr t.tx.method.name.data t.tx.method.name.len = .ok name := by
  obtain ⟨cur, -, -, ⟨w, hw⟩, ht⟩ := h
  subst ht
  have := readPtr_of_drop hw.symm (by simp)
  exact ((readPtr_append (u := [_])).mp this).2

theorem MethodAt.named {type : TxContractType} {c : Nat} (h : MethodAt type c name t r)
    (hc : vm.ContractAt a s t) : Named r a.1 name := by
  have hname := MethodAt.name_eq h
  obtain ⟨cur, -, -, -, hr⟩ := h
  subst hr
  exact ⟨hc.contract_eq, hname, rfl⟩

theorem Vm.MethodStage.named (h : vm.MethodStage name t r) (hc : vm.ContractAt a s t) :
    Named r a.1 name := by
  cases vm with
  | native | neovm => exact MethodAt.named h hc
  | wasmvm =>
    obtain ⟨remaining, -, -, hb, hr⟩ := h
    have hname := (readPtr_append (u := [_, _])).mp hb.readPtr
    refine ⟨?_, ?_, by rw [hr]; rfl⟩
    · rw [hr, hb.1]
      exact hc.contract_eq
    · rw [hr, hb.1]
      exact hname.2

end

/-- How much of the buffer is left after the arguments. -/
def Vm.trailing (vm : Vm) (nameLength : Nat) : Nat :=
  match vm with
  | .native => nameLength + 48
  | .neovm => nameLength + 23
  | .wasmvm => 0

theorem Vm.closing_eq {vm : Vm} (hvm : vm ≠ .wasmvm) : vm.closing = [] := by
  cases vm with
  | native | neovm => rfl
  | wasmvm => exact absurd rfl hvm

theorem Vm.trailing_eq {vm : Vm} (hvm : vm ≠ .wasmvm) (a : Bytes addressScriptHashLen)
    (nameLength : Nat) : vm.trailing nameLength = nameLength + 1 + (vm.tail a.1).length := by
  rw [Vm.length_tail hvm]
  cases vm with
  | native | neovm => rfl
  | wasmvm => exact absurd rfl hvm

/-- A run of the stages after the prefix, through `t` and `r`. -/
structure CallRuns (cfg : Config) (vm : Vm) (a : Bytes addressScriptHashLen) (name : List UInt8)
    (s t r u : ParserState) : Prop where
  contract : vm.ContractAt a s t
  name_ne_nil : name ≠ []
  name_lt : name.length < 256
  method : vm.MethodStage name t r
  params : vm.ParamsAt cfg a.1 name r u
  closed : u.buf.offset + vm.trailing name.length = u.buf.size

section
variable [BufferSdk] {cfg : Config} {s : ParserState}

omit [BufferSdk] in
theorem checkLength_returns {vm : Vm} (hvm : s.tx.contract.type = vm.contractType)
    (hs : s.buf.size ≤ cfg.maxTransactionLen) (hname : s.tx.method.name.len < 256) :
    Returns (checkLength cfg) s .ok fun t =>
      s.buf.offset + vm.trailing s.tx.method.name.len = s.buf.size ∧ t = s := by
  have hM := cfg.sizeMod_cases
  have hmax := cfg.target_cases
  have hoff := s.buf.offset_le_size
  have hlen : trailingLength s.tx = some (vm.trailing s.tx.method.name.len) := by
    rw [trailingLength, hvm]
    cases vm <;> rfl
  have htrail : vm.trailing s.tx.method.name.len < 304 := by
    cases vm <;> simp [Vm.trailing] <;> omega
  refine returns_get_bind.mpr ?_
  rw [hlen]
  dsimp only
  rw [cfg.addSize_of_lt (by omega)]
  split
  · rename_i h
    exact (returns_pure ParserStatus.ok .ok).congr fun t => by simp [h]
  · rename_i h
    exact (returns_pure_ne (by simp)).congr fun t => by simp [h]

theorem call_returns (hs : s.buf.size ≤ cfg.maxTransactionLen) (hbegin : 2 ≤ s.buf.offset) :
    Returns (andThen (transactionDeserializeContract cfg) <|
      andThen (transactionDeserializeMethod cfg) <|
      andThen (transactionDeserializeParams cfg) <| checkLength cfg) s .ok fun u =>
      ∃ vm a name t r, s.tx.header.txType = vm.txType ∧ CallRuns cfg vm a name s t r u := by
  have hmax := cfg.target_cases
  have hM := cfg.sizeMod_cases
  refine Returns.congr (andThen_returns (transactionDeserializeContract_returns (by omega))
    (S := fun t u => ∃ vm a name r, s.tx.header.txType = Vm.txType vm ∧
      CallRuns cfg vm a name s t r u) fun t ⟨vm, a, htype, hc⟩ => ?_) fun u => ?_
  · refine Returns.congr (andThen_returns (transactionDeserializeMethod_returns hc.type_eq
      (by rw [hc.size_eq]; omega) (hc.offset_le.trans' hbegin) hc.tail_le)
      (S := fun r u => ∃ name, CallRuns cfg vm a name s t r u)
      fun r ⟨name, ⟨hne, hlt⟩, hm⟩ => ?_) fun u => ?_
    · have hnamed := hm.named hc
      have hvm : r.tx.contract.type = vm.contractType := by rw [hm.contract_eq, hc.type_eq]
      have hsize : r.buf.size = s.buf.size := by rw [hm.size_eq, hc.size_eq]
      refine Returns.congr (andThen_returns (transactionDeserializeParams_returns hnamed hvm
        (by rw [hsize]; exact hs) (hm.ends hc)) fun v hv => checkLength_returns
        (hv.type_eq.trans hvm) (by rw [hv.size_eq, hsize]; exact hs)
        (by rw [hv.name_eq, hnamed.length_eq]; exact hlt)) fun u => ?_
      constructor
      · rintro ⟨name', h⟩
        obtain rfl := (hnamed.unique (h.method.named hc)).2
        refine ⟨u, h.params, ?_, rfl⟩
        rw [h.params.name_eq, hnamed.length_eq]
        exact h.closed
      · rintro ⟨v, hv, hclosed, hu⟩
        subst hu
        rw [hv.name_eq, hnamed.length_eq] at hclosed
        exact ⟨name, hc, hne, hlt, hm, hv, hclosed⟩
    · constructor
      · rintro ⟨vm', a', name, r, _, h⟩
        obtain rfl := Vm.contractType_inj (hc.type_eq.symm.trans h.contract.type_eq)
        have haa := Except.ok.inj (hc.contract_eq.symm.trans h.contract.contract_eq)
        obtain rfl : a = a' := Subtype.ext haa
        exact ⟨r, ⟨name, ⟨h.name_ne_nil, h.name_lt⟩, h.method⟩, name, h⟩
      · rintro ⟨r, _, name, h⟩
        exact ⟨vm, a, name, r, htype, h⟩
  · constructor
    · rintro ⟨vm, a, name, t, r, htype, h⟩
      exact ⟨t, ⟨vm, a, htype, h.contract⟩, vm, a, name, r, htype, h⟩
    · rintro ⟨t, _, vm, a, name, r, htype, h⟩
      exact ⟨vm, a, name, t, r, htype, h⟩

end

/-- The read that ends at a given offset. -/
theorem Buffer.consumes_of_offset {b b' : Buffer} {bs r : List UInt8} (hp : b'.ptr = b.ptr)
    (ho : b'.offset = b.offset + bs.length) (h : b.rest = bs ++ r) : b.Consumes bs b' := by
  obtain ⟨c, hc, -⟩ := exists_consumes h
  obtain rfl : b' = c := Buffer.ext (hp.trans hc.1.symm) (ho.trans hc.offset.symm)
  exact hc

/-- The forward pass over `args` ended at `cur`, where the name starts that the tail was found
after: nothing is left over. -/
theorem Buffer.rest_eq_of_cur {b b' : Buffer} {args nm tail w z : List UInt8} {cur : Nat}
    (hargs : b.Consumes args b') (hcur : b'.offset = cur) (hname : b.ptr.drop cur = nm ++ z)
    (htail : b.rest = w ++ tail) (hlen : cur + nm.length + tail.length = b.size) :
    b.rest = args ++ (nm ++ tail) := by
  have hrest : b'.rest = nm ++ z := by rw [Buffer.rest, hcur, hargs.1, hname]
  have hz : z.length = tail.length := by
    have := congrArg List.length hname
    rw [List.length_drop, List.length_append] at this
    simp only [Buffer.size] at hlen
    omega
  have h := hargs.2
  rw [hrest, htail, ← List.append_assoc] at h
  rw [hargs.2, hrest, (List.append_inj' h hz.symm).2]

theorem Plain.append {u v : List UInt8} (hu : Plain u) (hv : Plain v) : Plain (u ++ v) :=
  List.forall_mem_append.mpr ⟨hu, hv⟩

theorem plain_name : ∀ p ∈ getTxPayload, ∀ m ∈ p.methods,
    Plain (UInt8.ofNat (chars m.name).length :: chars m.name) := by
  decide +kernel

/-- The scan for the name begins two bytes into the fixed end. -/
theorem plain_tail (vm : Vm) : ∀ p ∈ getTxPayload, Plain ((vm.tail p.contractAddr).take 2) := by
  cases vm <;> decide +kernel

theorem name_bounds : ∀ p ∈ getTxPayload, ∀ m ∈ p.methods,
    chars m.name ≠ [] ∧ (chars m.name).length < 256 := by
  decide

theorem length_contractAddr : ∀ p ∈ getTxPayload, p.contractAddr.length = addressScriptHashLen := by
  decide

theorem parameters_ne_nil : ∀ p ∈ getTxPayload, ∀ m ∈ p.methods, m.parameters ≠ [] := by
  decide

/-- The arguments before a name end in a delimiter. -/
theorem Args.delimiter_suffix {types : List TxParameterType} (args : Args types) (h : types ≠ []) :
    opcodeParamEnd <:+ encode (args.tokens .native) := by
  induction args with
  | nil => exact absurd rfl h
  | @cons type types a as ih =>
    rw [Args.tokens, if_pos rfl, encode_append, encode_append]
    cases as with
    | nil => exact ⟨encode (a.tokens .native), by simp [paramEnd, bytes, Args.tokens]⟩
    | cons b bs => exact (ih (by simp)).trans (List.suffix_append _ _)

theorem Arguments.delimiter_suffix {types : List TxParameterType} {vm : Vm}
    (args : Arguments vm types) (htypes : types ≠ []) (hvm : vm ≠ .wasmvm) :
    opcodePack <:+ encode args.tokens ∨
      vm.contractType = .native ∧ opcodeParamStEnd <:+ encode args.tokens := by
  cases args with
  | transfers states count marked =>
    refine .inl ⟨encode (states.flatMap TransferState.tokens ++ [count.token]), ?_⟩
    simp [Arguments.tokens, bytes]
  | native args =>
    obtain ⟨v, hv⟩ := args.delimiter_suffix htypes
    refine .inr ⟨rfl, opcodeStBegin ++ v, ?_⟩
    simp [Arguments.tokens, bytes, ← hv, opcodeParamStEnd, opcodeParamEnd, opcodeStEnd]
  | neovm args count =>
    refine .inl ⟨encode (args.tokens .neovm ++ [count.token]), ?_⟩
    simp [Arguments.tokens, bytes]
  | wasmvm args => exact absurd rfl hvm

/-- A native and a NEOVM call have the same layout, up to the fixed end. -/
theorem Call.encode_tokens (c : Call) (hvm : c.vm ≠ .wasmvm) : encode c.tokens ++ opcodeEnd =
    encode c.arguments.tokens ++ (c.nameToken.bytes ++ c.vm.tail c.payload.contractAddr) := by
  obtain ⟨vm, p, hp, m, hm, args, hrem⟩ := c
  cases vm with
  | native => simp [Call.tokens, Call.before, Call.nameToken, Call.after, Vm.tail, nativeTail, bytes]
  | neovm => simp [Call.tokens, Call.before, Call.nameToken, Call.after, Vm.tail, neovmTail, bytes]
  | wasmvm => exact absurd rfl hvm

theorem Call.endPos_eq (c : Call) (hvm : c.vm ≠ .wasmvm) (off : Nat) :
    c.endPos off = off + c.arguments.length := by
  obtain ⟨vm, p, hp, m, hm, args, hrem⟩ := c
  cases vm with
  | native | neovm => simp [Call.endPos, Call.argumentsPos, Vm.closing, Arguments.length]
  | wasmvm => exact absurd rfl hvm

theorem Call.view_eq (c : Call) (hvm : c.vm ≠ .wasmvm) (off : Nat) (tx : Transaction) :
    c.view off tx = { tx with
      contract := ⟨c.vm.contractType, ⟨some (off + c.arguments.length + c.name.length + 2), .addr, 20⟩,
        some c.payload.ticker, c.vm.tokenDecimals c.payload c.method.name⟩
      method := ⟨⟨some (off + c.arguments.length + 1), tx.method.name.type, c.name.length⟩,
        storeParameters tx.method.parameters 0 (layout off c.arguments.tokens)⟩ } := by
  obtain ⟨vm, p, hp, m, hm, args, hrem⟩ := c
  cases vm with
  | native | neovm => rfl
  | wasmvm => exact absurd rfl hvm

/-- The scan over a serialized call finds the name of its method. -/
theorem Call.methodStart_eq (c : Call) (hvm : c.vm ≠ .wasmvm) {b : Buffer}
    (h : b.rest = encode c.arguments.tokens ++
      (c.nameToken.bytes ++ c.vm.tail c.payload.contractAddr)) :
    methodStart c.vm.contractType b.ptr b.offset
      (b.size - (c.vm.tail c.payload.contractAddr).length)
      (b.size - (c.vm.tail c.payload.contractAddr).length + 1) = b.offset + c.arguments.length := by
  have hname : c.nameToken.bytes.length = c.name.length + 1 := rfl
  have hptr : b.ptr = b.ptr.take b.offset ++ encode c.arguments.tokens ++
      (c.nameToken.bytes ++ c.vm.tail c.payload.contractAddr) := by
    refine b.take_append_rest.symm.trans ?_
    rw [h]
    simp
  have hfront : (b.ptr.take b.offset).length = b.offset := by
    have := b.offset_le
    simp [this]
  have hsize : b.size = b.offset + c.arguments.length + c.name.length + 1 +
      (c.vm.tail c.payload.contractAddr).length := by
    have := congrArg List.length h
    simp only [List.length_append, hname] at this
    have := b.offset_add_length_rest
    simp only [Arguments.length]
    omega
  have hmain := @methodStart_append c.vm.contractType (b.ptr.take b.offset)
    (encode c.arguments.tokens) (c.nameToken.bytes ++ c.vm.tail c.payload.contractAddr)
    (b.size - (c.vm.tail c.payload.contractAddr).length)
    (c.arguments.delimiter_suffix (parameters_ne_nil _ c.registered _ c.method_mem) hvm) ?_ ?_
  · rw [← hptr, hfront, List.length_append, hfront] at hmain
    exact hmain
  · rw [List.length_append, hfront]
    simp only [Arguments.length] at hsize
    omega
  · have htake : b.size - (c.vm.tail c.payload.contractAddr).length + 2 -
        (b.ptr.take b.offset ++ encode c.arguments.tokens).length = c.nameToken.bytes.length + 2 := by
      rw [List.length_append, hfront, hname]
      simp only [Arguments.length] at hsize
      omega
    rw [htake, List.take_length_add_append]
    have hplain := (plain_name _ c.registered _ c.method_mem).append
      (plain_tail c.vm _ c.registered)
    exact fun y hy => (hplain y hy).imp_right fun hne _ => hne

/-- The call `c` is read from `s` to `u`. -/
structure Call.ReadAt (c : Call) (s u : ParserState) : Prop where
  rest_eq : s.buf.rest = encode c.tokens ++ opcodeEnd
  ptr_eq : u.buf.ptr = s.buf.ptr
  offset_eq : u.buf.offset = c.endPos s.buf.offset
  tx_eq : u.tx = c.view s.buf.offset s.tx

section
variable {cfg : Config} {s t r u : ParserState} {a : Bytes addressScriptHashLen} {name : List UInt8}

/-- A run over a native or NEOVM call reads one: the arguments end where the scan for the name
stopped. -/
theorem callRuns_before (hvm : vm ≠ .wasmvm) (h : CallRuns cfg vm a name s t r u) :
    ∃ c : Call, c.vm = vm ∧ c.arguments.Fits cfg ∧ c.ReadAt s u := by
  obtain ⟨hcontract, hne, hlt, hmethod, ⟨p, hp, hpa, m, hm, hmn, args, hfits, hb, htx⟩, hclosed⟩ := h
  obtain ⟨⟨w, hw⟩, ht⟩ := (Vm.contractAt_iff hvm).mp hcontract
  obtain ⟨cur, hcur, hlen, ⟨z, hz⟩, hr⟩ := (Vm.methodStage_iff hvm a).mp hmethod
  subst hr ht hmn
  rw [Vm.closing_eq hvm, List.append_nil] at hb htx
  rw [Vm.trailing_eq hvm a] at hclosed
  have hsize := hb.size
  have hoff := hb.offset
  dsimp only at hlen hsize hoff
  have hrest := Buffer.rest_eq_of_cur hb (by omega) hz.symm hw (by simp; omega)
  refine ⟨⟨vm, p, hp, m, hm, args, fun h => absurd h hvm⟩, rfl, hfits, ⟨?_, hb.1, ?_, ?_⟩⟩
  · rw [Call.encode_tokens _ hvm, hrest, hpa]
    rfl
  · rw [Call.endPos_eq _ hvm]
    exact hoff
  · have hpos := Vm.length_tail_pos hvm a
    have hcontract : s.buf.size - ((vm.tail a.1).length - 1) =
        s.buf.offset + (encode args.tokens).length + (chars m.name).length + 2 := by omega
    have hname : cur + 1 = s.buf.offset + (encode args.tokens).length + 1 := by omega
    rw [Call.view_eq _ hvm, htx, hcontract, hname]
    rfl

theorem Call.ReadAt.runs_before {c : Call} (hvm : c.vm ≠ .wasmvm) (hfits : c.arguments.Fits cfg)
    (h : c.ReadAt s u) : ∃ a t r, CallRuns cfg c.vm a c.name s t r u := by
  obtain ⟨hrest, hptr, hoff, htx⟩ := h
  rw [c.encode_tokens hvm] at hrest
  rw [c.endPos_eq hvm] at hoff
  rw [c.view_eq hvm] at htx
  have hname : c.nameToken.bytes.length = c.name.length + 1 := rfl
  obtain ⟨hne, hlt⟩ := name_bounds _ c.registered _ c.method_mem
  have haddr := length_contractAddr _ c.registered
  have hsize : s.buf.offset + c.arguments.length + 1 + c.name.length +
      (c.vm.tail c.payload.contractAddr).length = s.buf.size := by
    have := congrArg List.length hrest
    simp only [List.length_append, hname] at this
    have := s.buf.offset_add_length_rest
    simp only [Arguments.length]
    omega
  refine ⟨⟨c.payload.contractAddr, haddr⟩, _, _,
    (Vm.contractAt_iff hvm).mpr ⟨⟨encode c.arguments.tokens ++ c.nameToken.bytes, ?_⟩, rfl⟩, hne, hlt,
    (Vm.methodStage_iff hvm ⟨c.payload.contractAddr, haddr⟩).mpr
      ⟨_, (c.methodStart_eq hvm hrest).symm, hsize, ?_, rfl⟩,
    ⟨c.payload, c.registered, rfl, c.method, c.method_mem, rfl, c.arguments, hfits, ?_, ?_⟩, ?_⟩
  · rw [hrest, List.append_assoc]
  · rw [← List.drop_drop]
    change _ <+: s.buf.rest.drop c.arguments.length
    rw [hrest, Arguments.length, List.drop_left]
    exact List.prefix_append _ _
  · rw [Vm.closing_eq hvm, List.append_nil]
    exact Buffer.consumes_of_offset hptr hoff hrest
  · have hpos := Vm.length_tail_pos hvm ⟨_, haddr⟩
    have hcontract : s.buf.size - ((c.vm.tail c.payload.contractAddr).length - 1) =
        s.buf.offset + c.arguments.length + c.name.length + 2 := by
      dsimp only at hpos
      omega
    rw [htx, hcontract, Vm.closing_eq hvm, List.append_nil]
    rfl
  · have htrailing := Vm.trailing_eq hvm ⟨_, haddr⟩ c.name.length
    dsimp only at htrailing
    rw [htrailing, hoff, Buffer.size, hptr]
    simp only [Buffer.size] at hsize
    omega

theorem Call.namePos_wasmvm (p : Payload) (hp : p ∈ getTxPayload) (m : TxMethodSignature)
    (hm : m ∈ p.methods) (args : Arguments .wasmvm m.parameters) (hrem) (off : Nat) :
    Call.namePos ⟨.wasmvm, p, hp, m, hm, args, hrem⟩ off = off + 22 := by
  have haddr : p.contractAddr.length = 20 := length_contractAddr p hp
  simp [Call.namePos, Call.before, bytes, haddr]

theorem callRuns_wasmvm (h : CallRuns cfg .wasmvm a name s t r u) :
    ∃ c : Call, c.vm = .wasmvm ∧ c.arguments.Fits cfg ∧ c.ReadAt s u := by
  obtain ⟨⟨hb₁, ht⟩, hne, hlt, ⟨remaining, hpos, hlen, hb₂, hr⟩,
    ⟨p, hp, hpa, m, hm, hmn, args, hfits, hb₃, htx⟩, hclosed⟩ := h
  subst hmn
  simp only [Vm.closing, Vm.trailing, Nat.add_zero, encode_append] at hb₃ htx hclosed
  have haddr : a.1.length = 20 := a.2
  have hend : u.buf.rest = [] := List.length_eq_zero_iff.mp (by rw [u.buf.length_rest]; omega)
  have hrest : s.buf.rest = a.1 ++ (([remaining] ++ (UInt8.ofNat (chars m.name).length ::
      chars m.name)) ++ (encode args.tokens ++ opcodeEnd)) := by
    rw [hb₁.2, hb₂.2, hb₃.2, hend]
    simp [bytes]
  have hremaining : remaining.toNat = (chars m.name).length + 1 + args.length := by
    have hl := congrArg List.length hb₂.2
    have := t.buf.offset_add_length_rest
    rw [hb₃.2, hend] at hl
    simp [bytes, opcodeEnd] at hl
    simp only [Arguments.length]
    omega
  have hlt' := remaining.toNat_lt
  have hoff : r.buf.offset = s.buf.offset + 22 + (chars m.name).length := by
    have := hb₁.offset
    have := hb₂.offset
    simp at this
    omega
  refine ⟨⟨.wasmvm, p, hp, m, hm, args, fun _ => by omega⟩, rfl, hfits,
    ⟨?_, hb₃.1.trans (hb₂.1.trans hb₁.1), ?_, ?_⟩⟩
  · rw [hrest]
    simp [Call.tokens, Call.before, Call.nameToken, Call.after, bytes, hpa, ← hremaining]
  · rw [hb₃.offset, hoff]
    simp [Call.endPos, Call.argumentsPos, Vm.closing, Call.name]
  · rw [htx, hr, ht, hb₁.offset, haddr, hoff, layout_append]
    simp only [layout, List.append_nil, Call.view, Call.namePos_wasmvm]
    rfl

theorem Call.ReadAt.runs_wasmvm {c : Call} (hvm : c.vm = .wasmvm) (hfits : c.arguments.Fits cfg)
    (h : c.ReadAt s u) : ∃ a t r, CallRuns cfg .wasmvm a c.name s t r u := by
  obtain ⟨vm, p, hp, m, hm, args, hrem⟩ := c
  obtain rfl : vm = .wasmvm := hvm
  obtain ⟨hrest, hptr, hoff, htx⟩ := h
  have haddr : p.contractAddr.length = 20 := length_contractAddr p hp
  obtain ⟨hne, hlt⟩ := name_bounds p hp m hm
  have hremaining : (UInt8.ofNat ((chars m.name).length + 1 + args.length)).toNat =
      (chars m.name).length + 1 + args.length := UInt8.toNat_ofNat_of_lt' (hrem rfl)
  have htokens : s.buf.rest = p.contractAddr ++ (([UInt8.ofNat ((chars m.name).length + 1 + args.length)] ++
      (UInt8.ofNat (chars m.name).length :: chars m.name)) ++ encode (args.tokens ++ [.mark opcodeEnd])) := by
    rw [hrest]
    simp [Call.tokens, Call.before, Call.nameToken, Call.after, bytes]
  obtain ⟨b₁, hb₁, hr₁⟩ := Buffer.exists_consumes htokens
  obtain ⟨b₂, hb₂, hr₂⟩ := Buffer.exists_consumes hr₁
  have hoff₁ := hb₁.offset
  have hoff₂ := hb₂.offset
  simp at hoff₂
  simp only [Call.endPos, Call.argumentsPos, Call.name, Vm.closing] at hoff
  have hb₃ : b₂.Consumes (encode (args.tokens ++ [.mark opcodeEnd])) u.buf :=
    Buffer.consumes_of_offset (r := []) (by rw [hptr, hb₂.1, hb₁.1])
      (by rw [hoff]; omega) (by rw [hr₂, List.append_nil])
  have hsize : b₁.size = b₁.offset + (2 + (chars m.name).length + (encode args.tokens).length + 1) := by
    rw [← b₁.offset_add_length_rest, hr₁]
    simp [bytes, opcodeEnd]
    omega
  refine ⟨⟨p.contractAddr, haddr⟩, ⟨b₁, s.tx.setContractAt .wasmvm s.buf.offset⟩, ⟨b₂, _⟩,
    ⟨hb₁, rfl⟩, hne, hlt, ⟨_, ?_, ?_, hb₂, rfl⟩, ⟨p, hp, rfl, m, hm, rfl, args, hfits, hb₃, ?_⟩, ?_⟩
  · intro h0
    rw [h0] at hremaining
    simp at hremaining
    omega
  · rw [hremaining, hsize]
    simp only [Arguments.length]
    omega
  · rw [htx, hoff₂, hoff₁, haddr, layout_append,
      show s.buf.offset + 20 + ((chars m.name).length + 1 + 1) =
        s.buf.offset + 22 + (chars m.name).length by omega]
    simp only [Vm.closing, layout, List.append_nil, Call.view, Call.namePos_wasmvm]
    rfl
  · have hend := hb₃.offset
    have hsize₂ := b₂.offset_add_length_rest
    rw [hr₂, ← hend, hb₂.size, hb₁.size] at hsize₂
    rw [Vm.trailing, Nat.add_zero, hsize₂, Buffer.size, Buffer.size, hptr]

theorem callRuns_iff {vm : Vm} : (∃ a name t r, CallRuns cfg vm a name s t r u) ↔
    ∃ c : Call, c.vm = vm ∧ c.arguments.Fits cfg ∧ c.ReadAt s u := by
  by_cases hvm : vm = .wasmvm
  · subst hvm
    constructor
    · rintro ⟨a, name, t, r, h⟩
      exact callRuns_wasmvm h
    · rintro ⟨c, hvm, hfits, h⟩
      obtain ⟨a, t, r, h⟩ := h.runs_wasmvm hvm hfits
      exact ⟨a, _, t, r, h⟩
  · constructor
    · rintro ⟨a, name, t, r, h⟩
      exact callRuns_before hvm h
    · rintro ⟨c, rfl, hfits, h⟩
      obtain ⟨a, t, r, h⟩ := h.runs_before hvm hfits
      exact ⟨a, _, t, r, h⟩

end

theorem Header.length_encode (h : Header) (txType : UInt8) : (h.encode txType).length = 42 := by
  simp [Header.encode, h.nonce.2, h.gasPrice.2, h.gasLimit.2, h.payer.2, addressScriptHashLen]

theorem Signable.encode_eq (x : Signable) : x.encode = x.header.encode x.call.vm.txType ++
    (x.sizePrefix.encode ++ (Token.encode x.call.tokens ++ opcodeEnd)) := by
  simp [Signable.encode, Signable.tokens, bytes]

/-- The transaction `x` is read, from its first byte and with `tx` to store it in. -/
structure Signable.ReadAt (x : Signable) (cfg : Config) (raw : List UInt8) (tx : Transaction)
    (u : ParserState) : Prop where
  encode_eq : x.encode = raw
  admitted : x.Admitted cfg
  ptr_eq : u.buf.ptr = raw
  offset_eq : u.buf.offset = x.call.endPos x.payloadPos
  tx_eq : u.tx = x.view tx

/-- The deserializer accepts the admitted transactions of the format, and nothing else. -/
theorem transactionDeserialize_returns [BufferSdk] (cfg : Config) (raw : List UInt8)
    (tx : Transaction) :
    Returns (transactionDeserialize cfg) ⟨.ofBytes raw, tx⟩ .ok fun u =>
      ∃ x : Signable, x.ReadAt cfg raw tx u := by
  refine Returns.congr (andThen_returns transactionDeserializeHeader_returns fun t₁ ⟨hs, h, ty, h₁⟩ =>
    andThen_returns transactionDeserializePayloadSize_returns fun t₂ ⟨p, hp, h₂⟩ =>
    call_returns ?_ ?_) fun u => ?_
  · rw [h₂.1.size, h₁.1.size]
    exact hs
  · have := h₁.1.offset
    rw [h.length_encode] at this
    rw [h₂.1.offset]
    omega
  · constructor
    · rintro ⟨x, hx, hadm, hptr, hoff, htx⟩
      have hrest : (Buffer.ofBytes raw).rest = x.header.encode x.call.vm.txType ++
          (x.sizePrefix.encode ++ (Token.encode x.call.tokens ++ opcodeEnd)) := by
        rw [← x.encode_eq, hx, Buffer.rest_ofBytes]
      obtain ⟨b₁, hb₁, hr₁⟩ := Buffer.exists_consumes hrest
      obtain ⟨b₂, hb₂, hr₂⟩ := Buffer.exists_consumes hr₁
      have hoff₁ := hb₁.offset
      rw [Header.length_encode] at hoff₁
      have hoff₂ : b₂.offset = x.payloadPos := by
        rw [hb₂.offset, hoff₁]
        simp [Signable.payloadPos]
      refine ⟨⟨b₁, _⟩, ⟨?_, x.header, x.call.vm.txType, hb₁, rfl⟩, ⟨b₂, _⟩,
        ⟨x.sizePrefix, ?_, hb₂, rfl⟩, ?_⟩
      · rw [← hx]
        exact hadm.length_le
      · have := hadm.declares
        rw [hx] at this
        rw [hoff₁, hb₁.size]
        exact this
      · have hread : x.call.ReadAt
            ⟨b₂, tx.setHeader (x.header.view x.call.vm.txType 22)⟩ u := by
          refine ⟨hr₂, ?_, ?_, ?_⟩
          · rw [hptr, hb₂.1, hb₁.1, Buffer.ptr_ofBytes]
          · rw [hoff, hoff₂]
          · rw [htx, hoff₂]
            rfl
        obtain ⟨a, name, t, r, hruns⟩ := callRuns_iff.mpr ⟨x.call, rfl, hadm.fits, hread⟩
        exact ⟨x.call.vm, a, name, t, r, rfl, hruns⟩
    · rintro ⟨t₁, ⟨hs, h, ty, h₁⟩, t₂, ⟨p, hp, h₂⟩, vm, a, name, t, r, htype, hruns⟩
      obtain ⟨c, hvm, hfits, hc⟩ := callRuns_iff.mp ⟨a, name, t, r, hruns⟩
      subst hvm
      have htx : t₂.tx = tx.setHeader (h.view ty 22) := by rw [h₂.2, h₁.2]; rfl
      obtain rfl : ty = c.vm.txType := by rw [← htype, htx]; rfl
      have hoff₁ : t₁.buf.offset = 42 := by rw [h₁.1.offset, h.length_encode]; rfl
      have hoff₂ : t₂.buf.offset = 42 + p.encode.length := by rw [h₂.1.offset, hoff₁]
      have hencode : (⟨h, p, c⟩ : Signable).encode = raw := by
        rw [Signable.encode_eq, ← hc.rest_eq, ← h₂.1.2]
        exact h₁.1.2.symm
      refine ⟨⟨h, p, c⟩, hencode, ⟨?_, ?_, hfits⟩, ?_, ?_, ?_⟩
      · rw [hencode]
        exact hs
      · rw [hencode]
        rw [hoff₁, h₁.1.size] at hp
        exact hp
      · rw [hc.ptr_eq, h₂.1.1, h₁.1.1]
        rfl
      · rw [hc.offset_eq, hoff₂]
        rfl
      · rw [hc.tx_eq, hoff₂, htx]
        rfl

end AppOnt
