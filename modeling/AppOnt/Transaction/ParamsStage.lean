import AppOnt.Transaction.MethodStage

/-!
# What the parameters stage accepts

The registered signature is found by the address and the name that the earlier
stages stored, and the arguments are read forwards by it. The one loop without a
count, over the transfers of a native token, reads ahead of the buffer's offset;
the byte that closes a transaction cannot be the one that closes a transfer, so
there is always a byte to read.
-/
namespace AppOnt

open Prog Token

def Transaction.setToken (tx : Transaction) (ticker : String) (decimals : Nat) : Transaction :=
  tx.setContract { tx.contract with ticker := some ticker, tokenDecimals := decimals }

/-- The contract and the method that the earlier stages stored. -/
structure Named (s : ParserState) (contract name : List UInt8) : Prop where
  contract_eq : readPtr s.buf.ptr s.tx.contract.addr.data addressScriptHashLen = .ok contract
  name_eq : readPtr s.buf.ptr s.tx.method.name.data s.tx.method.name.len = .ok name
  length_eq : s.tx.method.name.len = name.length

/-- What closes the arguments, by the virtual machine. -/
def Vm.Closes (vm : Vm) (n : Nat) (s t : ParserState) : Prop :=
  match vm with
  | .native => Moves opcodeStEnd id s t
  | .neovm => ∃ c : Count n, Moves (c.code.encode ++ opcodePack) id s t
  | .wasmvm => Moves opcodeEnd id s t

section
variable {s : ParserState} {contract name : List UInt8}

theorem Named.unique {contract' name' : List UInt8} (h : Named s contract name)
    (h' : Named s contract' name') : contract = contract' ∧ name = name' :=
  ⟨Except.ok.inj (h.contract_eq.symm.trans h'.contract_eq),
    Except.ok.inj (h.name_eq.symm.trans h'.name_eq)⟩

theorem contractIs_ensures (h : Named s contract name) (addr : List UInt8) :
    Ensures (contractIs addr) s fun ok t => ok = decide (contract = addr) ∧ t = s := by
  simp [contractIs, h.contract_eq, Bool.beq_eq_decide_eq]

theorem methodIs_ensures (h : Named s contract name) (m : String) :
    Ensures (methodIs m) s fun ok t => ok = decide (chars m = name) ∧ t = s := by
  simp [methodIs, methodcmp_eq h.name_eq h.length_eq m]

theorem findPayload_ensures (h : Named s contract name) (ps : List Payload) :
    Ensures (findPayload ps) s fun o t =>
      o = ps.find? (fun p => decide (p.contractAddr = contract)) ∧ t = s := by
  induction ps with
  | nil => simp [findPayload]
  | cons p ps ih =>
    rw [findPayload, ensures_bind]
    refine (contractIs_ensures h _).mono fun ok t hpost => ?_
    obtain ⟨hok, ht⟩ := hpost
    subst hok ht
    by_cases hp : p.contractAddr = contract
    · simp [hp]
    · simpa [hp, Ne.symm hp] using ih

theorem findMethod_ensures (h : Named s contract name) (ms : List TxMethodSignature) :
    Ensures (findMethod ms) s fun o t =>
      o = (ms.find? fun m => decide (chars m.name = name)).map (·.parameters) ∧ t = s := by
  induction ms with
  | nil => simp [findMethod]
  | cons m ms ih =>
    rw [findMethod, ensures_bind]
    refine (methodIs_ensures h _).mono fun ok t hpost => ?_
    obtain ⟨hok, ht⟩ := hpost
    subst hok ht
    by_cases hm : chars m.name = name
    · simp [hm]
    · simpa [hm] using ih

end

section
variable [BufferSdk] {cfg : Config} {s : ParserState} {vm : Vm}

theorem closeParams_returns (hvm : s.tx.contract.type = vm.contractType) (n : Nat) :
    Returns (closeParams n) s true (vm.Closes n s) := by
  refine returns_get_bind.mpr ?_
  rw [hvm]
  cases vm with
  | native => exact onBuf_constant _
  | wasmvm => exact onBuf_constant _
  | neovm =>
    have hcount : Returns (onBuf (parseCheckAmount n)) s true fun t =>
        ∃ c : Count n, Moves c.code.encode id s t := onBuf_returns (parseCheckAmount_returns s.buf n)
    refine Returns.congr (hcount.and fun t _ => onBuf_constant _) fun u => ?_
    constructor
    · rintro ⟨c, h⟩
      obtain ⟨t, ht, hu⟩ := (moves_comp (f := id) (g := id)).mpr h
      exact ⟨t, ⟨c, ht⟩, hu⟩
    · rintro ⟨t, ⟨c, ht⟩, hu⟩
      exact ⟨c, moves_comp.mp ⟨t, ht, hu⟩⟩

omit [BufferSdk] in
theorem setRegisteredToken_ensures (hvm : s.tx.contract.type = vm.contractType) (p : Payload) :
    Ensures (setRegisteredToken p) s fun _ t => t = ⟨s.buf, s.tx.setToken p.ticker
      (if vm = .native then s.tx.contract.tokenDecimals else p.tokenDecimals)⟩ := by
  simp only [setRegisteredToken, setTicker, setTokenDecimals, modifyTx, ensures_bind,
    ensures_modify, ensures_get, ensures_ite, ensures_pure]
  cases vm <;> simp [Transaction.setContract, Transaction.setToken, hvm, Vm.contractType]

theorem registeredParams_returns {contract name : List UInt8} (h : Named s contract name)
    (hvm : s.tx.contract.type = vm.contractType) (hs : s.buf.size ≤ cfg.maxTransactionLen) :
    Returns (registeredParams cfg) s .ok fun t =>
      ∃ p ∈ getTxPayload, p.contractAddr = contract ∧ ∃ m ∈ p.methods, chars m.name = name ∧
        ∃ args : Args m.parameters, args.Fits cfg vm 0 ∧
          ∃ r, Reads 0 (args.tokens vm) ⟨s.buf, s.tx.setToken p.ticker
            (if vm = .native then s.tx.contract.tokenDecimals else p.tokenDecimals)⟩ r ∧
          vm.Closes m.parameters.length r t := by
  refine ensures_bind.mpr ((findPayload_ensures h getTxPayload).mono fun o t hpost => ?_)
  obtain ⟨ho, ht⟩ := hpost
  subst ht
  cases o with
  | none =>
    refine (returns_pure_ne (by simp)).congr fun u => iff_of_false (fun ⟨p, hp, hpa, _⟩ => ?_) id
    simpa [hpa] using List.find?_eq_none.mp ho.symm p hp
  | some p =>
    obtain ⟨hp, hpa⟩ := (find?_key_eq_some nodup_contractAddr).mp ho.symm
    have honly {q : Payload} (hq : q ∈ getTxPayload) (hqa : q.contractAddr = contract) : p = q :=
      List.inj_on_of_nodup_map nodup_contractAddr hp hq (hpa.trans hqa.symm)
    refine ensures_bind.mpr ((setRegisteredToken_ensures hvm p).mono fun _ t' ht' => ?_)
    have h' : Named t' contract name := by subst ht'; exact ⟨h.contract_eq, h.name_eq, h.length_eq⟩
    have hvm' : t'.tx.contract.type = vm.contractType := by subst ht'; exact hvm
    have hs' : t'.buf.size ≤ cfg.maxTransactionLen := by subst ht'; exact hs
    refine ensures_bind.mpr ((findMethod_ensures h' p.methods).mono fun o u hpost => ?_)
    obtain ⟨ho', hu⟩ := hpost
    subst hu
    cases o with
    | none =>
      refine (returns_pure_ne (by simp)).congr fun v =>
        iff_of_false (fun ⟨q, hq, hqa, m, hm, hmn, _⟩ => ?_) id
      cases honly hq hqa
      simpa [hmn] using List.find?_eq_none.mp (Option.map_eq_none_iff.mp ho'.symm) m hm
    | some parameters =>
      obtain ⟨m, hfind, rfl⟩ := Option.map_eq_some_iff.mp ho'.symm
      obtain ⟨hm, hmn⟩ := (find?_key_eq_some (nodup_methodName p hp)).mp hfind
      refine Returns.congr (Delivers.bind (parseMethodParams_delivers
        (pairsEarly_of_registered p hp m hm) hs' hvm' 0) (fun n r ⟨hn, args, _, hr⟩ =>
        (closeParams_returns (by rw [hr.contract]; exact hvm') n).select (by simp))
        fun t => returns_pure_ne (by simp)) fun v => ?_
      subst ht'
      constructor
      · rintro ⟨q, hq, hqa, m', hm', hmn', args, hfits, r, hr, hclose⟩
        cases honly hq hqa
        cases List.inj_on_of_nodup_map (nodup_methodName p hp) hm hm' (hmn.trans hmn'.symm)
        exact ⟨_, r, ⟨rfl, args, hfits, hr⟩, by simpa using hclose⟩
      · rintro ⟨n, r, ⟨hn, args, hfits, hr⟩, hclose⟩
        refine ⟨p, hp, hpa, m, hm, hmn, args, hfits, r, hr, ?_⟩
        rwa [hn, Nat.zero_add] at hclose

end

/-- What a list of transfers is read up to: a byte that starts no transfer. -/
def Buffer.ListEnds (b : Buffer) : Prop := ∃ x r, b.rest = x :: r ∧ x ≠ 0x00

theorem TransferState.encode_eq (st : TransferState) :
    ∃ bs, encode st.tokens = 0x00 :: bs ++ [0x6c] := by
  refine ⟨[0xc6, 0x6b] ++ (encode [addressToken true st.source, paramEnd,
    addressToken true st.target, paramEnd, st.amount.token, paramEnd]), ?_⟩
  simp [TransferState.tokens, bytes, opcodeStBegin, opcodeStEnd]

theorem AmountCode.encode_head (a : AmountCode) :
    ∃ x r, a.encode = x :: r ∧ (x = 0x00 ↔ a = .zero) := by
  cases a with
  | zero => exact ⟨_, _, rfl, by simp⟩
  | push n =>
    refine ⟨_, _, rfl, ?_⟩
    have hn : (81 + n.1) % 256 = 81 + n := Nat.mod_eq_of_lt (by omega)
    simp [← UInt8.toNat_inj, opcodePushNumber, hn]
  | bytes bs hne hle =>
    refine ⟨_, _, rfl, ?_⟩
    have hpos : 0 < bs.length := List.length_pos_iff.mpr hne
    have hn : bs.length % 256 = bs.length := Nat.mod_eq_of_lt (by omega)
    simp [← UInt8.toNat_inj, hn, hne]

theorem slots_transferStates (states : List TransferState) :
    slots (states.flatMap TransferState.tokens) = 3 * states.length := by
  induction states with
  | nil => rfl
  | cons st states ih =>
    have hst : slots st.tokens = 3 := rfl
    rw [List.flatMap_cons, slots_append, ih, hst, List.length_cons]
    omega

section
variable [BufferSdk] {cfg : Config}

theorem transferStates_delivers (fuel num cur : Nat) (s : ParserState)
    (hfuel : s.buf.rest.length < fuel) (hend : ∃ u, s.buf.rest = u ++ [0x00])
    (hcur : cur = 3 * num) (hle : cur ≤ cfg.parametersMaxNum) :
    Delivers (transferStates cfg fuel num cur) s fun n t => ∃ states : List TransferState,
      n = num + states.length ∧ cur + 3 * states.length ≤ cfg.parametersMaxNum ∧
        Reads cur (states.flatMap TransferState.tokens) s t ∧ t.buf.ListEnds := by
  induction fuel generalizing num cur s with
  | zero => omega
  | succ fuel ih =>
    obtain ⟨x, r, hrest⟩ : ∃ x r, s.buf.rest = x :: r := by
      obtain ⟨u, hu⟩ := hend
      cases u with
      | nil => exact ⟨_, _, hu⟩
      | cons x u => exact ⟨_, _, hu⟩
    have hread : readPtr s.buf.ptr (some s.buf.offset) 1 = .ok [x] := by
      obtain ⟨b, hb, -⟩ := Buffer.exists_consumes (show s.buf.rest = [x] ++ r from hrest)
      exact hb.readPtr
    refine ensures_of_returns fun n => returns_get_bind.mpr
      ((returns_ofExcept_bind hread).mpr ?_)
    by_cases hx : x = 0x00
    · subst hx
      rw [if_pos (by decide)]
      have hadd : cfg.addSize num 1 = num + 1 := by
        have := cfg.sizeMod_cases
        have := cfg.target_cases
        exact cfg.addSize_of_lt (by omega)
      rw [hadd]
      refine Returns.congr (Delivers.bind (parseTransferState_delivers hle s)
        (fun cur' t ⟨hcur', hle', st, hst⟩ => (ih (num + 1) cur' t ?_ ?_ (by omega) hle').returns n)
        fun t => returns_pure_ne (by simp)) fun u => ?_
      · obtain ⟨bs, hbs⟩ := st.encode_eq
        have := hst.length_rest
        simp only [hbs, List.length_append, List.length_cons] at this
        omega
      · -- A transfer ends in another byte than the buffer does.
        obtain ⟨u, hu⟩ := hend
        obtain ⟨bs, hbs⟩ := st.encode_eq
        have h := hst.1.2
        rw [hu, hbs] at h
        rcases List.eq_nil_or_concat t.buf.rest with hnil | ⟨v, y, hv⟩
        · rw [hnil, List.append_nil] at h
          exact absurd (List.append_inj' h rfl).2 (by decide)
        · rw [hv, List.concat_eq_append, ← List.append_assoc] at h
          obtain rfl : y = 0x00 := by simpa using (List.append_inj' h rfl).2.symm
          exact ⟨v, by simpa using hv⟩
      · constructor
        · rintro ⟨states, hn, hbound, h, hends⟩
          cases states with
          | nil =>
            obtain rfl : u = s := reads_nil.mp h
            obtain ⟨y, r', hy, hne⟩ := hends
            rw [hrest] at hy
            exact absurd (List.cons.inj hy).1.symm hne
          | cons st states =>
            obtain ⟨t, hst, h⟩ := reads_append.mp h
            simp only [List.length_cons] at hn hbound
            exact ⟨cur + 3, t, ⟨rfl, by omega, st, hst⟩, states, by omega, by omega, h, hends⟩
        · rintro ⟨cur', t, ⟨hcur', _, st, hst⟩, states, hn, hbound, h, hends⟩
          subst hcur'
          refine ⟨st :: states, by simp; omega, by simp; omega, ?_, hends⟩
          exact reads_append.mpr ⟨t, hst, h⟩
    · rw [if_neg (by simpa [opcodeStBegin] using hx)]
      refine (returns_pure (some n) (some num)).congr fun u => ?_
      constructor
      · rintro ⟨states, hn, hbound, h, hends⟩
        cases states with
        | nil => exact ⟨by rw [hn]; rfl, reads_nil.mp h⟩
        | cons st states =>
          obtain ⟨t, hst, h⟩ := reads_append.mp h
          obtain ⟨bs, hbs⟩ := st.encode_eq
          have := hst.1.2
          rw [hrest, hbs] at this
          exact absurd (List.cons.inj this).1 hx
      · rintro ⟨hn, hu⟩
        subst hu
        exact ⟨[], by simpa using hn.symm, hle, reads_nil.mpr rfl, x, r, hrest, hx⟩

theorem nativeTransferDeserializeParams_returns {s : ParserState}
    (hend : ∃ u, s.buf.rest = u ++ [0x00]) :
    Returns (nativeTransferDeserializeParams cfg) s .ok fun t =>
      ∃ (states : List TransferState) (count : Count states.length) (marked : count.code ≠ .zero),
        3 * states.length ≤ cfg.parametersMaxNum ∧
          Reads 0 (Arguments.transfers states count marked).tokens s t := by
  have hsize := s.buf.offset_add_length_rest
  refine returns_get_bind.mpr ?_
  refine Returns.congr (Delivers.bind (transferStates_delivers
    (s.buf.size + 1) 0 0 s (by omega) hend rfl (Nat.zero_le _)) (fun num t _ =>
    ((decodes_count (j := 3 * num) num t).and fun r _ =>
      decodes_constant (j := 3 * num) opcodePack r).select (by simp))
    fun t => returns_pure_ne (by simp)) fun u => ?_
  constructor
  · rintro ⟨states, count, marked, hbound, h⟩
    obtain ⟨t, ht, h⟩ := reads_append.mp h
    obtain ⟨r, hr, h⟩ := (reads_append (u := [count.token])).mp h
    rw [slots_transferStates, Nat.zero_add] at hr h
    refine ⟨_, t, ⟨states, (Nat.zero_add _).symm, by omega, ht, ?_⟩, r, ⟨count, hr⟩, (), h⟩
    obtain ⟨x, bs, hbs, hx⟩ := count.code.encode_head
    refine ⟨x, bs ++ r.buf.rest, ?_, fun h0 => marked (hx.mp h0)⟩
    have := (reads_mark.mp hr).1.2
    rwa [hbs] at this
  · rintro ⟨num, t, ⟨states, hnum, hbound, ht, x, rest, hx, hne⟩, r, ⟨count, hr⟩, _, h⟩
    obtain rfl : num = states.length := by omega
    have marked : count.code ≠ .zero := by
      intro hz
      obtain ⟨y, bs, hbs, hy⟩ := count.code.encode_head
      have := (reads_mark.mp hr).1.2
      rw [hbs, hx] at this
      exact hne ((List.cons.inj this).1.trans (hy.mpr hz))
    refine ⟨states, count, marked, by omega, ?_⟩
    refine (reads_append (u := states.flatMap TransferState.tokens)).mpr ⟨t, ht, ?_⟩
    rw [slots_transferStates, Nat.zero_add]
    exact (reads_append (u := [count.token])).mpr ⟨r, hr, h⟩

end

/-- Every parameter of the arguments has its place in the array. -/
def Arguments.Fits (cfg : Config) {types : List TxParameterType} :
    {vm : Vm} → Arguments vm types → Prop
  | _, transfers states _ _ => 3 * states.length ≤ cfg.parametersMaxNum
  | _, native args => args.Fits cfg .native 0
  | _, neovm args _ => args.Fits cfg .neovm 0
  | _, wasmvm args => args.Fits cfg .wasmvm 0

/-- The decimals that the amounts of a call are shown with. A native call does not take them from
the table, and the second version of a method of a native token counts in smaller units. -/
def Vm.tokenDecimals (vm : Vm) (p : Payload) (method : String) : Nat :=
  match vm with
  | .native =>
    if p.contractAddr = ontAddr ∨ p.contractAddr = ongAddr then
      if method = methodTransferV2 ∨ method = methodTransferFromV2 ∨ method = methodApproveV2 then
        p.tokenDecimals + 9
      else p.tokenDecimals
    else ontDecimals
  | .neovm | .wasmvm => p.tokenDecimals

/-- What closes a transaction after the arguments, if they come last. -/
def Vm.closing : Vm → List Token
  | native | neovm => []
  | wasmvm => [.mark opcodeEnd]

/-- The parameters stage from `s` to `t`: arguments for the signature of a registered method. -/
def Vm.ParamsAt (vm : Vm) (cfg : Config) (contract name : List UInt8) (s t : ParserState) : Prop :=
  ∃ p ∈ getTxPayload, p.contractAddr = contract ∧ ∃ m ∈ p.methods, chars m.name = name ∧
    ∃ a : Arguments vm m.parameters, a.Fits cfg ∧ Reads 0 (a.tokens ++ vm.closing)
      ⟨s.buf, s.tx.setToken p.ticker (vm.tokenDecimals p m.name)⟩ t

/-- The lists of transfers are the arguments of the transfers of the two native tokens. -/
theorem transferStateList_iff : ∀ p ∈ getTxPayload, ∀ m ∈ p.methods,
    m.parameters = [.transferStateList] ↔
      (p.contractAddr = ontAddr ∨ p.contractAddr = ongAddr) ∧
        (chars m.name = chars methodTransfer ∨ chars m.name = chars methodTransferV2) := by
  decide

theorem exists_transfers : ∀ c ∈ [ontAddr, ongAddr], ∀ n ∈ [methodTransfer, methodTransferV2],
    ∃ p ∈ getTxPayload, p.contractAddr = c ∧ ∃ m ∈ p.methods, m.name = n := by
  decide

/-- The ticker and the decimals that the stage sets for a native token are the registered ones. -/
theorem nativeToken_eq : ∀ p ∈ getTxPayload, p.contractAddr = ontAddr ∨ p.contractAddr = ongAddr →
    (if p.contractAddr = ontAddr then ontTicker else ongTicker) = p.ticker ∧
    ∀ m ∈ p.methods, Vm.native.tokenDecimals p m.name =
      (if chars methodTransferV2 = chars m.name ∨ chars methodTransferFromV2 = chars m.name ∨
          chars methodApproveV2 = chars m.name then
        (if p.contractAddr = ongAddr then ongDecimals else ontDecimals) + 9
      else if p.contractAddr = ongAddr then ongDecimals else ontDecimals) := by
  decide

section
variable {cfg : Config} {s t : ParserState} {contract name : List UInt8}

/-- A native call is one of the transfers with a list, or has the arguments of its signature. -/
theorem paramsAt_native : Vm.native.ParamsAt cfg contract name s t ↔
    ∃ p ∈ getTxPayload, p.contractAddr = contract ∧ ∃ m ∈ p.methods, chars m.name = name ∧
      ((m.parameters = [.transferStateList] ∧ ∃ (states : List TransferState)
          (count : Count states.length) (marked : count.code ≠ .zero),
          3 * states.length ≤ cfg.parametersMaxNum ∧
            Reads 0 (Arguments.transfers states count marked).tokens
              ⟨s.buf, s.tx.setToken p.ticker (Vm.native.tokenDecimals p m.name)⟩ t) ∨
        ∃ args : Args m.parameters, args.Fits cfg .native 0 ∧ Reads 0 (Arguments.native args).tokens
          ⟨s.buf, s.tx.setToken p.ticker (Vm.native.tokenDecimals p m.name)⟩ t) := by
  simp only [Vm.ParamsAt, Vm.closing, List.append_nil]
  refine exists_congr fun p => and_congr_right fun _ => and_congr_right fun _ =>
    exists_congr fun ⟨n, types⟩ => and_congr_right fun _ => and_congr_right fun _ => ?_
  constructor
  · rintro ⟨a, hfits, h⟩
    cases a with
    | transfers states count marked => exact .inl ⟨rfl, states, count, marked, hfits, h⟩
    | native args => exact .inr ⟨args, hfits, h⟩
  · rintro (⟨htypes, states, count, marked, hfits, h⟩ | ⟨args, hfits, h⟩)
    · obtain rfl : types = [.transferStateList] := htypes
      exact ⟨.transfers states count marked, hfits, h⟩
    · exact ⟨.native args, hfits, h⟩

end

section
variable [BufferSdk] {cfg : Config} {s : ParserState} {contract name : List UInt8}

omit [BufferSdk] in
theorem reads_marks {j : Nat} {u v : List UInt8} {t : ParserState} :
    Reads j [.mark u, .mark v] s t ↔ Moves (u ++ v) id s t := by
  simp [Reads, Moves, bytes, layout, storeParameters, Transaction.setParameters]

theorem nativeParams_returns (h : Named s contract name)
    (hvm : s.tx.contract.type = Vm.native.contractType) (hs : s.buf.size ≤ cfg.maxTransactionLen) :
    Returns (nativeParams cfg) s .ok fun t =>
      ∃ p ∈ getTxPayload, p.contractAddr = contract ∧ ∃ m ∈ p.methods, chars m.name = name ∧
        ∃ args : Args m.parameters, args.Fits cfg .native 0 ∧ Reads 0 (Arguments.native args).tokens
          ⟨s.buf, s.tx.setToken p.ticker s.tx.contract.tokenDecimals⟩ t := by
  have hstart {t : ParserState} (ht : Moves opcodeStBegin id s t) : t.tx = s.tx := ht.2
  have hnamed {t : ParserState} (ht : Moves opcodeStBegin id s t) : Named t contract name := by
    refine ⟨?_, ?_, ?_⟩
    · rw [ht.1.1, hstart ht]
      exact h.contract_eq
    · rw [ht.1.1, hstart ht]
      exact h.name_eq
    · rw [hstart ht]
      exact h.length_eq
  have htype {t : ParserState} (ht : Moves opcodeStBegin id s t) :
      t.tx.contract.type = Vm.native.contractType := by rw [hstart ht, hvm]
  refine Returns.congr ((onBuf_constant opcodeStBegin).guarded (fun t ht =>
    registeredParams_returns (hnamed ht) (htype ht) (by rw [ht.1.size]; exact hs)) (by simp))
    fun u => ?_
  · constructor
    · rintro ⟨p, hp, hpa, m, hm, hmn, args, hfits, hr⟩
      obtain ⟨t, ht, hr⟩ := (reads_append (u := [.mark opcodeStBegin])).mp hr
      obtain ⟨r, hr, hclose⟩ := reads_append.mp hr
      obtain ⟨b, tx⟩ := t
      obtain ⟨hb, rfl⟩ := reads_mark.mp ht
      exact ⟨⟨b, s.tx⟩, ⟨hb, rfl⟩, p, hp, hpa, m, hm, hmn, args, hfits, r, hr, reads_mark.mp hclose⟩
    · rintro ⟨t, ht, p, hp, hpa, m, hm, hmn, args, hfits, r, hr, hclose⟩
      refine ⟨p, hp, hpa, m, hm, hmn, args, hfits, ?_⟩
      rw [if_pos rfl, hstart ht] at hr
      exact (reads_append (u := [.mark opcodeStBegin])).mpr
        ⟨⟨t.buf, s.tx.setToken p.ticker s.tx.contract.tokenDecimals⟩, reads_mark.mpr ⟨ht.1, rfl⟩,
        reads_append.mpr ⟨r, hr, reads_mark.mpr hclose⟩⟩

theorem nativeTokenParams_returns (h : Named s contract name)
    (htoken : contract = ontAddr ∨ contract = ongAddr)
    (hvm : s.tx.contract.type = Vm.native.contractType) (hs : s.buf.size ≤ cfg.maxTransactionLen)
    (hend : ∃ u, s.buf.rest = u ++ [0x00]) :
    Returns (nativeTokenParams cfg (decide (contract = ontAddr)) (decide (contract = ongAddr))) s
      .ok (Vm.native.ParamsAt cfg contract name s) := by
  have hdec (d : Nat) : Named ⟨s.buf, s.tx.setContract { s.tx.contract with tokenDecimals := d }⟩
    contract name := ⟨h.contract_eq, h.name_eq, h.length_eq⟩
  refine ensures_bind.mpr ((methodIs_ensures h _).mono fun o t hpost => ?_)
  obtain ⟨ho, ht⟩ := hpost
  subst ho ht
  refine ensures_bind.mpr ((methodIs_ensures h _).mono fun o t hpost => ?_)
  obtain ⟨ho, ht⟩ := hpost
  subst ho ht
  refine ensures_bind.mpr ((methodIs_ensures h _).mono fun o t hpost => ?_)
  obtain ⟨ho, ht⟩ := hpost
  subst ho ht
  refine ensures_bind.mpr ((methodIs_ensures h _).mono fun o t hpost => ?_)
  obtain ⟨ho, ht⟩ := hpost
  subst ho ht
  refine returns_modify_bind.mpr ?_
  simp only [Bool.or_eq_true, decide_eq_true_eq, or_assoc]
  by_cases hn : chars methodTransfer = name ∨ chars methodTransferV2 = name
  · rw [if_pos hn]
    refine returns_modify_bind.mpr ?_
    refine Returns.congr (nativeTransferDeserializeParams_returns hend) fun u => ?_
    rw [paramsAt_native]
    constructor
    · rintro ⟨p, hp, hpa, m, hm, hmn, hargs⟩
      subst hpa hmn
      obtain ⟨hticker, hdec⟩ := nativeToken_eq p hp htoken
      rcases hargs with ⟨_, states, count, marked, hbound, hr⟩ | ⟨args, _, _⟩
      · refine ⟨states, count, marked, hbound, ?_⟩
        rw [hdec m hm] at hr
        rw [hticker]
        exact hr
      · rw [(transferStateList_iff p hp m hm).mpr ⟨htoken, hn.imp Eq.symm Eq.symm⟩] at args
        exact match args with | .cons a _ => nomatch a
    · rintro ⟨states, count, marked, hbound, hr⟩
      obtain ⟨p, hp, hpa, m, hm, hmn⟩ : ∃ p ∈ getTxPayload, p.contractAddr = contract ∧
          ∃ m ∈ p.methods, chars m.name = name := by
        have hc : contract ∈ [ontAddr, ongAddr] := by simpa using htoken
        rcases hn with hn | hn
        · obtain ⟨p, hp, hpa, m, hm, hmn⟩ := exists_transfers _ hc methodTransfer (by decide)
          exact ⟨p, hp, hpa, m, hm, by rw [hmn, hn]⟩
        · obtain ⟨p, hp, hpa, m, hm, hmn⟩ := exists_transfers _ hc methodTransferV2 (by decide)
          exact ⟨p, hp, hpa, m, hm, by rw [hmn, hn]⟩
      subst hpa hmn
      obtain ⟨hticker, hdec⟩ := nativeToken_eq p hp htoken
      refine ⟨p, hp, rfl, m, hm, rfl, .inl ⟨(transferStateList_iff p hp m hm).mpr
        ⟨htoken, hn.imp Eq.symm Eq.symm⟩, states, count, marked, hbound, ?_⟩⟩
      rw [hdec m hm, ← hticker]
      exact hr
  · rw [if_neg hn]
    refine Returns.congr (nativeParams_returns (hdec _) hvm hs) fun u => ?_
    rw [paramsAt_native]
    refine exists_congr fun p => and_congr_right fun hp => and_congr_right fun hpa =>
      exists_congr fun m => and_congr_right fun hm => and_congr_right fun hmn => ?_
    subst hpa hmn
    have hlist : m.parameters ≠ [.transferStateList] := fun hl =>
      hn (((transferStateList_iff p hp m hm).mp hl).2.imp Eq.symm Eq.symm)
    rw [(nativeToken_eq p hp htoken).2 m hm]
    simp only [hlist, false_and, false_or]
    rfl

theorem transactionDeserializeParams_returns {vm : Vm} (h : Named s contract name)
    (hvm : s.tx.contract.type = vm.contractType) (hs : s.buf.size ≤ cfg.maxTransactionLen)
    (hend : vm = .native → ∃ u, s.buf.rest = u ++ [0x00]) :
    Returns (transactionDeserializeParams cfg) s .ok (vm.ParamsAt cfg contract name s) := by
  refine returns_get_bind.mpr ?_
  cases vm with
  | native =>
    change s.tx.contract.type = .native at hvm
    rw [if_pos hvm]
    refine returns_modify_bind.mpr ?_
    have h₁ : Named ⟨s.buf, s.tx.setContract { s.tx.contract with tokenDecimals := ontDecimals }⟩
      contract name := ⟨h.contract_eq, h.name_eq, h.length_eq⟩
    refine ensures_bind.mpr ((contractIs_ensures h₁ ontAddr).mono fun isOnt t hpost => ?_)
    obtain ⟨ho, ht⟩ := hpost
    subst ho ht
    refine ensures_bind.mpr ((contractIs_ensures h₁ ongAddr).mono fun isOng t hpost => ?_)
    obtain ⟨ho, ht⟩ := hpost
    subst ho ht
    by_cases htoken : contract = ontAddr ∨ contract = ongAddr
    · rw [if_pos (by simpa using htoken)]
      exact nativeTokenParams_returns h₁ htoken hvm hs (hend rfl)
    · rw [if_neg (by simpa using htoken)]
      refine Returns.congr (nativeParams_returns h₁ hvm hs) fun u => ?_
      rw [paramsAt_native]
      refine exists_congr fun p => and_congr_right fun hp => and_congr_right fun hpa =>
        exists_congr fun m => and_congr_right fun hm => and_congr_right fun hmn => ?_
      subst hpa
      have hlist : m.parameters ≠ [.transferStateList] := fun hl =>
        htoken ((transferStateList_iff p hp m hm).mp hl).1
      simp only [hlist, false_and, false_or, Vm.tokenDecimals, htoken, if_false]
      rfl
  | neovm =>
    rw [if_neg (by rw [hvm]; decide)]
    refine Returns.congr (registeredParams_returns h hvm hs) fun u => ?_
    refine exists_congr fun p => and_congr_right fun _ => and_congr_right fun _ =>
      exists_congr fun m => and_congr_right fun _ => and_congr_right fun _ => ?_
    constructor
    · intro ⟨.neovm args count, hfits, hr⟩
      simp only [Vm.closing, List.append_nil] at hr
      obtain ⟨r, hr, hclose⟩ := (reads_append (u := args.tokens .neovm)).mp hr
      exact ⟨args, hfits, r, hr, count, reads_marks.mp hclose⟩
    · rintro ⟨args, hfits, r, hr, count, hclose⟩
      refine ⟨.neovm args count, hfits, ?_⟩
      simp only [Vm.closing, List.append_nil]
      exact (reads_append (u := args.tokens .neovm)).mpr ⟨r, hr, reads_marks.mpr hclose⟩
  | wasmvm =>
    rw [if_neg (by rw [hvm]; decide)]
    refine Returns.congr (registeredParams_returns h hvm hs) fun u => ?_
    refine exists_congr fun p => and_congr_right fun _ => and_congr_right fun _ =>
      exists_congr fun m => and_congr_right fun _ => and_congr_right fun _ => ?_
    constructor
    · intro ⟨.wasmvm args, hfits, hr⟩
      obtain ⟨r, hr, hclose⟩ := reads_append.mp hr
      exact ⟨args, hfits, r, hr, reads_mark.mp hclose⟩
    · rintro ⟨args, hfits, r, hr, hclose⟩
      exact ⟨.wasmvm args, hfits, reads_append.mpr ⟨r, hr, reads_mark.mpr hclose⟩⟩

end

end AppOnt
