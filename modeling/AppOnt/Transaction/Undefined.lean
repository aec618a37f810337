import AppOnt.Transaction.Correctness

/-!
# Transactions that are not defined

How a run ends with `PARSING_TX_NOT_DEFINED`: the first four stages have
located a contract and a method, and the two are not registered together.
-/
namespace AppOnt

open Prog

/-- The contract has a method with the name in the table. -/
def Registered (contract name : List UInt8) : Prop :=
  ∃ p ∈ getTxPayload, p.contractAddr = contract ∧ ∃ m ∈ p.methods, chars m.name = name

instance (contract name : List UInt8) : Decidable (Registered contract name) := by
  unfold Registered
  infer_instance

section
variable {cfg : Config} {s t : ParserState} {contract name : List UInt8}

/-- The header that a run has stored. -/
def header (s : ParserState) : TxHeader := s.tx.header

theorem andThen_run {x y : ParseM ParserStatus} (h : x.run s = .ok (.ok, t)) :
    (andThen x y).run s = y.run t := by
  rw [andThen, StateT.run_bind, h]
  rfl

section
variable [BufferSdk]

theorem registeredParams_yields {vm : Vm} (h : Named s contract name)
    (hvm : s.tx.contract.type = vm.contractType) :
    Yields (registeredParams cfg) s fun status t =>
      (status = .txNotDefined ↔ ¬ Registered contract name) ∧
      (status = .txNotDefined → header t = header s) := by
  refine yields_bind.mpr ((findPayload_ensures h getTxPayload).yields.mono fun o t hpost => ?_)
  obtain ⟨ho, ht⟩ := hpost
  subst ht
  cases o with
  | none =>
    refine yields_pure.mpr ⟨iff_of_true rfl fun ⟨p, hp, hpa, _⟩ => ?_, fun _ => rfl⟩
    simpa [hpa] using List.find?_eq_none.mp ho.symm p hp
  | some p =>
    obtain ⟨hp, hpa⟩ := (find?_key_eq_some nodup_contractAddr).mp ho.symm
    refine yields_bind.mpr ((setRegisteredToken_ensures hvm p).yields.mono fun _ u hu => ?_)
    have hnamed : Named u contract name := by subst hu; exact ⟨h.contract_eq, h.name_eq, h.length_eq⟩
    have hheader : header u = header t := by subst hu; rfl
    refine yields_bind.mpr ((findMethod_ensures hnamed p.methods).yields.mono fun o v hpost => ?_)
    obtain ⟨ho', hv⟩ := hpost
    subst hv
    cases o with
    | none =>
      refine yields_pure.mpr ⟨iff_of_true rfl fun ⟨q, hq, hqa, m, hm, hmn⟩ => ?_, fun _ => hheader⟩
      obtain rfl := List.inj_on_of_nodup_map nodup_contractAddr hp hq (hpa.trans hqa.symm)
      simpa [hmn] using List.find?_eq_none.mp (Option.map_eq_none_iff.mp ho'.symm) m hm
    | some parameters =>
      obtain ⟨m, hfind, rfl⟩ := Option.map_eq_some_iff.mp ho'.symm
      obtain ⟨hm, hmn⟩ := (find?_key_eq_some (nodup_methodName p hp)).mp hfind
      have hreg : Registered contract name := ⟨p, hp, hpa, m, hm, hmn⟩
      -- the arguments end the run in success or in an error
      refine yields_bind_of fun n w => ?_
      cases n with
      | none => simp [hreg]
      | some n =>
        refine yields_bind_of fun ok w => ?_
        cases ok <;> simp [hreg]

/-- What a stage keeps when it leaves the transaction undefined. -/
def Leaves (contract name : List UInt8) (s : ParserState) (status : ParserStatus)
    (t : ParserState) : Prop :=
  status = .txNotDefined → ¬ Registered contract name ∧ header t = header s

theorem nativeParams_yields (h : Named s contract name)
    (hvm : s.tx.contract.type = Vm.native.contractType) :
    Yields (nativeParams cfg) s (Leaves contract name s) := by
  refine yields_bind.mpr fun ok t hrun => ?_
  cases ok with
  | false => exact yields_pure.mpr (by simp [Leaves])
  | true =>
    have ht : Moves opcodeStBegin id s t := ((onBuf_constant opcodeStBegin).iff t).mp hrun
    have htx : t.tx = s.tx := ht.2
    have hnamed : Named t contract name := by
      refine ⟨?_, ?_, ?_⟩
      · rw [ht.1.1, htx]
        exact h.contract_eq
      · rw [ht.1.1, htx]
        exact h.name_eq
      · rw [htx]
        exact h.length_eq
    refine (registeredParams_yields hnamed (by rw [htx, hvm])).mono fun status u ⟨hiff, hkeep⟩ hs => ?_
    exact ⟨hiff.mp hs, (hkeep hs).trans (congrArg Transaction.header htx)⟩

theorem nativeTransferDeserializeParams_yields :
    Yields (nativeTransferDeserializeParams cfg) s fun status _ => status ≠ .txNotDefined := by
  refine yields_bind_of fun s₁ t => yields_bind_of fun o u => ?_
  cases o with
  | none => exact yields_pure.mpr (by simp)
  | some num =>
    refine yields_bind_of fun ok w => ?_
    cases ok <;> exact yields_pure.mpr (by simp)

theorem nativeTokenParams_yields (h : Named s contract name)
    (hvm : s.tx.contract.type = Vm.native.contractType) (isOnt isOng : Bool) :
    Yields (nativeTokenParams cfg isOnt isOng) s (Leaves contract name s) := by
  have hname (m : String) := methodIs_ensures h m
  refine yields_bind.mpr ((hname _).yields.mono fun isTransfer t hpost => ?_)
  obtain ⟨_, ht⟩ := hpost
  subst ht
  refine yields_bind.mpr ((hname _).yields.mono fun isTransferV2 t hpost => ?_)
  obtain ⟨_, ht⟩ := hpost
  subst ht
  refine yields_bind.mpr ((hname _).yields.mono fun isTransferFromV2 t hpost => ?_)
  obtain ⟨_, ht⟩ := hpost
  subst ht
  refine yields_bind.mpr ((hname _).yields.mono fun isApproveV2 t hpost => ?_)
  obtain ⟨_, ht⟩ := hpost
  subst ht
  refine yields_bind.mpr (yields_modify.mpr ?_)
  split
  · refine yields_bind_of fun _ u => ?_
    exact nativeTransferDeserializeParams_yields.mono fun status v hne hs => absurd hs hne
  · exact nativeParams_yields ⟨h.contract_eq, h.name_eq, h.length_eq⟩ hvm

/-- The parameters leave a transaction undefined only if it is not registered, and then always
unless the call is a native one. -/
theorem transactionDeserializeParams_yields {vm : Vm} (h : Named s contract name)
    (hvm : s.tx.contract.type = vm.contractType) :
    Yields (transactionDeserializeParams cfg) s fun status t =>
      Leaves contract name s status t ∧
      (vm ≠ .native → ¬ Registered contract name → status = .txNotDefined) := by
  refine yields_bind.mpr (yields_get.mpr ?_)
  split
  · rename_i hnative
    obtain rfl : vm = .native := Vm.contractType_inj (hvm.symm.trans hnative)
    suffices hleaves : Yields (do
        setTokenDecimals ontDecimals
        let isOnt ← contractIs ontAddr
        let isOng ← contractIs ongAddr
        if isOnt || isOng then nativeTokenParams cfg isOnt isOng else nativeParams cfg) s
        (Leaves contract name s) from
      hleaves.mono fun status t hl => ⟨hl, fun hne => absurd rfl hne⟩
    refine yields_bind.mpr (yields_modify.mpr ?_)
    have hnamed : Named ⟨s.buf, s.tx.setContract { s.tx.contract with tokenDecimals := ontDecimals }⟩
        contract name := ⟨h.contract_eq, h.name_eq, h.length_eq⟩
    refine yields_bind.mpr ((contractIs_ensures hnamed _).yields.mono fun isOnt t hpost => ?_)
    obtain ⟨_, ht⟩ := hpost
    subst ht
    refine yields_bind.mpr ((contractIs_ensures hnamed _).yields.mono fun isOng t hpost => ?_)
    obtain ⟨_, ht⟩ := hpost
    subst ht
    split
    · exact nativeTokenParams_yields hnamed hvm isOnt isOng
    · exact nativeParams_yields hnamed hvm
  · refine (registeredParams_yields h hvm).mono fun status t ⟨hiff, hkeep⟩ => ⟨fun hs => ?_, fun _ hr => hiff.mpr hr⟩
    exact ⟨hiff.mp hs, hkeep hs⟩

end

section
variable {s t : ParserState} {vm : Vm} {a : Bytes addressScriptHashLen} {name : List UInt8}

theorem Vm.ContractAt.ptr_eq (hc : vm.ContractAt a s t) : t.buf.ptr = s.buf.ptr := by
  cases vm with
  | native => rw [hc.2]
  | neovm => rw [hc.2]
  | wasmvm => exact hc.1.1

theorem Vm.MethodStage.ptr_eq (hm : vm.MethodStage name s t) : t.buf.ptr = s.buf.ptr := by
  cases vm with
  | native => obtain ⟨cur, -, -, -, ht⟩ := hm; rw [ht]
  | neovm => obtain ⟨cur, -, -, -, ht⟩ := hm; rw [ht]
  | wasmvm => obtain ⟨remaining, -, -, hb, -⟩ := hm; exact hb.1

theorem Vm.ContractAt.header_eq (hc : vm.ContractAt a s t) : header t = header s := by
  cases vm with
  | native => rw [hc.2]; rfl
  | neovm => rw [hc.2]; rfl
  | wasmvm => rw [header, hc.2]; rfl

theorem Vm.MethodStage.header_eq (hm : vm.MethodStage name s t) : header t = header s := by
  cases vm with
  | native => obtain ⟨cur, -, -, -, ht⟩ := hm; rw [ht]; rfl
  | neovm => obtain ⟨cur, -, -, -, ht⟩ := hm; rw [ht]; rfl
  | wasmvm => obtain ⟨remaining, -, -, -, ht⟩ := hm; rw [header, ht]; rfl

end

/-- What the first four stages read from `s` to `r`: the header `h`, the size prefix `p`, and the
contract and the method that are called. -/
structure Located (cfg : Config) (h : Header) (p : SizePrefix) (vm : Vm)
    (a : Bytes addressScriptHashLen) (name : List UInt8) (s r : ParserState) : Prop where
  size_le : s.buf.size ≤ cfg.maxTransactionLen
  stages : ∃ t₁ t₂ t₃, Moves (h.encode vm.txType)
      (fun tx => tx.setHeader (h.view vm.txType (s.buf.offset + 22))) s t₁ ∧
    p.Declares cfg t₁.buf.offset t₁.buf.size ∧ Moves p.encode id t₁ t₂ ∧
    vm.ContractAt a t₂ t₃ ∧ vm.MethodStage name t₃ r
  name_ne_nil : name ≠ []
  name_lt : name.length < 256

/-- The stages before the parameters. -/
def throughMethod [BufferSdk] (cfg : Config) : ParseM ParserStatus :=
  andThen (transactionDeserializeHeader cfg) <|
  andThen (transactionDeserializePayloadSize cfg) <|
  andThen (transactionDeserializeContract cfg) <|
  transactionDeserializeMethod cfg

section
variable [BufferSdk] {h : Header} {p : SizePrefix} {vm : Vm} {a : Bytes addressScriptHashLen}
  {r : ParserState}

omit [BufferSdk] in
theorem andThen_assoc (x y z : ParseM ParserStatus) :
    andThen (andThen x y) z = andThen x (andThen y z) := by
  simp only [andThen, bind_assoc]
  refine bind_congr fun status => ?_
  cases status <;> simp

theorem transactionDeserialize_eq : transactionDeserialize cfg =
    andThen (throughMethod cfg) (andThen (transactionDeserializeParams cfg) (checkLength cfg)) := by
  simp only [throughMethod, andThen_assoc]
  rfl

theorem throughMethod_returns : Returns (throughMethod cfg) s .ok fun r =>
    ∃ h p vm a name, Located cfg h p vm a name s r := by
  have hmax := cfg.target_cases
  have hM := cfg.sizeMod_cases
  refine Returns.congr (andThen_returns transactionDeserializeHeader_returns
    (S := fun t₁ r => ∃ (p : SizePrefix) (t₂ : ParserState) (vm : Vm)
      (a : Bytes addressScriptHashLen) (t₃ : ParserState) (name : List UInt8),
      p.Declares cfg t₁.buf.offset t₁.buf.size ∧
      Moves p.encode id t₁ t₂ ∧ t₂.tx.header.txType = Vm.txType vm ∧ vm.ContractAt a t₂ t₃ ∧
      (name ≠ [] ∧ name.length < 256) ∧ vm.MethodStage name t₃ r)
    fun t₁ ⟨hs, h, ty, h₁⟩ => ?_) fun u => ?_
  · have hoff₁ := h₁.1.offset
    rw [h.length_encode] at hoff₁
    refine Returns.congr (andThen_returns transactionDeserializePayloadSize_returns
      (S := fun t₂ r => ∃ (vm : Vm) (a : Bytes addressScriptHashLen) (t₃ : ParserState)
        (name : List UInt8), t₂.tx.header.txType = vm.txType ∧ vm.ContractAt a t₂ t₃ ∧
        (name ≠ [] ∧ name.length < 256) ∧ vm.MethodStage name t₃ r)
      fun t₂ ⟨p, hp, h₂⟩ => ?_) fun u => ?_
    · have hoff₂ := h₂.1.offset
      have hsize : t₂.buf.size ≤ cfg.maxTransactionLen := by rw [h₂.1.size, h₁.1.size]; exact hs
      refine Returns.congr (andThen_returns (transactionDeserializeContract_returns (by omega))
        (S := fun t₃ r => ∃ (vm : Vm) (name : List UInt8), t₃.tx.contract.type = vm.contractType ∧
          (name ≠ [] ∧ name.length < 256) ∧ vm.MethodStage name t₃ r)
        fun t₃ ⟨vm, a, hty, hc⟩ => ?_) fun u => ?_
      · have hle := hc.offset_le
        refine Returns.congr (transactionDeserializeMethod_returns hc.type_eq
          (by rw [hc.size_eq]; omega) (by omega) hc.tail_le) fun u => ?_
        constructor
        · rintro ⟨vm', name, hvm, hname, hm⟩
          obtain rfl := Vm.contractType_inj (hc.type_eq.symm.trans hvm)
          exact ⟨name, hname, hm⟩
        · rintro ⟨name, hname, hm⟩
          exact ⟨vm, name, hc.type_eq, hname, hm⟩
      · constructor
        · rintro ⟨vm, a, t₃, name, hty, hc, hname, hm⟩
          exact ⟨t₃, ⟨vm, a, hty, hc⟩, vm, name, hc.type_eq, hname, hm⟩
        · rintro ⟨t₃, ⟨vm, a, hty, hc⟩, vm', name, hvm, hname, hm⟩
          obtain rfl := Vm.contractType_inj (hc.type_eq.symm.trans hvm)
          exact ⟨vm, a, t₃, name, hty, hc, hname, hm⟩
    · constructor
      · rintro ⟨p, t₂, vm, a, t₃, name, hp, h₂, hrest⟩
        exact ⟨t₂, ⟨p, hp, h₂⟩, vm, a, t₃, name, hrest⟩
      · rintro ⟨t₂, ⟨p, hp, h₂⟩, vm, a, t₃, name, hrest⟩
        exact ⟨p, t₂, vm, a, t₃, name, hp, h₂, hrest⟩
  · constructor
    · rintro ⟨h, p, vm, a, name, ⟨hs, ⟨t₁, t₂, t₃, h₁, hp, h₂, hc, hm⟩, hne, hlt⟩⟩
      refine ⟨t₁, ⟨hs, h, vm.txType, h₁⟩, p, t₂, vm, a, t₃, name, hp, h₂, ?_, hc, ⟨hne, hlt⟩, hm⟩
      rw [h₂.2, h₁.2]
      rfl
    · rintro ⟨t₁, ⟨hs, h, ty, h₁⟩, p, t₂, vm, a, t₃, name, hp, h₂, hty, hc, ⟨hne, hlt⟩, hm⟩
      obtain rfl : ty = vm.txType := by rw [← hty, h₂.2, h₁.2]; rfl
      exact ⟨h, p, vm, a, name, hs, ⟨t₁, t₂, t₃, h₁, hp, h₂, hc, hm⟩, hne, hlt⟩

omit [BufferSdk] in
theorem Located.type_eq (hl : Located cfg h p vm a name s r) :
    r.tx.contract.type = vm.contractType := by
  obtain ⟨t₁, t₂, t₃, _, _, _, hc, hm⟩ := hl.stages
  rw [hm.contract_eq, hc.type_eq]

omit [BufferSdk] in
theorem Located.named (hl : Located cfg h p vm a name s r) : Named r a.1 name := by
  obtain ⟨t₁, t₂, t₃, _, _, _, hc, hm⟩ := hl.stages
  exact hm.named hc

omit [BufferSdk] in
theorem Located.size_eq (hl : Located cfg h p vm a name s r) : r.buf.size = s.buf.size := by
  obtain ⟨t₁, t₂, t₃, h₁, _, h₂, hc, hm⟩ := hl.stages
  rw [hm.size_eq, hc.size_eq, h₂.1.size, h₁.1.size]

omit [BufferSdk] in
theorem Located.ptr_eq (hl : Located cfg h p vm a name s r) : r.buf.ptr = s.buf.ptr := by
  obtain ⟨t₁, t₂, t₃, h₁, _, h₂, hc, hm⟩ := hl.stages
  rw [hm.ptr_eq, hc.ptr_eq, h₂.1.1, h₁.1.1]

omit [BufferSdk] in
theorem Located.header_eq (hl : Located cfg h p vm a name s r) :
    header r = h.view vm.txType (s.buf.offset + 22) := by
  obtain ⟨t₁, t₂, t₃, h₁, _, h₂, hc, hm⟩ := hl.stages
  rw [hm.header_eq, hc.header_eq, header, h₂.2, h₁.2]
  rfl

omit [BufferSdk] in
theorem Located.ends (hl : Located cfg h p vm a name s r) (hvm : vm = .native) :
    ∃ u, r.buf.rest = u ++ [0x00] := by
  obtain ⟨t₁, t₂, t₃, _, _, _, hc, hm⟩ := hl.stages
  exact hm.ends hc hvm

/-- Before the parameters a stage fails with an error. -/
theorem throughMethod_yields :
    Yields (throughMethod cfg) s fun status _ => status ≠ .txNotDefined := by
  have hselect (chain : ParseM Bool) (t : ParserState) :
      Yields (do if ← chain then return ParserStatus.ok else return .bytecodeWrong) t
        fun status _ => status ≠ .txNotDefined := by
    refine yields_bind_of fun ok u => ?_
    cases ok <;> simp
  have hthen {x y : ParseM ParserStatus}
      (hx : ∀ t, Yields x t fun status _ => status ≠ .txNotDefined)
      (hy : ∀ t, Yields y t fun status _ => status ≠ .txNotDefined) (t : ParserState) :
      Yields (andThen x y) t fun status _ => status ≠ .txNotDefined := by
    refine yields_bind.mpr ((hx t).mono fun status u hs => ?_)
    cases status with
    | ok => exact hy u
    | _ => exact yields_pure.mpr hs
  have hbefore (type : TxContractType) (c : Nat) (t : ParserState) :
      Yields (deserializeMethodBefore cfg type c) t fun status _ => status ≠ .txNotDefined := by
    refine yields_bind_of fun s₁ u => ?_
    dsimp only
    split
    · simp
    · exact yields_bind_of fun cur v => hselect _ v
  refine hthen (fun t => ?_) (hthen (fun t => ?_) (hthen (fun t => ?_) fun t => ?_)) s
  · refine yields_bind_of fun s₁ u => ?_
    split
    · simp
    · exact hselect _ u
  · refine yields_bind_of fun o u => ?_
    cases o with
    | none => simp
    | some firstByte =>
      dsimp only
      split
      · simp
      · refine yields_bind_of fun o v => ?_
        cases o with
        | none => simp
        | some size => exact yields_bind_of fun s₁ w => yields_ite.mpr (by simp)
  · refine yields_bind_of fun s₁ u => ?_
    dsimp only
    split
    · refine yields_bind_of fun ok v => ?_
      cases ok with
      | false => simp
      | true =>
        refine yields_bind_of fun discriminator w => ?_
        split
        · exact yields_bind_of fun _ w => hselect _ w
        · exact yields_bind_of fun _ w => hselect _ w
    · exact yields_bind_of fun _ w => hselect _ w
    · simp
  · refine yields_bind_of fun s₁ u => ?_
    split
    · exact hbefore _ _ u
    · exact hbefore _ _ u
    · refine yields_bind_of fun o v => ?_
      cases o with
      | none => simp
      | some remaining => exact yields_bind_of fun s₂ w => hselect _ w
    · simp

omit [BufferSdk] in
theorem checkLength_yields :
    Yields (checkLength cfg) s fun status _ => status ≠ .txNotDefined := by
  refine yields_bind_of fun s₁ t => ?_
  cases trailingLength s₁.tx with
  | none => simp
  | some len => exact yields_ite.mpr (by simp)

/-- A run that ends in success or undefined has located the contract and the method. -/
theorem transactionDeserialize_located {status : ParserStatus}
    (hstatus : status = .ok ∨ status = .txNotDefined)
    (hrun : (transactionDeserialize cfg).run s = .ok (status, t)) :
    ∃ h p vm a name r, Located cfg h p vm a name s r ∧
      (andThen (transactionDeserializeParams cfg) (checkLength cfg)).run r = .ok (status, t) := by
  have hthrough : Returns (throughMethod cfg) s .ok _ := throughMethod_returns
  obtain ⟨first, u, hfirst, hiff⟩ := hthrough
  rw [transactionDeserialize_eq] at hrun
  cases first with
  | ok =>
    rw [andThen_run hfirst] at hrun
    obtain ⟨h, p, vm, a, name, hl⟩ := (hiff u).mpr ⟨rfl, rfl⟩
    exact ⟨h, p, vm, a, name, u, hl, hrun⟩
  | _ =>
    have hne := throughMethod_yields _ _ hfirst
    rw [andThen, StateT.run_bind, hfirst] at hrun
    obtain ⟨rfl, -⟩ := Prod.mk.inj (Except.ok.inj hrun)
    simp at hstatus hne

theorem Located.run_eq (hl : Located cfg h p vm a name s r) :
    (transactionDeserialize cfg).run s =
      (andThen (transactionDeserializeParams cfg) (checkLength cfg)).run r := by
  rw [transactionDeserialize_eq]
  exact andThen_run ((throughMethod_returns.iff r).mpr ⟨h, p, vm, a, name, hl⟩)

/-- After the method, a transaction is undefined only if it is not registered. -/
theorem Located.yields (hl : Located cfg h p vm a name s r) :
    Yields (transactionDeserialize cfg) s (Leaves a.1 name r) := by
  intro status t hrun
  rw [hl.run_eq] at hrun
  refine yields_bind.mpr ((transactionDeserializeParams_yields hl.named hl.type_eq).mono
    fun status u hu => ?_) status t hrun
  cases status with
  | ok => exact checkLength_yields.mono fun status v hne hs => absurd hs hne
  | _ => exact yields_pure.mpr hu.1

/-- A call of the NEOVM or WASM machine is undefined exactly if it is not registered. -/
theorem Located.undefined_iff (hl : Located cfg h p vm a name s r) (hvm : vm ≠ .native) :
    (∃ t, (transactionDeserialize cfg).run s = .ok (.txNotDefined, t)) ↔
      ¬ Registered a.1 name := by
  constructor
  · rintro ⟨t, hrun⟩
    exact (hl.yields _ t hrun rfl).1
  · intro hr
    have hparams : Returns (transactionDeserializeParams cfg) r .ok _ :=
      transactionDeserializeParams_returns hl.named hl.type_eq (by rw [hl.size_eq]; exact hl.size_le)
        hl.ends
    obtain ⟨status, t, hrun, -⟩ := hparams
    obtain rfl := (transactionDeserializeParams_yields hl.named hl.type_eq status t hrun).2 hvm hr
    refine ⟨t, ?_⟩
    rw [hl.run_eq, andThen, StateT.run_bind, hrun]
    rfl

end

end

/-- The first byte of a prefix says how long it is, so the bytes have only one. -/
theorem SizePrefix.eq_of_prefix {p q : SizePrefix} {l : List UInt8} (hp : p.encode <+: l)
    (hq : q.encode <+: l) : p = q := by
  have hinj {n : Nat} {u v : Bytes n} {b : UInt8} (hu : b :: u.1 <+: l) (hv : b :: v.1 <+: l) :
      u = v := by
    have hlen : (b :: u.1).length = (b :: v.1).length := by simp [u.2, v.2]
    have := (List.prefix_of_prefix_length_le hu hv hlen.le).eq_of_length hlen
    exact Subtype.ext (List.cons.inj this).2
  have hhead {x y : UInt8} {u v : List UInt8} (hu : x :: u <+: l) (hv : y :: v <+: l) : x = y := by
    obtain ⟨w, rfl⟩ := hu
    obtain ⟨z, hz⟩ := hv
    exact (List.cons.inj hz).1.symm
  have hwide {x y : UInt8} (hx : x < 0xfd) (hy : 0xfd ≤ y) (h : x = y) : p = q :=
    absurd (h ▸ hx) (UInt8.not_lt.mpr hy)
  cases p with
  | byte b hb hlt =>
    cases q with
    | byte c hc _ => cases hhead hp hq; rfl
    | _ => exact hwide hlt (by decide) (hhead hp hq)
  | uint16 u =>
    cases q with
    | byte c hc hlt => exact hwide hlt (by decide) (hhead hq hp)
    | uint16 v => exact congrArg _ (hinj hp hq)
    | _ => exact absurd (hhead hp hq) (by decide)
  | uint32 u =>
    cases q with
    | byte c hc hlt => exact hwide hlt (by decide) (hhead hq hp)
    | uint32 v => exact congrArg _ (hinj hp hq)
    | _ => exact absurd (hhead hp hq) (by decide)
  | uint64 u =>
    cases q with
    | byte c hc hlt => exact hwide hlt (by decide) (hhead hq hp)
    | uint64 v => exact congrArg _ (hinj hp hq)
    | _ => exact absurd (hhead hp hq) (by decide)

/-- A contract takes at least its address. -/
theorem Vm.ContractAt.length_rest {vm : Vm} {a : Bytes addressScriptHashLen} {s t : ParserState}
    (hc : vm.ContractAt a s t) : 20 ≤ s.buf.rest.length := by
  cases vm with
  | native =>
    obtain ⟨⟨u, hu⟩, -⟩ := hc
    rw [hu, List.length_append, length_nativeTail]
    omega
  | neovm =>
    obtain ⟨⟨u, hu⟩, -⟩ := hc
    rw [hu, List.length_append, length_neovmTail]
    omega
  | wasmvm =>
    have := hc.1.length_le
    rwa [a.2] at this

theorem Located.declares {h : Header} {p : SizePrefix} {vm : Vm} {a : Bytes addressScriptHashLen}
    {raw : List UInt8} {tx : Transaction} {r : ParserState}
    (hl : Located cfg h p vm a name ⟨.ofBytes raw, tx⟩ r) :
    ∃ rest, raw = h.encode vm.txType ++ (p.encode ++ rest) ∧ 20 ≤ rest.length ∧
      p.Declares cfg 42 raw.length := by
  obtain ⟨t₁, t₂, t₃, h₁, hp, h₂, hc, -⟩ := hl.stages
  refine ⟨t₂.buf.rest, ?_, hc.length_rest, ?_⟩
  · rw [← h₂.1.2]
    exact h₁.1.2
  · rw [h₁.1.offset, h₁.1.size, h.length_encode] at hp
    exact hp

/-- The declared payload size is the real one exactly if it fits into `size_t`. -/
theorem payloadSize_eq_iff [BufferSdk] (cfg : Config) (raw : List UInt8) (tx : Transaction)
    (status : ParserStatus) (t : ParserState) (hstatus : status = .ok ∨ status = .txNotDefined)
    (hrun : (transactionDeserialize cfg).run ⟨.ofBytes raw, tx⟩ = .ok (status, t)) :
    ∃ p : SizePrefix, p.encode <+: raw.drop 42 ∧ (∀ q : SizePrefix, q.encode <+: raw.drop 42 → q = p) ∧
      (p.value + opcodeEnd.length = (raw.drop (42 + p.encode.length)).length ↔
        p.value < cfg.sizeMod) := by
  obtain ⟨h, p, vm, a, name, r, hl, -⟩ := transactionDeserialize_located hstatus hrun
  obtain ⟨rest, hraw, hrest, hdecl⟩ := hl.declares
  have hmax := cfg.target_cases
  have hM := cfg.sizeMod_cases
  have hsize : raw.length ≤ cfg.maxTransactionLen := hl.size_le
  have hdrop : raw.drop 42 = p.encode ++ rest := by
    rw [hraw, ← h.length_encode vm.txType, List.drop_left]
  have hlen : raw.length = 42 + p.encode.length + rest.length := by
    rw [hraw, List.length_append, List.length_append, h.length_encode]
    omega
  have hpre : p.encode <+: raw.drop 42 := ⟨rest, hdrop.symm⟩
  refine ⟨p, hpre, fun q hq => SizePrefix.eq_of_prefix hq hpre, ?_⟩
  rw [SizePrefix.Declares] at hdecl
  rw [List.length_drop, show opcodeEnd.length = 1 from rfl]
  constructor
  · intro heq
    omega
  · intro hlt
    -- a sum that wrapped would declare less than the prefix itself takes
    rcases Nat.lt_or_ge (42 + p.encode.length + p.value + 1) cfg.sizeMod with hsum | hsum
    · rw [Nat.mod_eq_of_lt hsum] at hdecl
      omega
    · rw [Nat.mod_eq_sub_mod hsum, Nat.mod_eq_of_lt (by omega)] at hdecl
      omega

theorem payloadSize_eq_iff_sample : ∃ p : SizePrefix, p.encode <+: sampleTransfer.encode.drop 42 ∧
    (∀ q : SizePrefix, q.encode <+: sampleTransfer.encode.drop 42 → q = p) ∧
    (p.value + opcodeEnd.length = (sampleTransfer.encode.drop (42 + p.encode.length)).length ↔
      p.value < 2 ^ 32) :=
  letI := BufferSdk.reference
  payloadSize_eq_iff ⟨.nano, .w32⟩ sampleTransfer.encode .zero .ok
    _ (.inl rfl) (sampleTransfer_admitted.run .zero)

/-- `sampleTransfer` with a size that is `2 ^ 32` too large. -/
def widePrefixTransfer : Signable :=
  { sampleTransfer with sizePrefix := .uint64 ⟨[0x71, 0, 0, 0, 1, 0, 0, 0], rfl⟩ }

theorem widePrefixTransfer_accepted :
    ((@transactionDeserialize BufferSdk.reference ⟨.nano, .w32⟩).run
      ⟨.ofBytes widePrefixTransfer.encode, .zero⟩).map (·.1) = .ok .ok ∧
    widePrefixTransfer.sizePrefix.encode <+: widePrefixTransfer.encode.drop 42 ∧
    widePrefixTransfer.sizePrefix.value = 0x100000071 ∧
    (widePrefixTransfer.encode.drop (42 + widePrefixTransfer.sizePrefix.encode.length)).length =
      0x71 + opcodeEnd.length := by
  decide +kernel

end AppOnt
