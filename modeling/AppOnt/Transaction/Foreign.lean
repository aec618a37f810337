import AppOnt.Transaction.Layouts

/-!
# Calls that are not registered

The bytes that the device may sign without being able to show them, as a syntax of
their own beside `Signable`: a call laid out for its virtual machine whose contract
has no method of that name in the table. The parser answers
`PARSING_TX_NOT_DEFINED` exactly on these, and it has then stored where the
contract is, which a blind review shows.
-/
namespace AppOnt

open Prog Token

/-- What the parser has stored of the contract's address. -/
def contractAddr (s : ParserState) : TxParameter := s.tx.contract.addr

/-- A stage leaves the transaction undefined exactly under `P`, and then with the same contract. -/
def Undefines (P : Prop) (s : ParserState) (status : ParserStatus) (t : ParserState) : Prop :=
  (status = .txNotDefined ↔ P) ∧ (status = .txNotDefined → contractAddr t = contractAddr s)

section
variable {cfg : Config} {s t : ParserState} {contract name : List UInt8}

theorem contractIs_keeps (addr : List UInt8) : Keeps (contractIs addr) contractAddr :=
  .bind .get fun _ => .bind (.ofExcept _) fun _ => .pure _

theorem methodIs_keeps (m : String) : Keeps (methodIs m) contractAddr :=
  .bind .get fun _ => .ofExcept _

theorem findPayload_keeps (ps : List Payload) : Keeps (findPayload ps) contractAddr := by
  induction ps with
  | nil => exact .pure _
  | cons p ps ih => exact .bind (contractIs_keeps _) fun _ => .ite (.pure _) ih

theorem findMethod_keeps (ms : List TxMethodSignature) : Keeps (findMethod ms) contractAddr := by
  induction ms with
  | nil => exact .pure _
  | cons m ms ih => exact .bind (methodIs_keeps _) fun _ => .ite (.pure _) ih

theorem setTicker_keeps (ticker : String) : Keeps (setTicker ticker) contractAddr := .modify fun _ => rfl

theorem setTokenDecimals_keeps (decimals : Nat) : Keeps (setTokenDecimals decimals) contractAddr :=
  .modify fun _ => rfl

theorem setRegisteredToken_keeps (p : Payload) : Keeps (setRegisteredToken p) contractAddr :=
  .bind (setTicker_keeps _) fun _ => .bind .get fun _ => .ite (setTokenDecimals_keeps _) (.pure _)

variable [BufferSdk]

/-- The table is consulted before any argument is read. -/
theorem registeredParams_undefines {vm : Vm} (h : Named s contract name)
    (hvm : s.tx.contract.type = vm.contractType) :
    Yields (registeredParams cfg) s (Undefines (¬ Registered contract name) s) := by
  have haddr : Yields (registeredParams cfg) s fun status t =>
      status = .txNotDefined → contractAddr t = contractAddr s := by
    refine yields_bind.mpr ((findPayload_keeps _ s).mono fun o t ht => ?_)
    cases o with
    | none => exact yields_pure.mpr fun _ => ht
    | some p =>
      refine yields_bind.mpr ((setRegisteredToken_keeps p t).mono fun _ u hu => ?_)
      refine yields_bind.mpr ((findMethod_keeps _ u).mono fun o v hv => ?_)
      cases o with
      | none => exact yields_pure.mpr fun _ => hv.trans (hu.trans ht)
      | some parameters =>
        refine yields_bind_of fun n w => ?_
        cases n with
        | none => simp
        | some n =>
          refine yields_bind_of fun ok w => ?_
          cases ok <;> simp
  intro status t hrun
  exact ⟨(registeredParams_yields h hvm status t hrun).1, haddr status t hrun⟩

theorem nativeParams_undefines (h : Named s contract name)
    (hvm : s.tx.contract.type = Vm.native.contractType) :
    Yields (nativeParams cfg) s
      (Undefines (opcodeStBegin <+: s.buf.rest ∧ ¬ Registered contract name) s) := by
  have hconstant : Returns (onBuf (parseCheckConstant opcodeStBegin)) s true
    (Moves opcodeStBegin id s) := onBuf_constant opcodeStBegin
  refine yields_bind.mpr fun ok t hrun => ?_
  cases ok with
  | false =>
    refine yields_pure.mpr ⟨iff_of_false (by simp) ?_, by simp⟩
    rintro ⟨⟨r, hr⟩, -⟩
    obtain ⟨b, hb, -⟩ := Buffer.exists_consumes hr.symm
    have hrun' := (hconstant.iff ⟨b, s.tx⟩).mpr ⟨hb, rfl⟩
    rw [hrun] at hrun'
    cases hrun'
  | true =>
    have ht : Moves opcodeStBegin id s t := (hconstant.iff t).mp hrun
    have htx : t.tx = s.tx := ht.2
    have hnamed : Named t contract name := by
      refine ⟨?_, ?_, ?_⟩
      · rw [ht.1.1, htx]
        exact h.contract_eq
      · rw [ht.1.1, htx]
        exact h.name_eq
      · rw [htx]
        exact h.length_eq
    refine (registeredParams_undefines hnamed (by rw [htx, hvm])).mono fun status u hu => ?_
    refine ⟨hu.1.trans ?_, fun hs => (hu.2 hs).trans ?_⟩
    · exact (and_iff_right ⟨t.buf.rest, ht.1.2.symm⟩).symm
    · rw [contractAddr, htx, contractAddr]

omit [BufferSdk] in
/-- The two native tokens have transfers. -/
theorem registered_transfer (hc : contract = ontAddr ∨ contract = ongAddr)
    (hn : chars methodTransfer = name ∨ chars methodTransferV2 = name) : Registered contract name := by
  obtain ⟨n, hmem, rfl⟩ : ∃ n ∈ [methodTransfer, methodTransferV2], chars n = name := by simpa using hn
  obtain ⟨p, hp, hpa, m, hm, rfl⟩ := exists_transfers contract (by simpa using hc) n hmem
  exact ⟨p, hp, hpa, m, hm, rfl⟩

theorem nativeTokenParams_undefines (h : Named s contract name)
    (hvm : s.tx.contract.type = Vm.native.contractType) (hc : contract = ontAddr ∨ contract = ongAddr)
    (isOnt isOng : Bool) : Yields (nativeTokenParams cfg isOnt isOng) s
      (Undefines (opcodeStBegin <+: s.buf.rest ∧ ¬ Registered contract name) s) := by
  have hname (m : String) := methodIs_ensures h m
  refine yields_bind.mpr ((hname _).yields.mono fun isTransfer t hpost => ?_)
  obtain ⟨htransfer, ht⟩ := hpost
  subst ht
  refine yields_bind.mpr ((hname _).yields.mono fun isTransferV2 t hpost => ?_)
  obtain ⟨htransferV2, ht⟩ := hpost
  subst ht
  refine yields_bind.mpr ((hname _).yields.mono fun isTransferFromV2 t hpost => ?_)
  obtain ⟨-, ht⟩ := hpost
  subst ht
  refine yields_bind.mpr ((hname _).yields.mono fun isApproveV2 t hpost => ?_)
  obtain ⟨-, ht⟩ := hpost
  subst ht
  refine yields_bind.mpr (yields_modify.mpr (yields_ite.mpr ⟨fun hlist => ?_, fun _ => ?_⟩))
  · have hreg : Registered contract name :=
      registered_transfer hc (by simpa [htransfer, htransferV2] using hlist)
    refine yields_bind_of fun _ u => nativeTransferDeserializeParams_yields.mono fun status v hne => ?_
    exact ⟨iff_of_false hne fun hP => hP.2 hreg, fun hs => absurd hs hne⟩
  · exact nativeParams_undefines ⟨h.contract_eq, h.name_eq, h.length_eq⟩ hvm

/-- The parameters leave a transaction undefined exactly if it is not registered and, for a native
call, the arguments begin like a list. -/
theorem transactionDeserializeParams_undefines {vm : Vm} (h : Named s contract name)
    (hvm : s.tx.contract.type = vm.contractType) : Yields (transactionDeserializeParams cfg) s
      (Undefines ((vm = .native → opcodeStBegin <+: s.buf.rest) ∧ ¬ Registered contract name) s) := by
  refine yields_bind.mpr (yields_get.mpr (yields_ite.mpr ⟨fun hnative => ?_, fun hnative => ?_⟩))
  · obtain rfl : vm = .native := Vm.contractType_inj (hvm.symm.trans hnative)
    simp only [true_imp_iff]
    refine yields_bind.mpr (yields_modify.mpr ?_)
    have hnamed : Named ⟨s.buf, s.tx.setContract { s.tx.contract with tokenDecimals := ontDecimals }⟩
        contract name := ⟨h.contract_eq, h.name_eq, h.length_eq⟩
    refine yields_bind.mpr ((contractIs_ensures hnamed _).yields.mono fun isOnt t hpost => ?_)
    obtain ⟨hont, ht⟩ := hpost
    subst ht
    refine yields_bind.mpr ((contractIs_ensures hnamed _).yields.mono fun isOng t hpost => ?_)
    obtain ⟨hong, ht⟩ := hpost
    subst ht
    refine yields_ite.mpr ⟨fun htoken => ?_, fun _ => nativeParams_undefines hnamed hvm⟩
    exact nativeTokenParams_undefines hnamed hvm (by simpa [hont, hong] using htoken) isOnt isOng
  · have hvm' : vm ≠ .native := by
      rintro rfl
      exact hnative hvm
    refine (registeredParams_undefines h hvm).mono fun status t ht => ⟨ht.1.trans ?_, ht.2⟩
    exact (and_iff_right fun heq => absurd heq hvm').symm

end

/-- A call that is not registered, laid out for its virtual machine. A native call opens its
arguments like a list. In a WASM call the arguments are all that follows the name: the byte that
should close the transaction is not looked at, and may be missing. -/
structure Foreign where
  header : Header
  sizePrefix : SizePrefix
  vm : Vm
  contract : Bytes addressScriptHashLen
  name : List UInt8
  args : List UInt8
  name_ne_nil : name ≠ []
  name_lt : name.length < 256
  unregistered : ¬ Registered contract.1 name
  opens : vm = .native → opcodeStBegin <+: vm.payload contract.1 name args
  remaining_lt : vm = .wasmvm → name.length + args.length < 256

namespace Foreign

/-- The payload code with what closes it. -/
def code (x : Foreign) : List UInt8 :=
  match x.vm with
  | .wasmvm => wasmvmPayload [UInt8.ofNat (x.name.length + x.args.length)] x.contract.1 x.name x.args
  | .native | .neovm => x.vm.payload x.contract.1 x.name x.args ++ opcodeEnd

def encode (x : Foreign) : List UInt8 :=
  x.header.encode x.vm.txType ++ (x.sizePrefix.encode ++ x.code)

/-- The bytes of a call that is taken for it: the size is declared, and the last delimiter before
the fixed end closes the arguments. -/
structure Admitted (x : Foreign) (cfg : Config) : Prop where
  length_le : x.encode.length ≤ cfg.maxTransactionLen
  declares : x.sizePrefix.Declares cfg 42 x.encode.length
  delimited : x.vm ≠ .wasmvm → methodStart x.vm.contractType x.encode (42 + x.sizePrefix.encode.length)
    (x.encode.length - (x.vm.tail x.contract.1).length)
    (x.encode.length - (x.vm.tail x.contract.1).length + 1) =
      42 + x.sizePrefix.encode.length + x.args.length

variable {x : Foreign}

theorem code_before (hvm : x.vm ≠ .wasmvm) : x.code = x.vm.payload x.contract.1 x.name x.args ++ opcodeEnd := by
  rw [code]
  split
  · rename_i heq
    exact absurd heq hvm
  all_goals rfl

theorem code_wasmvm (hvm : x.vm = .wasmvm) : x.code =
    wasmvmPayload [UInt8.ofNat (x.name.length + x.args.length)] x.contract.1 x.name x.args := by
  rw [code, hvm]

end Foreign

section
variable {cfg : Config} {x : Foreign} {tx : Transaction} {t : ParserState}

/-- The contract and the method stage of a WASM call. -/
theorem Foreign.located_wasmvm (hvm : x.vm = .wasmvm) (hrest : t.buf.rest = x.code) :
    ∃ u r, x.vm.ContractAt x.contract t u ∧ x.vm.MethodStage x.name u r := by
  have hremaining : (UInt8.ofNat (x.name.length + x.args.length)).toNat = x.name.length + x.args.length :=
    UInt8.toNat_ofNat_of_lt' (x.remaining_lt hvm)
  have htokens : t.buf.rest = x.contract.1 ++ (([UInt8.ofNat (x.name.length + x.args.length)] ++
      (UInt8.ofNat x.name.length :: x.name)) ++ x.args) := by
    rw [hrest, Foreign.code_wasmvm hvm]
    simp [wasmvmPayload, methodWithLength]
  obtain ⟨b₁, hb₁, hr₁⟩ := Buffer.exists_consumes htokens
  obtain ⟨b₂, hb₂, -⟩ := Buffer.exists_consumes hr₁
  have hsize := b₁.offset_add_length_rest
  rw [hr₁] at hsize
  have hpos := List.length_pos_iff.mpr x.name_ne_nil
  rw [hvm]
  refine ⟨⟨b₁, t.tx.setContractAt .wasmvm t.buf.offset⟩, ⟨b₂, _⟩, ⟨hb₁, rfl⟩, _, ?_, ?_, hb₂, rfl⟩
  · intro hzero
    rw [hzero] at hremaining
    have : (0 : UInt8).toNat = 0 := rfl
    omega
  · rw [hremaining, ← hsize]
    simp
    omega

/-- The stages before the parameters locate the call. -/
theorem Foreign.Admitted.located (hx : x.Admitted cfg) (tx : Transaction) :
    ∃ r, Located cfg x.header x.sizePrefix x.vm x.contract x.name ⟨.ofBytes x.encode, tx⟩ r ∧
      (x.vm = .native → opcodeStBegin <+: r.buf.rest) := by
  obtain ⟨b₁, hb₁, hr₁⟩ := Buffer.exists_consumes (show (Buffer.ofBytes x.encode).rest = _ from rfl)
  obtain ⟨b₂, hb₂, hr₂⟩ := Buffer.exists_consumes hr₁
  have hoff₁ : b₁.offset = 42 := by rw [hb₁.offset, x.header.length_encode]; rfl
  have hoff₂ : b₂.offset = 42 + x.sizePrefix.encode.length := by rw [hb₂.offset, hoff₁]
  have hptr : b₂.ptr = x.encode := by rw [hb₂.1, hb₁.1, Buffer.ptr_ofBytes]
  have hdecl : x.sizePrefix.Declares cfg b₁.offset b₁.size := by
    rw [hoff₁, hb₁.size]
    exact hx.declares
  let t₂ : ParserState := ⟨b₂, tx.setHeader (x.header.view x.vm.txType 22)⟩
  suffices hstages : ∃ u r, x.vm.ContractAt x.contract t₂ u ∧ x.vm.MethodStage x.name u r ∧
      (x.vm = .native → opcodeStBegin <+: r.buf.rest) by
    obtain ⟨u, r, hc, hm, hopens⟩ := hstages
    exact ⟨r, ⟨hx.length_le, ⟨⟨b₁, _⟩, t₂, u, ⟨hb₁, rfl⟩, hdecl, ⟨hb₂, rfl⟩, hc, hm⟩, x.name_ne_nil,
      x.name_lt⟩, hopens⟩
  by_cases hvm : x.vm = .wasmvm
  · obtain ⟨u, r, hc, hm⟩ := Foreign.located_wasmvm (t := t₂) hvm hr₂
    exact ⟨u, r, hc, hm, fun hnative => absurd (hvm.symm.trans hnative) (by decide)⟩
  · have hstart := hx.delimited hvm
    rw [← hptr, ← hoff₂] at hstart
    have hcode : x.code = x.args ++ (methodWithLength x.name ++ x.vm.tail x.contract.1) :=
      (Foreign.code_before hvm).trans (payload_append_end hvm)
    obtain ⟨u, r, hc, hm, hoff⟩ := located_before (t := t₂) hvm hstart (hr₂.trans hcode)
    refine ⟨u, r, hc, hm, fun hnative => ?_⟩
    have hrest : r.buf.rest = t₂.buf.rest := by
      rw [Buffer.rest, hm.ptr_eq, hc.ptr_eq, hoff]
      rfl
    rw [hrest]
    exact (x.opens hnative).trans ⟨opcodeEnd, (hr₂.trans (Foreign.code_before hvm)).symm⟩

/-- The scan fails, or stops behind where it is bounded. -/
theorem lt_methodStart {type : TxContractType} {ptr : List UInt8} {sBegin sEnd n : Nat}
    (hne : methodStart type ptr sBegin sEnd n ≠ 0) : sBegin < methodStart type ptr sBegin sEnd n := by
  have hlt {i c : Nat} (hi : sBegin ≤ i) (hc : delimiter? type ptr sEnd i = some c) : sBegin < c := by
    unfold delimiter? at hc
    split_ifs at hc <;> (cases hc; omega)
  induction n with
  | zero =>
    rw [methodStart] at hne ⊢
    split_ifs at hne ⊢ with hbegin
    · exact absurd rfl hne
    · cases hd : delimiter? type ptr sEnd 0 with
      | none => simp [hd] at hne
      | some c => exact hlt (by omega) hd
  | succ n ih =>
    rw [methodStart] at hne ⊢
    split_ifs at hne ⊢ with hbegin
    · exact absurd rfl hne
    · cases hd : delimiter? type ptr sEnd (n + 1) with
      | none =>
        rw [hd, Option.getD_none] at hne
        exact ih hne
      | some c => exact hlt (by omega) hd

/-- What the scan found closes the arguments, as a transaction does not begin with a name. -/
theorem Vm.MethodStage.args_before {vm : Vm} {a : Bytes addressScriptHashLen} {name : List UInt8}
    {u r : ParserState} (hvm : vm ≠ .wasmvm) (hname : name ≠ [] ∧ name.length < 256)
    (hzero : t.buf.ptr.head? = some 0x00) (hc : vm.ContractAt a t u) (hm : vm.MethodStage name u r) :
    ∃ args, t.buf.rest = args ++ (methodWithLength name ++ vm.tail a.1) ∧ r.buf = t.buf ∧
      methodStart vm.contractType t.buf.ptr t.buf.offset (t.buf.size - (vm.tail a.1).length)
        (t.buf.size - (vm.tail a.1).length + 1) = t.buf.offset + args.length := by
  obtain ⟨⟨w, hw⟩, hu⟩ := (Vm.contractAt_iff hvm).mp hc
  obtain ⟨cur, hcur, hlen, hpre, hr⟩ := (Vm.methodStage_iff hvm a).mp hm
  have hbuf : u.buf = t.buf := by rw [hu]
  rw [hbuf] at hcur hlen hpre
  have hne : cur ≠ 0 := by
    rintro rfl
    obtain ⟨v, hv⟩ := hpre
    rw [List.drop_zero] at hv
    rw [← hv] at hzero
    have hbyte : (UInt8.ofNat name.length).toNat = name.length := UInt8.toNat_ofNat_of_lt' hname.2
    rw [Option.some.inj hzero] at hbyte
    exact hname.1 (List.length_eq_zero_iff.mp hbyte.symm)
  have hbegin : t.buf.offset < cur := by
    rw [hcur] at hne ⊢
    exact lt_methodStart hne
  have hdrop : t.buf.rest.drop (cur - t.buf.offset) = methodWithLength name ++ vm.tail a.1 := by
    obtain ⟨v, hv⟩ := hpre
    rw [Buffer.rest, List.drop_drop, show t.buf.offset + (cur - t.buf.offset) = cur by omega]
    have hsuffix : vm.tail a.1 <:+ t.buf.ptr.drop cur := by
      have htail : vm.tail a.1 <:+ t.buf.ptr :=
        (List.suffix_append w _).trans (hw ▸ List.drop_suffix t.buf.offset t.buf.ptr)
      refine List.suffix_of_suffix_length_le htail (List.drop_suffix _ _) ?_
      rw [List.length_drop]
      have : t.buf.ptr.length = t.buf.size := rfl
      omega
    obtain ⟨v', hv'⟩ := hsuffix
    have hcount : (t.buf.ptr.drop cur).length = t.buf.size - cur := List.length_drop
    have hleft : UInt8.ofNat name.length :: name = v' := by
      refine List.append_inj_left (hv.trans hv'.symm) ?_
      have h₁ := congrArg List.length hv'
      rw [List.length_append, hcount] at h₁
      simp only [List.length_cons]
      omega
    rw [← hv', ← hleft]
    rfl
  have hsum := t.buf.offset_add_length_rest
  refine ⟨t.buf.rest.take (cur - t.buf.offset), ?_, ?_, ?_⟩
  · rw [← hdrop, List.take_append_drop]
  · rw [hr, hbuf]
  · rw [← hcur, List.length_take_of_le (by omega)]
    omega

/-- What a WASM call consists of. -/
theorem Vm.MethodStage.args_wasmvm {a : Bytes addressScriptHashLen} {name : List UInt8} {u r : ParserState}
    (hc : Vm.wasmvm.ContractAt a t u) (hm : Vm.wasmvm.MethodStage name u r) :
    ∃ args, t.buf.rest = wasmvmPayload [UInt8.ofNat (name.length + args.length)] a.1 name args ∧
      name.length + args.length < 256 := by
  obtain ⟨remaining, -, hlen, hb, -⟩ := hm
  have hsum := u.buf.offset_add_length_rest
  have hcount := congrArg List.length hb.2
  simp only [List.length_append, List.length_cons, List.length_nil] at hcount
  have hremaining : remaining.toNat = name.length + r.buf.rest.length := by omega
  refine ⟨r.buf.rest, ?_, ?_⟩
  · rw [hc.1.2, hb.2, ← hremaining, UInt8.ofNat_toNat]
    simp [wasmvmPayload, methodWithLength]
  · rw [← hremaining]
    exact remaining.toNat_lt

/-- A call that is located and not registered. -/
theorem Located.foreign {h : Header} {p : SizePrefix} {vm : Vm} {a : Bytes addressScriptHashLen}
    {name raw : List UInt8} {r : ParserState} (hl : Located cfg h p vm a name ⟨.ofBytes raw, tx⟩ r)
    (hopens : vm = .native → opcodeStBegin <+: r.buf.rest) (hreg : ¬ Registered a.1 name) :
    ∃ x : Foreign, x.Admitted cfg ∧ x.encode = raw ∧ x.header = h ∧ x.vm = vm ∧ x.contract = a := by
  obtain ⟨rest, -, -, hdecl⟩ := hl.declares
  obtain ⟨t₁, t₂, t₃, h₁, -, h₂, hc, hm⟩ := hl.stages
  have hptr : t₂.buf.ptr = raw := by rw [h₂.1.1, h₁.1.1, Buffer.ptr_ofBytes]
  have hsize : t₂.buf.size = raw.length := by rw [Buffer.size, hptr]
  have hoff : t₂.buf.offset = 42 + p.encode.length := by
    rw [h₂.1.offset, h₁.1.offset, h.length_encode]
    rfl
  have hencode : raw = h.encode vm.txType ++ (p.encode ++ t₂.buf.rest) := by
    rw [← h₂.1.2]
    exact h₁.1.2
  by_cases hvm : vm = .wasmvm
  · subst hvm
    obtain ⟨args, hrest, hlt⟩ := hm.args_wasmvm hc
    let x : Foreign := ⟨h, p, .wasmvm, a, name, args, hl.name_ne_nil, hl.name_lt, hreg,
      fun hnative => absurd hnative (by decide), fun _ => hlt⟩
    have hx : x.encode = raw := by
      rw [hencode, hrest]
      rfl
    exact ⟨x, ⟨hx ▸ hl.size_le, hx ▸ hdecl, fun hne => absurd rfl hne⟩, hx, rfl, rfl, rfl⟩
  · have hzero : t₂.buf.ptr.head? = some 0x00 := by
      rw [hptr, hencode]
      rfl
    obtain ⟨args, hrest, hbuf, hstart⟩ := hm.args_before hvm ⟨hl.name_ne_nil, hl.name_lt⟩ hzero hc
    rw [hptr, hoff, hsize] at hstart
    have hpayload : t₂.buf.rest = vm.payload a.1 name args ++ opcodeEnd :=
      hrest.trans (payload_append_end hvm).symm
    have hopens' : vm = .native → opcodeStBegin <+: vm.payload a.1 name args := by
      intro hnative
      subst hnative
      have hpre := hopens rfl
      rw [hbuf, hpayload] at hpre
      refine List.prefix_of_prefix_length_le hpre (List.prefix_append _ _) ?_
      simp [Vm.payload, opcodeStBegin, a.2, addressScriptHashLen]
      omega
    let x : Foreign := ⟨h, p, vm, a, name, args, hl.name_ne_nil, hl.name_lt, hreg, hopens',
      fun hw => absurd hw hvm⟩
    have hx : x.encode = raw := by
      rw [hencode, hpayload, Foreign.encode, Foreign.code_before (x := x) hvm]
    refine ⟨x, ⟨hx ▸ hl.size_le, hx ▸ hdecl, fun _ => ?_⟩, hx, rfl, rfl, rfl⟩
    rw [hx]
    exact hstart

variable [BufferSdk] {h : Header} {p : SizePrefix} {vm : Vm} {a : Bytes addressScriptHashLen}
  {name raw : List UInt8} {r : ParserState}

/-- After the method a transaction is undefined exactly if it is not registered and, for a native
call, the arguments begin like a list. -/
theorem Located.undefines {s : ParserState} (hl : Located cfg h p vm a name s r) :
    Yields (transactionDeserialize cfg) s
      (Undefines ((vm = .native → opcodeStBegin <+: r.buf.rest) ∧ ¬ Registered a.1 name) r) := by
  intro status t hrun
  rw [hl.run_eq] at hrun
  refine yields_bind.mpr ((transactionDeserializeParams_undefines hl.named hl.type_eq).mono
    fun status u hu => ?_) status t hrun
  cases status with
  | ok =>
    refine checkLength_yields.mono fun status v hne => ⟨iff_of_false hne fun hP => ?_, fun hs => absurd hs hne⟩
    exact absurd (hu.1.mpr hP) (by simp)
  | _ => exact yields_pure.mpr hu

omit [BufferSdk] in
theorem Located.addr_len {s : ParserState} (hl : Located cfg h p vm a name s r) :
    (contractAddr r).len = addressScriptHashLen := by
  obtain ⟨t₁, t₂, t₃, -, -, -, hc, hm⟩ := hl.stages
  rw [contractAddr, hm.contract_eq]
  cases vm with
  | native => rw [hc.2]; rfl
  | neovm => rw [hc.2]; rfl
  | wasmvm => rw [hc.2]; rfl

/-- A transaction is left undefined exactly if it is laid out as a call that is not registered. -/
theorem undefined_iff_foreign (cfg : Config) (raw : List UInt8) (tx : Transaction) :
    (∃ t, (transactionDeserialize cfg).run ⟨.ofBytes raw, tx⟩ = .ok (.txNotDefined, t)) ↔
      ∃ x : Foreign, x.Admitted cfg ∧ x.encode = raw := by
  constructor
  · rintro ⟨t, hrun⟩
    obtain ⟨h, p, vm, a, name, r, hl, -⟩ := transactionDeserialize_located (.inr rfl) hrun
    obtain ⟨hopens, hreg⟩ := (hl.undefines _ t hrun).1.mp rfl
    obtain ⟨x, hx, hencode, -⟩ := hl.foreign hopens hreg
    exact ⟨x, hx, hencode⟩
  · rintro ⟨x, hx, rfl⟩
    obtain ⟨r, hl, hopens⟩ := hx.located tx
    have hreturns : Returns (transactionDeserialize cfg) ⟨.ofBytes x.encode, tx⟩ .ok _ :=
      transactionDeserialize_returns cfg x.encode tx
    obtain ⟨status, t, hrun, -⟩ := hreturns
    obtain rfl := (hl.undefines status t hrun).1.mpr ⟨hopens, x.unregistered⟩
    exact ⟨t, hrun⟩

/-- An undefined transaction is a call that is not registered, and its header and the address of
its contract are what is stored. -/
theorem undefined_contract {tx : Transaction}
    (hrun : (transactionDeserialize cfg).run ⟨.ofBytes raw, tx⟩ = .ok (.txNotDefined, t)) :
    ∃ x : Foreign, x.Admitted cfg ∧ x.encode = raw ∧ t.tx.header = x.header.view x.vm.txType 22 ∧
      readPtr raw t.tx.contract.addr.data t.tx.contract.addr.len = .ok x.contract.1 := by
  obtain ⟨h, p, vm, a, name, r, hl, -⟩ := transactionDeserialize_located (.inr rfl) hrun
  obtain ⟨hundefines, haddr⟩ := hl.undefines _ t hrun
  have haddr : t.tx.contract.addr = r.tx.contract.addr := haddr rfl
  have hheader : t.tx.header = header r := (hl.yields _ t hrun rfl).2
  obtain ⟨x, hx, hencode, rfl, rfl, rfl⟩ := hl.foreign (hundefines.mp rfl).1 (hundefines.mp rfl).2
  have hread := hl.named.contract_eq
  rw [hl.ptr_eq, Buffer.ptr_ofBytes] at hread
  refine ⟨x, hx, hencode, hheader.trans hl.header_eq, ?_⟩
  have hlen : r.tx.contract.addr.len = addressScriptHashLen := hl.addr_len
  rw [haddr, hlen]
  exact hread

end

end AppOnt
