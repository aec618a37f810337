import AppOnt.Library.SelfDelimiting
import AppOnt.Transaction.Verdict

/-!
# The format is unambiguous

No two transactions have the same bytes. The parts of the arguments are
self-delimiting, each in its own way: by their type, by a count that comes first,
or by a byte that does not begin another one. The virtual machine, the contract and
the method are found from the end of the bytes, as the parser does.
-/
namespace AppOnt

open Token

theorem Bytes.selfDelimiting (n : Nat) : SelfDelimiting fun a : Bytes n => a.1 :=
  .of_length Subtype.val_injective fun a b => a.2.trans b.2.symm

theorem Token.encode_flatMap {α : Type} (l : List α) (g : α → List Token) :
    encode (l.flatMap g) = l.flatMap fun a => encode (g a) := by
  simp [encode, List.flatMap_assoc]

/-- The first byte of an amount. -/
def AmountCode.head : AmountCode → Nat
  | zero => 0
  | push n => 81 + n
  | bytes bs _ _ => bs.length

theorem AmountCode.headD_encode (a : AmountCode) : (a.encode.headD 0).toNat = a.head := by
  cases a with
  | zero => rfl
  | push n => exact UInt8.toNat_ofNat_of_lt (by simp [opcodePushNumber, UInt8.size]; omega)
  | bytes bs hne hle => exact UInt8.toNat_ofNat_of_lt (Nat.lt_of_le_of_lt hle (by decide))

/-- The first byte of an amount tells its form, and the value or the length. -/
theorem AmountCode.encode_injective : Function.Injective AmountCode.encode := by
  intro a b h
  have hhead : a.head = b.head := by rw [← headD_encode, h, headD_encode]
  cases a with
  | zero =>
    cases b with
    | zero => rfl
    | push n => grind [head]
    | bytes bs hne hle => exact absurd (List.length_eq_zero_iff.mp hhead.symm) hne
  | push n =>
    cases b with
    | zero => grind [head]
    | push m => exact congrArg push (Fin.ext (Nat.add_left_cancel hhead))
    | bytes bs hne hle => grind [head]
  | bytes bs hne hle =>
    cases b with
    | zero => exact absurd (List.length_eq_zero_iff.mp hhead) hne
    | push n => grind [head]
    | bytes cs hne' hle' =>
      obtain rfl : bs = cs := (List.cons.inj h).2
      rfl

theorem AmountCode.encode_selfDelimiting : SelfDelimiting AmountCode.encode :=
  .of_head encode_injective (fun x => (amountLen x.toNat).getD 1 - 1) fun a => by
    obtain ⟨x, bs, h, hlen⟩ := a.encode_eq
    exact ⟨x, bs, h, by simp [hlen]⟩

theorem Count.eq_of_code {n : Nat} {c d : Count n} (h : c.code = d.code) : c = d := by
  obtain ⟨code, hcode⟩ := c
  cases h
  rfl

/-- A count comes before what it counts. -/
theorem Count.length_eq {m n : Nat} {c : Count m} {d : Count n} (h : c.code = d.code) : m = n := by
  have hc := c.value_eq
  rw [h, d.value_eq] at hc
  exact (Option.some.inj hc).symm

theorem TransferState.tokens_selfDelimiting : SelfDelimiting fun st : TransferState => encode st.tokens := by
  intro a b r s h
  obtain ⟨source, target, amount⟩ := a
  obtain ⟨source', target', amount'⟩ := b
  simp only [TransferState.tokens, addressToken, paramEnd, AmountCode.token, encode_cons, encode_nil, bytes,
    if_true, List.append_assoc, List.append_cancel_left_eq, List.nil_append] at h
  obtain ⟨rfl, h₁⟩ := Bytes.selfDelimiting _ h
  obtain ⟨rfl, h₂⟩ := Bytes.selfDelimiting _ (List.append_cancel_left (List.append_cancel_left h₁))
  obtain ⟨rfl, h₃⟩ := AmountCode.encode_selfDelimiting (List.append_cancel_left h₂)
  exact ⟨rfl, by simpa using h₃⟩

namespace PkAmountPairs

theorem keyTokens_inj {l m : List (Bytes (2 * compressedKeyLen))} {r s : List UInt8} (hlen : l.length = m.length)
    (h : encode (keyTokens l) ++ r = encode (keyTokens m) ++ s) : l = m ∧ r = s := by
  have hkey : SelfDelimiting fun k : Bytes (2 * compressedKeyLen) => encode [pubkeyToken k, paramEnd] := by
    intro a b r s h
    simp only [pubkeyToken, paramEnd, encode_cons, encode_nil, bytes, List.append_assoc,
      List.append_cancel_left_eq, List.nil_append] at h
    obtain ⟨rfl, h₁⟩ := Bytes.selfDelimiting _ h
    exact ⟨rfl, List.append_cancel_left h₁⟩
  rw [keyTokens, keyTokens, encode_flatMap, encode_flatMap] at h
  exact hkey.flatMap hlen h

theorem amountTokens_inj {l m : List AmountCode} {r s : List UInt8} (hlen : l.length = m.length)
    (h : encode (amountTokens l) ++ r = encode (amountTokens m) ++ s) : l = m ∧ r = s := by
  induction l generalizing m with
  | nil =>
    obtain rfl := List.length_eq_zero_iff.mp hlen.symm
    exact ⟨rfl, h⟩
  | cons a l ih =>
    cases m with
    | nil => cases hlen
    | cons b m =>
      have hlast : l = [] ↔ m = [] := by
        rw [← List.length_eq_zero_iff, ← List.length_eq_zero_iff, Nat.succ.inj hlen]
      simp only [amountTokens_cons, hlast, AmountCode.token, encode_append, encode_cons, encode_nil, bytes,
        List.append_assoc, List.nil_append] at h
      obtain ⟨rfl, h₁⟩ := AmountCode.encode_selfDelimiting h
      obtain ⟨rfl, h₂⟩ := ih (Nat.succ.inj hlen) (List.append_cancel_left h₁)
      exact ⟨rfl, h₂⟩

theorem tokens_selfDelimiting : SelfDelimiting fun p : PkAmountPairs => encode p.tokens := by
  intro a b r s h
  obtain ⟨pairs, hne, keys, amounts⟩ := a
  obtain ⟨pairs', hne', keys', amounts'⟩ := b
  simp only [PkAmountPairs.tokens, paramEnd, AmountCode.token, encode_cons, encode_append, bytes,
    List.append_assoc, List.nil_append, List.cons_append] at h
  obtain ⟨hkeys, h₁⟩ := AmountCode.encode_selfDelimiting h
  have hlen : pairs.length = pairs'.length := Count.length_eq hkeys
  obtain ⟨hfst, h₂⟩ := keyTokens_inj (by simpa using hlen) (List.append_cancel_left h₁)
  obtain ⟨hamounts, h₃⟩ := AmountCode.encode_selfDelimiting h₂
  obtain ⟨hsnd, h₄⟩ := amountTokens_inj (by simpa using hlen) (List.append_cancel_left h₃)
  obtain rfl : pairs = pairs' := (List.zip_of_prod hfst hsnd).trans (List.zip_of_prod rfl rfl).symm
  obtain rfl := Count.eq_of_code hkeys
  obtain rfl := Count.eq_of_code hamounts
  exact ⟨rfl, h₄⟩

end PkAmountPairs

/-- The type of an argument says how it is read. -/
theorem Arg.tokens_selfDelimiting (vm : Vm) (type : TxParameterType) :
    SelfDelimiting fun a : Arg type => encode (a.tokens vm) := by
  intro a b r s h
  cases a with
  | addr a =>
    cases b with
    | addr b =>
      simp only [Arg.tokens, addressToken, encode_cons, encode_nil, bytes, List.append_assoc,
        List.append_cancel_left_eq, List.nil_append] at h
      obtain ⟨rfl, h₁⟩ := Bytes.selfDelimiting _ h
      exact ⟨rfl, h₁⟩
  | pubkey a =>
    cases b with
    | pubkey b =>
      simp only [Arg.tokens, pubkeyToken, encode_cons, encode_nil, bytes, List.append_assoc,
        List.append_cancel_left_eq, List.nil_append] at h
      obtain ⟨rfl, h₁⟩ := Bytes.selfDelimiting _ h
      exact ⟨rfl, h₁⟩
  | amount a =>
    cases b with
    | amount b =>
      simp only [Arg.tokens, AmountCode.token, encode_cons, encode_nil, bytes, List.append_nil,
        List.nil_append] at h
      obtain ⟨rfl, h₁⟩ := AmountCode.encode_selfDelimiting h
      exact ⟨rfl, h₁⟩
  | uint128 a =>
    cases b with
    | uint128 b =>
      simp only [Arg.tokens, encode_cons, encode_nil, bytes, List.append_nil, List.nil_append] at h
      obtain ⟨rfl, h₁⟩ := Bytes.selfDelimiting _ h
      exact ⟨rfl, h₁⟩
  | ontid id hne hlt =>
    cases b with
    | ontid id' hne' hlt' =>
      simp only [Arg.tokens, encode_cons, encode_nil, bytes, List.append_nil, List.cons_append] at h
      obtain ⟨hbyte, h₁⟩ := List.cons.inj h
      have hlen := congrArg UInt8.toNat hbyte
      simp only [UInt8.toNat_ofNat', Nat.reducePow, Nat.mod_eq_of_lt hlt, Nat.mod_eq_of_lt hlt'] at hlen
      obtain ⟨rfl, h₂⟩ := List.append_inj h₁ hlen
      exact ⟨rfl, h₂⟩
  | pkAmountPairs p =>
    cases b with
    | pkAmountPairs q =>
      obtain ⟨rfl, h₁⟩ := PkAmountPairs.tokens_selfDelimiting h
      exact ⟨rfl, h₁⟩
  | transferState st =>
    cases b with
    | transferState st' =>
      obtain ⟨rfl, h₁⟩ := TransferState.tokens_selfDelimiting h
      exact ⟨rfl, h₁⟩

theorem Args.tokens_selfDelimiting (vm : Vm) (types : List TxParameterType) :
    SelfDelimiting fun as : Args types => encode (as.tokens vm) := by
  intro as bs r s h
  induction as generalizing r s with
  | nil =>
    cases bs
    exact ⟨rfl, h⟩
  | cons a as ih =>
    cases bs with
    | cons b bs =>
      simp only [Args.tokens, encode_append, List.append_assoc] at h
      obtain ⟨rfl, h₁⟩ := Arg.tokens_selfDelimiting vm _ h
      obtain ⟨rfl, h₂⟩ := ih (List.append_cancel_left h₁)
      exact ⟨rfl, h₂⟩

/-- A list of transfers ends at its length, which does not begin like a transfer. -/
theorem Arguments.tokens_selfDelimiting (vm : Vm) (types : List TxParameterType) :
    SelfDelimiting fun as : Arguments vm types => encode as.tokens := by
  intro as bs r s h
  cases as with
  | transfers states count marked =>
    cases bs with
    | transfers states' count' marked' =>
      simp only [Arguments.tokens, Count.token, encode_append, encode_flatMap, encode_cons, bytes,
        List.append_assoc] at h
      have hbegins (st : TransferState) : ∃ x bs, encode st.tokens = x :: bs ∧ x = 0x00 := by
        obtain ⟨bs, hbs⟩ := st.encode_eq
        exact ⟨_, _, hbs, rfl⟩
      have hends {n : Nat} (c : Count n) (hc : c.code ≠ .zero) (v : List UInt8) :
          ∀ x ∈ (c.code.encode ++ v).head?, ¬ x = 0x00 := by
        obtain ⟨x, u, hu, hx⟩ := c.code.encode_head
        rw [hu]
        rintro y ⟨⟩
        exact fun hy => hc (hx.mp hy)
      obtain ⟨rfl, h₁⟩ := TransferState.tokens_selfDelimiting.flatMap_until hbegins (hends count marked _)
        (hends count' marked' _) h
      obtain ⟨hcount, h₂⟩ := AmountCode.encode_selfDelimiting h₁
      obtain rfl := Count.eq_of_code hcount
      exact ⟨rfl, by simpa using h₂⟩
    | native args =>
      cases args with
      | cons a _ => cases a
  | native args =>
    cases bs with
    | transfers states' count' marked' =>
      cases args with
      | cons a _ => cases a
    | native args' =>
      simp only [Arguments.tokens, encode_cons, encode_append, bytes, List.append_assoc, List.cons_append,
        List.append_cancel_left_eq] at h
      obtain ⟨rfl, h₁⟩ := Args.tokens_selfDelimiting _ _ h
      exact ⟨rfl, List.append_cancel_left h₁⟩
  | neovm args count =>
    cases bs with
    | neovm args' count' =>
      simp only [Arguments.tokens, Count.token, encode_cons, encode_append, bytes, List.append_assoc] at h
      obtain ⟨rfl, h₁⟩ := Args.tokens_selfDelimiting _ _ h
      obtain ⟨hcount, h₂⟩ := AmountCode.encode_selfDelimiting h₁
      obtain rfl := Count.eq_of_code hcount
      exact ⟨rfl, List.append_cancel_left h₂⟩
  | wasmvm args =>
    cases bs with
    | wasmvm args' =>
      obtain ⟨rfl, h₁⟩ := Args.tokens_selfDelimiting _ _ h
      exact ⟨rfl, h₁⟩

theorem Header.encode_inj {h h' : Header} {ty ty' : UInt8} {r s : List UInt8}
    (heq : h.encode ty ++ r = h'.encode ty' ++ s) : h = h' ∧ ty = ty' ∧ r = s := by
  obtain ⟨nonce, gasPrice, gasLimit, payer⟩ := h
  obtain ⟨nonce', gasPrice', gasLimit', payer'⟩ := h'
  simp only [Header.encode, List.append_assoc, List.cons_append, List.nil_append, List.cons.injEq, true_and] at heq
  obtain ⟨rfl, h₁⟩ := heq
  obtain ⟨rfl, h₂⟩ := Bytes.selfDelimiting _ h₁
  obtain ⟨rfl, h₃⟩ := Bytes.selfDelimiting _ h₂
  obtain ⟨rfl, h₄⟩ := Bytes.selfDelimiting _ h₃
  obtain ⟨rfl, h₅⟩ := Bytes.selfDelimiting _ h₄
  exact ⟨rfl, rfl, h₅⟩

theorem SizePrefix.encode_inj {p q : SizePrefix} {r s : List UInt8} (h : p.encode ++ r = q.encode ++ s) :
    p = q ∧ r = s := by
  obtain rfl := SizePrefix.eq_of_prefix (List.prefix_append p.encode r) ⟨s, h.symm⟩
  exact ⟨rfl, List.append_cancel_left h⟩

/-- Once the method is known, the bytes before or behind it are the arguments. -/
theorem Call.arguments_inj {vm : Vm} {payload : Payload} {registered : payload ∈ getTxPayload}
    {method : TxMethodSignature} {method_mem : method ∈ payload.methods} {args args' : Arguments vm method.parameters}
    {hrem hrem'} (h : encode (Call.tokens ⟨vm, payload, registered, method, method_mem, args, hrem⟩) =
      encode (Call.tokens ⟨vm, payload, registered, method, method_mem, args', hrem'⟩)) : args = args' := by
  cases vm with
  | native | neovm =>
    simp only [Call.tokens, Call.before, Call.after, Call.nameToken, encode_append] at h
    exact (Arguments.tokens_selfDelimiting _ _).injective (List.append_cancel_right h)
  | wasmvm =>
    simp only [Call.tokens, Call.before, Call.after, Call.nameToken, encode_cons, bytes,
      List.append_cancel_left_eq, List.nil_append, List.cons_append, List.cons.injEq, true_and] at h
    exact (Arguments.tokens_selfDelimiting _ _).injective h.2

section
variable {cfg : Config}

/-- Transactions with the same bytes, in which the same machine, contract and method are found. -/
theorem Signable.eq_of_view {x y : Signable} (h : x.encode = y.encode) (hview : x.view .zero = y.view .zero) :
    x = y := by
  have hname := x.read_name .zero
  have hcontract := x.read_contract .zero
  rw [h, hview, y.read_name] at hname
  rw [h, hview, y.read_contract] at hcontract
  have hvm : x.call.vm = y.call.vm := Vm.contractType_inj (congrArg (fun tx => tx.contract.type) hview)
  rw [x.encode_eq, y.encode_eq] at h
  obtain ⟨hheader, -, h₁⟩ := Header.encode_inj h
  obtain ⟨hsize, h₂⟩ := SizePrefix.encode_inj h₁
  have hcall := List.append_cancel_right h₂
  obtain ⟨header, sizePrefix, vm, payload, registered, method, method_mem, args, hrem⟩ := x
  obtain ⟨header', sizePrefix', vm', payload', registered', method', method_mem', args', hrem'⟩ := y
  obtain rfl : header = header' := hheader
  obtain rfl : sizePrefix = sizePrefix' := hsize
  obtain rfl : vm = vm' := hvm
  obtain rfl : payload = payload' :=
    List.inj_on_of_nodup_map nodup_contractAddr registered registered' (Except.ok.inj hcontract).symm
  obtain rfl : method = method' :=
    List.inj_on_of_nodup_map (nodup_methodName payload registered) method_mem method_mem' (Except.ok.inj hname).symm
  obtain rfl := Call.arguments_inj hcall
  rfl

/-- The virtual machine, the contract and the method are those that the parser finds. -/
theorem Signable.encode_injective {x y : Signable} (hx : x.Admitted cfg) (hy : y.Admitted cfg)
    (h : x.encode = y.encode) : x = y := by
  let := BufferSdk.reference
  refine Signable.eq_of_view h ?_
  have hrun := congrArg (fun raw => (transactionDeserialize cfg).run ⟨.ofBytes raw, .zero⟩) h
  rw [hx.run, hy.run] at hrun
  exact congrArg ParserState.tx (Prod.mk.inj (Except.ok.inj hrun)).2

/-- What is located in bytes is determined by them. -/
theorem Located.unique {h h' : Header} {p p' : SizePrefix} {vm vm' : Vm} {a a' : Bytes addressScriptHashLen}
    {name name' : List UInt8} {s r r' : ParserState} (hl : Located cfg h p vm a name s r)
    (hl' : Located cfg h' p' vm' a' name' s r') : vm = vm' ∧ a = a' ∧ name = name' := by
  let := BufferSdk.reference
  have hrun := (throughMethod_returns.iff r).mpr ⟨h, p, vm, a, name, hl⟩
  have hrun' := (throughMethod_returns.iff r').mpr ⟨h', p', vm', a', name', hl'⟩
  obtain rfl : r = r' := by
    rw [hrun] at hrun'
    cases hrun'
    rfl
  have hcontract := hl.named.contract_eq.symm.trans hl'.named.contract_eq
  have hname := hl.named.name_eq.symm.trans hl'.named.name_eq
  exact ⟨Vm.contractType_inj (hl.type_eq.symm.trans hl'.type_eq), Subtype.ext (Except.ok.inj hcontract),
    Except.ok.inj hname⟩

theorem Foreign.encode_injective {x y : Foreign} (hx : x.Admitted cfg) (hy : y.Admitted cfg)
    (h : x.encode = y.encode) : x = y := by
  obtain ⟨r, hl, -⟩ := hx.located .zero
  obtain ⟨r', hl', -⟩ := hy.located .zero
  rw [h] at hl
  obtain ⟨hvm, hcontract, hname⟩ := hl.unique hl'
  obtain ⟨hheader, -, h₁⟩ := Header.encode_inj h
  obtain ⟨hsize, hcode⟩ := SizePrefix.encode_inj h₁
  obtain ⟨header, sizePrefix, vm, contract, name, args, hne, hlt, hreg, hopens, hrem⟩ := x
  obtain ⟨header', sizePrefix', vm', contract', name', args', hne', hlt', hreg', hopens', hrem'⟩ := y
  obtain rfl : header = header' := hheader
  obtain rfl : sizePrefix = sizePrefix' := hsize
  obtain rfl : vm = vm' := hvm
  obtain rfl : contract = contract' := hcontract
  obtain rfl : name = name' := hname
  obtain rfl : args = args' := by
    cases vm with
    | native | neovm => exact List.append_cancel_right (List.append_cancel_right hcode)
    | wasmvm =>
      simp only [Foreign.code, wasmvmPayload, methodWithLength, List.append_cancel_left_eq, List.cons_append,
        List.nil_append, List.cons.injEq, true_and] at hcode
      exact hcode.2
  rfl

end

/-- A call that the device may sign: one of the table, or one that is laid out like it. -/
inductive AnyCall where
  | registered (x : Signable)
  | foreign (x : Foreign)

def AnyCall.encode : AnyCall → List UInt8
  | registered x => x.encode
  | foreign x => x.encode

def AnyCall.Admitted (cfg : Config) : AnyCall → Prop
  | registered x => x.Admitted cfg
  | foreign x => x.Admitted cfg

/-- No two calls have the same bytes. -/
theorem encode_unambiguous (cfg : Config) {x y : AnyCall} (hx : x.Admitted cfg) (hy : y.Admitted cfg)
    (h : x.encode = y.encode) : x = y := by
  cases x with
  | registered x =>
    cases y with
    | registered y => exact congrArg AnyCall.registered (Signable.encode_injective hx hy h)
    | foreign y => exact absurd ⟨y, hy, h.symm⟩ (Accepted.not_unregistered ⟨x, hx, rfl⟩)
  | foreign x =>
    cases y with
    | registered y => exact absurd ⟨x, hx, h⟩ (Accepted.not_unregistered ⟨y, hy, rfl⟩)
    | foreign y => exact congrArg AnyCall.foreign (Foreign.encode_injective hx hy h)

theorem encode_unambiguous_sample :
    ∃! x : AnyCall, x.Admitted ⟨.nano, .w32⟩ ∧ x.encode = sampleTransfer.encode := by
  refine ⟨.registered sampleTransfer, ⟨sampleTransfer_admitted, rfl⟩, fun y hy => ?_⟩
  exact encode_unambiguous ⟨.nano, .w32⟩ hy.1 sampleTransfer_admitted hy.2

end AppOnt
