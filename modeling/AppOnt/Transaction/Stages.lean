import AppOnt.Transaction.Deserialize
import AppOnt.Transaction.Signature

/-!
# What the stages accept

Each stage of the deserializer returns `PARSING_OK` exactly on its part of the
format. The stages before the arguments only need a buffer of bounded size and
leave behind what the next ones rely on.
-/
namespace AppOnt

open Prog Token

/-- The stored header, its payer being at `payer`. -/
def Header.view (h : Header) (txType : UInt8) (payer : Nat) : TxHeader :=
  ⟨0, txType, some payer, leNat h.nonce.1, leNat h.gasPrice.1, leNat h.gasLimit.1⟩

section
variable [BufferSdk] {cfg : Config} {s : ParserState}

omit [BufferSdk] in
theorem readHeader_returns {α : Type} {read : BufferM (Option α)} {store : TxHeader → α → TxHeader}
    {check : α → Bool} {P : List UInt8 → α → Prop}
    (h : ∀ b, Delivers read b fun v b' => ∃ bs, P bs v ∧ b.Consumes bs b') (s : ParserState) :
    Returns (readHeader read store check) s true fun t => ∃ bs v, P bs v ∧ check v = true ∧
      Moves bs (fun tx => tx.setHeader (store tx.header v)) s t := by
  refine Returns.congr (Delivers.bind (onBuf_delivers (h s.buf)) (fun v t ht => returns_modify_bind.mpr
    (returns_pure _ _)) fun t => returns_pure_ne (by simp)) fun u => ?_
  constructor
  · rintro ⟨bs, v, hP, hc, hb, hu⟩
    refine ⟨v, ⟨u.buf, s.tx⟩, ⟨bs, hP, hb, rfl⟩, hc, ParserState.ext rfl hu⟩
  · rintro ⟨v, t, ⟨bs, hP, hb, ht⟩, hc, hu⟩
    subst hu
    exact ⟨bs, v, hP, hc, hb, by rw [← show t.tx = s.tx from ht]⟩

theorem transactionDeserializeHeader_returns :
    Returns (transactionDeserializeHeader cfg) s .ok fun t =>
      s.buf.size ≤ cfg.maxTransactionLen ∧ ∃ (h : Header) (txType : UInt8),
        Moves (h.encode txType) (fun tx => tx.setHeader (h.view txType (s.buf.offset + 22))) s t := by
  unfold transactionDeserializeHeader
  refine returns_get_bind.mpr ?_
  by_cases hsize : s.buf.size > cfg.maxTransactionLen
  · rw [if_pos hsize]
    exact (returns_pure_ne (by simp)).congr fun t => iff_of_false (by omega) id
  · rw [if_neg hsize]
    have h8 (b : Buffer) : Delivers bufferReadU8 b fun v b' =>
        ∃ bs, bs = [v] ∧ b.Consumes bs b' := (bufferReadU8_delivers b).congr (by simp)
    have h32 (b : Buffer) : Delivers bufferReadU32Le b fun v b' =>
        ∃ bs : List UInt8, (leNat bs = v ∧ bs.length = 4) ∧ b.Consumes bs b' :=
      (bufferReadU32Le_delivers b).congr (by simp [and_assoc])
    have h64 (b : Buffer) : Delivers bufferReadU64Le b fun v b' =>
        ∃ bs : List UInt8, (leNat bs = v ∧ bs.length = 8) ∧ b.Consumes bs b' :=
      (bufferReadU64Le_delivers b).congr (by simp [and_assoc])
    have hpayer (t : ParserState) : Returns (do
        let payer := (← get).buf.offset
        modifyTx fun tx => tx.setHeader { tx.header with payer := some payer }
        onBuf (bufferSeekCur addressScriptHashLen)) t true fun u =>
        ∃ bs : Bytes addressScriptHashLen,
          Moves bs.1 (fun tx => tx.setHeader { tx.header with payer := some t.buf.offset }) t u := by
      refine returns_get_bind.mpr (returns_modify_bind.mpr ?_)
      refine Returns.congr (onBuf_returns (e := fun a : Bytes addressScriptHashLen => a.1)
        ((bufferSeekCur_returns t.buf addressScriptHashLen).congr (by simp))) fun u => ?_
      simp [Moves]
    refine Returns.congr (((readHeader_returns h8 s).and fun t₁ _ =>
      (readHeader_returns h8 t₁).and fun t₂ _ => (readHeader_returns h32 t₂).and fun t₃ _ =>
      (readHeader_returns h64 t₃).and fun t₄ _ =>
      (returns_get_bind.mpr (readHeader_returns h64 t₄)).and fun t₅ _ => hpayer t₅).select
      (by simp)) fun u => ?_
    constructor
    · rintro ⟨_, h, ty, hb, hu⟩
      simp only [Header.encode, List.append_assoc] at hb
      obtain ⟨b₁, hb₁, hb⟩ := (Buffer.consumes_append (u := [0x00])).mp hb
      obtain ⟨b₂, hb₂, hb⟩ := (Buffer.consumes_append (u := [ty])).mp hb
      obtain ⟨b₃, hb₃, hb⟩ := Buffer.consumes_append.mp hb
      obtain ⟨b₄, hb₄, hb⟩ := Buffer.consumes_append.mp hb
      obtain ⟨b₅, hb₅, hb₆⟩ := Buffer.consumes_append.mp hb
      have hmax : leNat h.gasLimit.1 ≤ tokenAmount / leNat h.gasPrice.1 := by
        rw [Nat.le_div_iff_mul_le (by have := h.gasPrice_min; simp [gasPriceMin] at this; omega),
          Nat.mul_comm]
        exact h.fee_max
      have hoff : b₅.offset = s.buf.offset + 22 := by
        have := (hb₁.trans (hb₂.trans (hb₃.trans (hb₄.trans hb₅)))).offset
        simpa [h.nonce.2, h.gasPrice.2, h.gasLimit.2] using this
      refine ⟨⟨b₁, _⟩, ⟨_, _, rfl, rfl, hb₁, rfl⟩, ⟨b₂, _⟩, ⟨_, ty, rfl, rfl, hb₂, rfl⟩,
        ⟨b₃, _⟩, ⟨_, _, ⟨rfl, h.nonce.2⟩, rfl, hb₃, rfl⟩,
        ⟨b₄, _⟩, ⟨_, _, ⟨rfl, h.gasPrice.2⟩, decide_eq_true h.gasPrice_min, hb₄, rfl⟩,
        ⟨b₅, _⟩, ⟨_, _, ⟨rfl, h.gasLimit.2⟩, decide_eq_true ⟨h.gasLimit_min, hmax⟩, hb₅, rfl⟩,
        h.payer, hb₆, ?_⟩
      rw [hu, hoff]
      rfl
    · rintro ⟨t₁, ⟨_, v, rfl, hv, h₁⟩, t₂, ⟨_, ty, rfl, _, h₂⟩, t₃, ⟨n, _, ⟨rfl, hn⟩, _, h₃⟩,
        t₄, ⟨p, _, ⟨rfl, hp⟩, hpmin, h₄⟩, t₅, ⟨l, _, ⟨rfl, hl⟩, hlmin, h₅⟩, payer, h₆⟩
      obtain rfl : v = 0x00 := by simpa using hv
      have hprice : t₄.tx.header.gasPrice = leNat p := by rw [h₄.2]; rfl
      rw [hprice] at hlmin
      obtain ⟨hlmin, hlmax⟩ := of_decide_eq_true hlmin
      have hpmin := of_decide_eq_true hpmin
      have hfee : leNat p * leNat l ≤ tokenAmount := by
        rw [Nat.le_div_iff_mul_le (by simp [gasPriceMin] at hpmin; omega)] at hlmax
        rwa [Nat.mul_comm]
      have hoff : t₅.buf.offset = s.buf.offset + 22 := by
        have := (h₁.1.trans (h₂.1.trans (h₃.1.trans (h₄.1.trans h₅.1)))).offset
        simpa [hn, hp, hl] using this
      refine ⟨by omega, ⟨⟨n, hn⟩, ⟨p, hp⟩, ⟨l, hl⟩, payer, hpmin, hlmin, hfee⟩, ty, ?_, ?_⟩
      · have := h₁.1.trans (h₂.1.trans (h₃.1.trans (h₄.1.trans (h₅.1.trans h₆.1))))
        simpa [Header.encode] using this
      · rw [h₆.2, h₅.2, h₄.2, h₃.2, h₂.2, h₁.2, hoff]
        rfl

omit [BufferSdk] in
/-- The three wide forms of the prefix. -/
theorem SizePrefix.delivers {read : BufferM (Option Nat)} {w : Nat} {b : UInt8} {c : Buffer}
    (form : Bytes w → SizePrefix) (hform : ∀ n, (form n).encode = b :: n.1)
    (hval : ∀ n, (form n).value = leNat n.1) (honly : ∀ p bs, SizePrefix.encode p = b :: bs → ∃ n, p = form n)
    (hread : Delivers read c fun v c' => ∃ bs, leNat bs = v ∧ bs.length = w ∧ c.Consumes bs c') :
    Delivers read c fun v c' => ∃ bs,
      (∃ p : SizePrefix, p.encode = b :: bs ∧ p.value = v) ∧ c.Consumes bs c' := by
  refine hread.congr fun v c' => ?_
  constructor
  · rintro ⟨bs, ⟨p, he, hv⟩, hc⟩
    obtain ⟨n, rfl⟩ := honly p bs he
    obtain rfl : n.1 = bs := by simpa [hform] using he
    exact ⟨n.1, by rw [← hv, hval], n.2, hc⟩
  · rintro ⟨bs, hv, hl, hc⟩
    exact ⟨bs, ⟨form ⟨bs, hl⟩, hform _, by rw [hval, hv]⟩, hc⟩

theorem readPayloadSize_delivers {b : UInt8} (hb : b ≠ 0) (c : Buffer) :
    Delivers (readPayloadSize b) c fun v c' => ∃ bs,
      (∃ p : SizePrefix, p.encode = b :: bs ∧ p.value = v) ∧ c.Consumes bs c' := by
  have hbyte {n b : UInt8} (h : n < 0xfd) (hn : n = b) : b < 0xfd := hn ▸ h
  unfold readPayloadSize
  split
  · refine SizePrefix.delivers .uint16 (fun _ => rfl) (fun _ => rfl) (fun p bs h => ?_)
      (bufferReadU16Le_delivers c)
    cases p with
    | uint16 n => exact ⟨n, rfl⟩
    | byte n _ hlt => exact absurd (hbyte hlt (List.cons.inj h).1) (by decide)
    | _ => simp [SizePrefix.encode] at h
  · refine SizePrefix.delivers .uint32 (fun _ => rfl) (fun _ => rfl) (fun p bs h => ?_)
      (bufferReadU32Le_delivers c)
    cases p with
    | uint32 n => exact ⟨n, rfl⟩
    | byte n _ hlt => exact absurd (hbyte hlt (List.cons.inj h).1) (by decide)
    | _ => simp [SizePrefix.encode] at h
  · refine SizePrefix.delivers .uint64 (fun _ => rfl) (fun _ => rfl) (fun p bs h => ?_)
      (bufferReadU64Le_delivers c)
    cases p with
    | uint64 n => exact ⟨n, rfl⟩
    | byte n _ hlt => exact absurd (hbyte hlt (List.cons.inj h).1) (by decide)
    | _ => simp [SizePrefix.encode] at h
  · rename_i h16 h32 h64
    refine (delivers_some b.toNat).congr fun v c' => ?_
    constructor
    · rintro ⟨bs, ⟨p, he, hv⟩, hc⟩
      cases p with
      | byte n _ hlt =>
        obtain ⟨rfl, rfl⟩ : n = b ∧ [] = bs := by simpa [SizePrefix.encode] using he
        exact ⟨hv.symm, Buffer.consumes_nil.mp hc⟩
      | uint16 n => exact absurd (List.cons.inj he).1.symm h16
      | uint32 n => exact absurd (List.cons.inj he).1.symm h32
      | uint64 n => exact absurd (List.cons.inj he).1.symm h64
    · rintro ⟨hv, hc⟩
      have hlt : b < 0xfd := by
        have := b.toNat_lt
        have h16 : b.toNat ≠ 253 := fun h => h16 (UInt8.toNat_inj.mp h)
        have h32 : b.toNat ≠ 254 := fun h => h32 (UInt8.toNat_inj.mp h)
        have h64 : b.toNat ≠ 255 := fun h => h64 (UInt8.toNat_inj.mp h)
        exact UInt8.lt_iff_toNat_lt.mpr (show b.toNat < 253 by omega)
      exact ⟨[], ⟨.byte b hb hlt, rfl, hv.symm⟩, Buffer.consumes_nil.mpr hc⟩

/-- What the size stage checks of the size that the prefix gives. -/
def SizePrefix.Declares (cfg : Config) (p : SizePrefix) (off size : Nat) : Prop :=
  (off + p.encode.length + p.value + 1) % cfg.sizeMod = size

theorem transactionDeserializePayloadSize_returns :
    Returns (transactionDeserializePayloadSize cfg) s .ok fun t => ∃ p : SizePrefix,
      p.Declares cfg s.buf.offset s.buf.size ∧ Moves p.encode id s t := by
  have h8 : Delivers bufferReadU8 s.buf fun v b' => ∃ bs, bs = [v] ∧ s.buf.Consumes bs b' :=
    (bufferReadU8_delivers s.buf).congr (by simp)
  have hpos (p : SizePrefix) {b : UInt8} {bs : List UInt8} (h : p.encode = b :: bs) : b ≠ 0 := by
    cases p with
    | byte n hn _ => exact (List.cons.inj h).1 ▸ hn
    | _ => exact (List.cons.inj h).1 ▸ by decide
  refine Returns.congr (Delivers.bind (onBuf_delivers h8) (S := fun b t u => ∃ p : SizePrefix,
    ∃ bs, p.encode = b :: bs ∧ p.Declares cfg s.buf.offset s.buf.size ∧ Moves bs id t u)
    (fun b t ⟨_, hbs, hb⟩ => ?_) fun t => returns_pure_ne (by simp)) fun u => ?_
  · subst hbs
    dsimp only
    by_cases hzero : b = 0
    · rw [if_pos hzero]
      exact (returns_pure_ne (by simp)).congr fun u =>
        iff_of_false (fun ⟨p, bs, he, _⟩ => hpos p he hzero) id
    · rw [if_neg hzero]
      refine Returns.congr (Delivers.bind (onBuf_delivers (readPayloadSize_delivers hzero t.buf))
        (S := fun v r u => (r.buf.offset + v + 1) % cfg.sizeMod = r.buf.size ∧ u = r)
        (fun v r hr => returns_get_bind.mpr ?_) fun t => returns_pure_ne (by simp)) fun u => ?_
      · simp only [cfg.addSize_addSize, opcodeEnd, List.length_singleton, ne_eq, ite_not]
        split
        · rename_i h
          exact (returns_pure ParserStatus.ok .ok).congr fun u => by simp [h]
        · rename_i h
          exact (returns_pure_ne (by simp)).congr fun u => by simp [h]
      · constructor
        · rintro ⟨p, bs, he, hdecl, hM⟩
          refine ⟨p.value, u, ⟨bs, ⟨p, he, rfl⟩, hM⟩, ?_, rfl⟩
          rw [hM.1.offset, hM.1.size, hb.1.offset, hb.1.size, ← hdecl, he]
          exact congrArg (· % cfg.sizeMod) (by simp only [List.length_cons, List.length_nil]; omega)
        · rintro ⟨v, r, ⟨bs, ⟨p, he, hv⟩, hM⟩, hsize, hu⟩
          subst hu hv
          refine ⟨p, bs, he, ?_, hM⟩
          rw [hM.1.offset, hM.1.size, hb.1.offset, hb.1.size] at hsize
          rw [SizePrefix.Declares, he, ← hsize]
          exact congrArg (· % cfg.sizeMod) (by simp only [List.length_cons, List.length_nil]; omega)
  · constructor
    · rintro ⟨p, hp, hM⟩
      obtain ⟨b, bs, he⟩ : ∃ b bs, p.encode = b :: bs := by
        cases p <;> exact ⟨_, _, rfl⟩
      rw [he] at hM
      obtain ⟨t, ht, hu⟩ := (moves_comp (u := [b]) (f := id) (g := id)).mpr hM
      exact ⟨b, t, ⟨_, rfl, ht⟩, p, bs, he, hp, hu⟩
    · rintro ⟨b, t, ⟨_, hbs, ht⟩, p, bs, he, hp, hu⟩
      subst hbs
      refine ⟨p, hp, ?_⟩
      rw [he]
      exact moves_comp.mp ⟨t, ht, hu⟩

end

/-- The end of a native and of a NEOVM transaction, with the address it contains. -/
def nativeTail (a : List UInt8) : List UInt8 :=
  ([0x14] ++ a) ++ (opcodeSyscall ++ (nativeInvoke ++ opcodeEnd))

def neovmTail (a : List UInt8) : List UInt8 := opcodeAppcall ++ (a ++ opcodeEnd)

theorem length_nativeTail (a : Bytes addressScriptHashLen) : (nativeTail a.1).length = 47 := by
  have : (opcodeSyscall ++ (nativeInvoke ++ opcodeEnd)).length = 26 := by decide
  rw [nativeTail, List.length_append, List.length_append, a.2, this]
  rfl

theorem length_neovmTail (a : Bytes addressScriptHashLen) : (neovmTail a.1).length = 22 := by
  rw [neovmTail, List.length_append, List.length_append, a.2]
  rfl

/-- The fixed end of a native or NEOVM transaction. -/
def Vm.tail (vm : Vm) (contract : List UInt8) : List UInt8 :=
  match vm with
  | .native => nativeTail contract
  | .neovm => neovmTail contract
  | .wasmvm => []

theorem Vm.length_tail {vm : Vm} (hvm : vm ≠ .wasmvm) (a : Bytes addressScriptHashLen) :
    (vm.tail a.1).length = if vm = .native then 47 else 22 := by
  cases vm with
  | native => exact length_nativeTail a
  | neovm => exact length_neovmTail a
  | wasmvm => exact absurd rfl hvm

theorem Vm.length_tail_pos {vm : Vm} (hvm : vm ≠ .wasmvm) (a : Bytes addressScriptHashLen) :
    0 < (vm.tail a.1).length := by
  rw [Vm.length_tail hvm]
  split <;> decide

/-- The contract is stored with its type and the position of its address. -/
def Transaction.setContractAt (tx : Transaction) (type : TxContractType) (pos : Nat) :
    Transaction :=
  tx.setContract { tx.contract with type := type, addr := ⟨some pos, .addr, 20⟩ }

/-- The contract stage from `s` to `t`: the address is read off the end, or, for the WASM machine,
at the offset. -/
def Vm.ContractAt (vm : Vm) (a : Bytes addressScriptHashLen) (s t : ParserState) : Prop :=
  match vm with
  | .native => (∃ u, s.buf.rest = u ++ nativeTail a.1) ∧
      t = ⟨s.buf, s.tx.setContractAt .native (s.buf.size - 46)⟩
  | .neovm => (∃ u, s.buf.rest = u ++ neovmTail a.1) ∧
      t = ⟨s.buf, s.tx.setContractAt .neovm (s.buf.size - 21)⟩
  | .wasmvm => Moves a.1 (·.setContractAt .wasmvm s.buf.offset) s t

/-- A native and a NEOVM contract are read off the end in the same way, one byte into it. -/
theorem Vm.contractAt_iff {vm : Vm} {a : Bytes addressScriptHashLen} {s t : ParserState}
    (hvm : vm ≠ .wasmvm) : vm.ContractAt a s t ↔ (∃ u, s.buf.rest = u ++ vm.tail a.1) ∧
      t = ⟨s.buf, s.tx.setContractAt vm.contractType (s.buf.size - ((vm.tail a.1).length - 1))⟩ := by
  rw [Vm.length_tail hvm]
  cases vm with
  | native => exact Iff.rfl
  | neovm => exact Iff.rfl
  | wasmvm => exact absurd rfl hvm

/-- Counting from the end of the buffer. -/
theorem Buffer.drop_size_sub {b : Buffer} {u w : List UInt8} (h : b.rest = u ++ w) {k : Nat}
    (hk : k ≤ w.length) : b.ptr.drop (b.size - k) = w.drop (w.length - k) := by
  have hp : b.ptr = (b.ptr.take b.offset ++ u) ++ w := by
    rw [List.append_assoc, ← h, b.take_append_rest]
  have hl := congrArg List.length hp
  rw [List.length_append] at hl
  rw [Buffer.size, hl, hp, List.drop_append, List.drop_eq_nil_of_le (by simp at *; omega),
    List.nil_append]
  congr 1
  simp at *
  omega

/-- The byte that tells the two kinds of call apart. -/
theorem discriminator_native {b : Buffer}
    {a : Bytes addressScriptHashLen}
    (h : ∃ u, b.rest = u ++ nativeTail a.1) : (b.ptr.drop (b.size - 22)).take 1 = [0x6e] := by
  obtain ⟨u, hu⟩ := h
  rw [Buffer.drop_size_sub hu (by rw [length_nativeTail]; omega), length_nativeTail, nativeTail,
    List.drop_append, List.drop_eq_nil_of_le (by simp [a.2, addressScriptHashLen])]
  simp only [List.length_append, a.2]
  decide

theorem discriminator_neovm {b : Buffer}
    {a : Bytes addressScriptHashLen}
    (h : ∃ u, b.rest = u ++ neovmTail a.1) : (b.ptr.drop (b.size - 22)).take 1 = [0x67] := by
  obtain ⟨u, hu⟩ := h
  rw [Buffer.drop_size_sub hu (by rw [length_neovmTail]), length_neovmTail]
  rfl

section
variable [BufferSdk] {cfg : Config} {s : ParserState}

theorem onBuf_seekSet (n : Nat) : Returns (onBuf (bufferSeekSet n)) s true fun t =>
    t.buf.ptr = s.buf.ptr ∧ t.buf.offset = n ∧ t.tx = s.tx := by
  refine (bufferSeekSet_returns s.buf n).within.congr fun t => ?_
  constructor
  · rintro ⟨hp, ho, ht⟩
    exact ⟨t.buf, ⟨hp, ho⟩, ParserState.ext rfl ht⟩
  · rintro ⟨b, ⟨hp, ho⟩, ht⟩
    subst ht
    exact ⟨hp, ho, rfl⟩

theorem onBuf_canRead (n : Nat) : Returns (onBuf (bufferCanRead n)) s true fun t =>
    n ≤ s.buf.rest.length ∧ t = s := by
  refine (bufferCanRead_returns s.buf n).within.congr fun t => ?_
  simp

theorem onBuf_constant (str : List UInt8) : Returns (onBuf (parseCheckConstant str)) s true
    (Moves str id s) :=
  (onBuf_returns (e := fun _ : Unit => str)
    ((parseCheckConstant_returns s.buf str).congr (by simp))).congr (by simp)

omit [BufferSdk] in
theorem atEnd_returns : Returns atEnd s true fun t => s.buf.offset = s.buf.size ∧ t = s :=
  returns_get_bind.mpr (returns_guard _)

/-- Reading something that has to be the end of the buffer, and going back. -/
theorem tail_returns (cfg : Config) (s : ParserState) {k : Nat} {chain : ParseM Bool}
    (tail : Bytes addressScriptHashLen → List UInt8)
    (f : Nat → Transaction → Transaction) (hs : s.buf.size < cfg.sizeMod)
    (hk : ∀ a, (tail a).length = k) (hchain : ∀ t : ParserState, Returns chain t true fun u =>
      ∃ a, Moves (tail a) (f t.buf.offset) t u) :
    Returns (onBuf (bufferCanRead k) <&&> onBuf (bufferSeekSet (cfg.subSize s.buf.size k)) <&&>
      chain <&&> atEnd <&&> onBuf (bufferSeekSet s.buf.offset)) s true fun t =>
      ∃ a, (∃ u, s.buf.rest = u ++ tail a) ∧ t = ⟨s.buf, f (s.buf.size - k) s.tx⟩ := by
  have hsize := s.buf.offset_add_length_rest
  refine Returns.congr ((onBuf_canRead k).testAnd fun hle => (onBuf_seekSet _).and fun t₁ _ =>
    (hchain t₁).and fun t₂ _ => atEnd_returns.testAnd fun _ => onBuf_seekSet _) fun t => ?_
  constructor
  · rintro ⟨a, ⟨u, hu⟩, ht⟩
    have hl := congrArg List.length hu
    rw [List.length_append, hk a] at hl
    have hsub : cfg.subSize s.buf.size k = s.buf.size - k := cfg.subSize_of_le (by omega) hs
    have hdrop : s.buf.ptr.drop (s.buf.size - k) = tail a ++ [] := by
      rw [Buffer.drop_size_sub hu (hk a).ge, hk a, Nat.sub_self, List.drop_zero, List.append_nil]
    obtain ⟨b, hb, hrest⟩ := Buffer.exists_consumes
      (b := ⟨s.buf.ptr, s.buf.size - k, Nat.sub_le _ _⟩) hdrop
    refine ⟨by omega, ⟨⟨s.buf.ptr, s.buf.size - k, Nat.sub_le _ _⟩, s.tx⟩, ⟨rfl, hsub.symm, rfl⟩,
      ⟨b, _⟩, ⟨a, hb, rfl⟩, ?_, ?_⟩
    · have := b.offset_add_length_rest
      simpa [hrest] using this
    · subst ht
      exact ⟨hb.1.symm, rfl, rfl⟩
  · rintro ⟨hle, t₁, ⟨hp₁, ho₁, ht₁⟩, t₂, ⟨a, hb, ht₂⟩, hend, hp, ho, ht⟩
    have hsub : cfg.subSize s.buf.size k = s.buf.size - k := cfg.subSize_of_le (by omega) hs
    rw [hsub] at ho₁
    have hrest : t₂.buf.rest = [] := by
      have := t₂.buf.offset_add_length_rest
      exact List.length_eq_zero_iff.mp (by omega)
    have hdrop : s.buf.ptr.drop (s.buf.size - k) = tail a := by
      rw [← hp₁, ← ho₁]
      exact hb.2.trans (by rw [hrest, List.append_nil])
    refine ⟨a, ⟨s.buf.rest.take (s.buf.size - k - s.buf.offset), ?_⟩, ?_⟩
    · rw [← hdrop, ← show s.buf.offset + (s.buf.size - k - s.buf.offset) = s.buf.size - k by omega,
        ← List.drop_drop, Nat.add_sub_cancel_left]
      exact (List.take_append_drop _ _).symm
    · refine ParserState.ext (Buffer.ext ?_ ho) ?_
      · rw [hp, hb.1, hp₁]
      · rw [ht, ht₂, ht₁, ho₁]

/-- The address is stored where it is read. -/
def Transaction.setContractAddr (tx : Transaction) (pos : Nat) : Transaction :=
  tx.setContract { tx.contract with addr := ⟨some pos, .addr, 20⟩ }

theorem intoContractAddr_returns (hasLength : Bool) (s : ParserState) :
    Returns (intoContractAddr (parseAddress hasLength)) s true fun t =>
      ∃ a : Bytes addressScriptHashLen, Moves ((if hasLength then [0x14] else []) ++ a.1)
        (·.setContractAddr (s.buf.offset + if hasLength then 1 else 0)) s t := by
  refine (intoField_returns (e := fun a : Bytes addressScriptHashLen => _)
    (q := fun a off _ => ⟨some (off + _), .addr, a.1.length⟩)
    (fun out b p => parseAddress_returns b hasLength out p) _ _ s).congr fun t => ?_
  refine exists_congr fun a => ?_
  cases hasLength <;> simp [Moves, Transaction.setContractAddr, a.2, addressScriptHashLen]

theorem deserializeNativeContract_returns (hs : s.buf.size < cfg.sizeMod) :
    Returns (deserializeNativeContract cfg s.buf.offset s.buf.size) s .ok fun t =>
      ∃ a, Vm.native.ContractAt a s t := by
  have hchain (t : ParserState) : Returns (intoContractAddr (parseAddress true) <&&>
      onBuf (parseCheckConstant opcodeSyscall) <&&> onBuf (parseCheckConstant nativeInvoke) <&&>
      onBuf (parseCheckConstant opcodeEnd)) t true fun u => ∃ a : Bytes addressScriptHashLen,
        Moves (nativeTail a.1) (·.setContractAddr (t.buf.offset + 1)) t u := by
    refine Returns.congr ((intoContractAddr_returns true t).and fun t₁ _ =>
      (onBuf_constant _).and fun t₂ _ => (onBuf_constant _).and fun t₃ _ => onBuf_constant _)
      fun u => ?_
    simp only [moves_comp]
    constructor
    · rintro ⟨a, h⟩
      obtain ⟨t₁, h₁, h₂⟩ := (moves_comp (g := id)).mpr h
      exact ⟨t₁, ⟨a, h₁⟩, h₂⟩
    · rintro ⟨t₁, ⟨a, h₁⟩, h₂⟩
      exact ⟨a, moves_comp.mp ⟨t₁, h₁, h₂⟩⟩
  refine returns_modify_bind.mpr (Returns.select ?_ (by simp))
  have h := tail_returns cfg ⟨s.buf, s.tx.setContract { s.tx.contract with type := .native }⟩
    (fun a => nativeTail a.1) (fun pos tx => tx.setContractAddr (pos + 1)) hs length_nativeTail hchain
  simp only [andM_assoc] at h
  refine h.congr fun t => exists_congr fun a => and_congr_right fun hpost => ?_
  obtain ⟨u, hu⟩ := hpost
  have hl := congrArg List.length hu
  rw [List.length_append, length_nativeTail] at hl
  have := s.buf.offset_add_length_rest
  rw [show s.buf.size - 46 = s.buf.size - 47 + 1 by omega]
  rfl

theorem deserializeNeovmContract_returns (hs : s.buf.size < cfg.sizeMod) :
    Returns (deserializeNeovmContract cfg s.buf.offset s.buf.size) s .ok fun t =>
      ∃ a, Vm.neovm.ContractAt a s t := by
  have hchain (t : ParserState) : Returns (onBuf (parseCheckConstant opcodeAppcall) <&&>
      intoContractAddr (parseAddress false) <&&>
      onBuf (parseCheckConstant opcodeEnd)) t true fun u => ∃ a : Bytes addressScriptHashLen,
        Moves (neovmTail a.1) (·.setContractAddr (t.buf.offset + 1)) t u := by
    refine Returns.congr ((onBuf_constant _).and fun t₁ _ =>
      (intoContractAddr_returns false t₁).and fun t₂ _ => onBuf_constant _) fun u => ?_
    constructor
    · rintro ⟨a, h⟩
      obtain ⟨t₁, h₁, h⟩ := (moves_comp (u := opcodeAppcall) (f := id)
        (g := (·.setContractAddr (t.buf.offset + 1)))).mpr h
      obtain ⟨t₂, h₂, h⟩ := (moves_comp (g := id)).mpr h
      refine ⟨t₁, h₁, t₂, ⟨a, ?_⟩, h⟩
      rw [h₁.1.offset]
      exact h₂
    · rintro ⟨t₁, h₁, t₂, ⟨a, h₂⟩, h⟩
      rw [h₁.1.offset] at h₂
      exact ⟨a, moves_comp.mp ⟨t₁, h₁, moves_comp.mp ⟨t₂, h₂, h⟩⟩⟩
  refine returns_modify_bind.mpr (Returns.select ?_ (by simp))
  have h := tail_returns cfg ⟨s.buf, s.tx.setContract { s.tx.contract with type := .neovm }⟩
    (fun a => neovmTail a.1) (fun pos tx => tx.setContractAddr (pos + 1)) hs length_neovmTail hchain
  simp only [andM_assoc] at h
  refine h.congr fun t => exists_congr fun a => and_congr_right fun hpost => ?_
  obtain ⟨u, hu⟩ := hpost
  have hl := congrArg List.length hu
  rw [List.length_append, length_neovmTail] at hl
  have := s.buf.offset_add_length_rest
  rw [show s.buf.size - 21 = s.buf.size - 22 + 1 by omega]
  rfl

theorem transactionDeserializeContract_returns (hs : s.buf.size < cfg.sizeMod) :
    Returns (transactionDeserializeContract cfg) s .ok fun t =>
      ∃ (vm : Vm) (a : Bytes addressScriptHashLen),
        s.tx.header.txType = vm.txType ∧ vm.ContractAt a s t := by
  have hsize := s.buf.offset_add_length_rest
  refine returns_get_bind.mpr ?_
  dsimp only
  split
  · rename_i htype
    refine Returns.congr ((onBuf_canRead _).tested (S := fun t =>
      ∃ vm a, s.tx.header.txType = Vm.txType vm ∧ Vm.ContractAt vm a s t) (fun hle => ?_) (by simp))
      fun t => ?_
    · have hsub : cfg.subSize s.buf.size (opcodeEnd.length + addressScriptHashLen + 1) =
          s.buf.size - 22 := cfg.subSize_of_le (by omega) hs
      have hread : readPtr s.buf.ptr (some (s.buf.size - 22)) 1 =
          .ok ((s.buf.ptr.drop (s.buf.size - 22)).take 1) :=
        readPtr_eq_ok.mpr ⟨_, rfl, by simp [Buffer.size, opcodeEnd, addressScriptHashLen] at *; omega, rfl⟩
      rw [hsub]
      refine (returns_ofExcept_bind hread).mpr ?_
      by_cases hd : (s.buf.ptr.drop (s.buf.size - 22)).take 1 = opcodeAppcall
      · rw [if_neg (not_not_intro hd)]
        refine (deserializeNeovmContract_returns hs).congr fun t => ?_
        constructor
        · rintro ⟨vm, a, hty, h⟩
          cases vm with
          | native => exact absurd ((discriminator_native h.1).symm.trans hd) (by decide)
          | neovm => exact ⟨a, h⟩
          | wasmvm => exact absurd (htype.symm.trans hty) (by decide)
        · rintro ⟨a, h⟩
          exact ⟨.neovm, a, htype, h⟩
      · rw [if_pos hd]
        refine (deserializeNativeContract_returns hs).congr fun t => ?_
        constructor
        · rintro ⟨vm, a, hty, h⟩
          cases vm with
          | native => exact ⟨a, h⟩
          | neovm => exact absurd (discriminator_neovm h.1) hd
          | wasmvm => exact absurd (htype.symm.trans hty) (by decide)
        · rintro ⟨a, h⟩
          exact ⟨.native, a, htype, h⟩
    · refine ⟨fun h => ⟨?_, h⟩, fun h => h.2⟩
      obtain ⟨vm, a, hty, h⟩ := h
      cases vm with
      | native =>
        obtain ⟨⟨u, hu⟩, -⟩ := h
        have hl := congrArg List.length hu
        rw [List.length_append, length_nativeTail] at hl
        simp only [opcodeEnd, addressScriptHashLen, List.length_singleton]
        omega
      | neovm =>
        obtain ⟨⟨u, hu⟩, -⟩ := h
        have hl := congrArg List.length hu
        rw [List.length_append, length_neovmTail] at hl
        simp only [opcodeEnd, addressScriptHashLen, List.length_singleton]
        omega
      | wasmvm => exact absurd (htype.symm.trans hty) (by decide)
  · rename_i htype
    refine returns_modify_bind.mpr (Returns.select ?_ (by simp))
    refine Returns.congr (intoContractAddr_returns false _) fun t => ?_
    constructor
    · rintro ⟨vm, a, hty, h⟩
      cases vm with
      | wasmvm => exact ⟨a, h⟩
      | _ => exact absurd (htype.symm.trans hty) (by decide)
    · rintro ⟨a, h⟩
      exact ⟨.wasmvm, a, htype, h⟩
  · rename_i h₁ h₂
    refine (returns_pure_ne (by simp)).congr fun t => iff_of_false (fun h => ?_) id
    obtain ⟨vm, a, hty, -⟩ := h
    cases vm with
    | wasmvm => exact h₂ hty
    | _ => exact h₁ hty

end

end AppOnt
