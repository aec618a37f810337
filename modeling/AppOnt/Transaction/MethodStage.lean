import AppOnt.Transaction.Stages

/-!
# What the method stage accepts

The name of a native or NEOVM method is found by scanning backwards from the
fixed end. The scan is a function of the bytes: it faults on no transaction,
because the header keeps its index from wrapping below zero and the fixed end
keeps its four-byte comparison inside the buffer.
-/
namespace AppOnt

open Prog Token

/-- The index after a delimiter at `i`, as a function of the bytes. -/
def delimiter? (type : TxContractType) (ptr : List UInt8) (sEnd i : Nat) : Option Nat :=
  if type = .native ∧ i + 2 ≤ sEnd ∧ opcodeParamStEnd <+: ptr.drop i then some (i + 4)
  else if opcodePack <+: ptr.drop i then some (i + 1)
  else none

/-- Where the scan from `i` down to `sBegin` finds the method, zero if it does not. -/
def methodStart (type : TxContractType) (ptr : List UInt8) (sBegin sEnd : Nat) : Nat → Nat
  | 0 => if 0 < sBegin then 0 else (delimiter? type ptr sEnd 0).getD 0
  | i + 1 =>
    if i + 1 < sBegin then 0
    else (delimiter? type ptr sEnd (i + 1)).getD (methodStart type ptr sBegin sEnd i)

theorem memcmpAt_ensures {k : Nat} {bs : List UInt8} {b : Buffer} (h : k + bs.length ≤ b.size) :
    Ensures (memcmpAt k bs) b fun ok b' => ok = decide (bs <+: b.ptr.drop k) ∧ b' = b := by
  have hr : readPtr b.ptr (some k) bs.length = .ok ((b.ptr.drop k).take bs.length) :=
    readPtr_eq_ok.mpr ⟨k, rfl, h, rfl⟩
  simp [memcmpAt, hr, List.prefix_iff_eq_take, eq_comm, Bool.beq_eq_decide_eq]

theorem delimiter?_le {type : TxContractType} {ptr : List UInt8} {sEnd i c : Nat}
    (hi : i ≤ sEnd + 1) (h : delimiter? type ptr sEnd i = some c) : c ≤ sEnd + 2 := by
  unfold delimiter? at h
  split at h
  · cases h
    omega
  · split at h <;> cases h
    omega

theorem methodStart_le {type : TxContractType} {ptr : List UInt8} {sBegin sEnd i : Nat}
    (hi : i ≤ sEnd + 1) : methodStart type ptr sBegin sEnd i ≤ sEnd + 2 := by
  induction i with
  | zero =>
    unfold methodStart
    split
    · omega
    · cases h : delimiter? type ptr sEnd 0 with
      | none => simp
      | some c => exact delimiter?_le hi h
  | succ i ih =>
    unfold methodStart
    split
    · omega
    · cases h : delimiter? type ptr sEnd (i + 1) with
      | none => exact ih (by omega)
      | some c => exact delimiter?_le hi h

/-- Whatever the scan stops at starts with one of two bytes. -/
theorem delimiter?_bytes {type : TxContractType} {ptr : List UInt8} {sEnd i c : Nat}
    (h : delimiter? type ptr sEnd i = some c) :
    ptr[i]? = some 0xc1 ∨
      type = .native ∧ i + 2 ≤ sEnd ∧ ptr[i]? = some 0x6a ∧ ptr[i + 1]? = some 0x7c := by
  unfold delimiter? at h
  split at h
  · rename_i hp
    obtain ⟨ht, hi, v, hv⟩ := hp
    have hget (j : Nat) : ptr[i + j]? = (opcodeParamStEnd ++ v)[j]? := by
      rw [hv, List.getElem?_drop]
    exact .inr ⟨ht, hi, hget 0, hget 1⟩
  · split at h
    · rename_i hp
      obtain ⟨v, hv⟩ := hp
      have hget : ptr[i + 0]? = (opcodePack ++ v)[0]? := by rw [hv, List.getElem?_drop]
      exact .inl hget
    · cases h

/-- The scan stops at the last delimiter. -/
theorem methodStart_eq {type : TxContractType} {ptr : List UInt8} {sBegin sEnd k n c : Nat}
    (hk : delimiter? type ptr sEnd k = some c) (hlow : sBegin ≤ k) (hn : k ≤ n)
    (hnone : ∀ i, k < i → i ≤ n → delimiter? type ptr sEnd i = none) :
    methodStart type ptr sBegin sEnd n = c := by
  induction n with
  | zero =>
    obtain rfl : k = 0 := by omega
    rw [methodStart, if_neg (by omega), hk, Option.getD_some]
  | succ n ih =>
    rw [methodStart, if_neg (by omega)]
    by_cases h : k = n + 1
    · rw [← h, hk, Option.getD_some]
    · rw [hnone (n + 1) (by omega) le_rfl, Option.getD_none]
      exact ih (by omega) fun i hi hle => hnone i hi (by omega)

/-- Bytes that no delimiter starts with. -/
def Plain (bs : List UInt8) : Prop := ∀ x ∈ bs, x ≠ 0xc1 ∧ x ≠ 0x7c

instance (bs : List UInt8) : Decidable (Plain bs) :=
  List.decidableBAll (fun x => x ≠ 0xc1 ∧ x ≠ 0x7c) bs

/-- Arguments that end in a delimiter, and then bytes that start none up to where the scan
starts. -/
theorem methodStart_append {type : TxContractType} {front args w : List UInt8} {sEnd : Nat}
    (hends : opcodePack <:+ args ∨ type = .native ∧ opcodeParamStEnd <:+ args)
    (hle : (front ++ args).length ≤ sEnd)
    (hplain : ∀ x ∈ w.take (sEnd + 2 - (front ++ args).length),
      x ≠ 0xc1 ∧ (type = .native → x ≠ 0x7c)) :
    methodStart type (front ++ args ++ w) front.length sEnd (sEnd + 1) =
      (front ++ args).length := by
  have hafter {i : Nat} (hi : (front ++ args).length ≤ i) (hi' : i ≤ sEnd + 1) (x : UInt8)
      (hx : (front ++ args ++ w)[i]? = some x) : x ≠ 0xc1 ∧ (type = .native → x ≠ 0x7c) := by
    rw [List.getElem?_append_right hi] at hx
    refine hplain x (List.mem_of_getElem? (i := i - (front ++ args).length) ?_)
    rwa [List.getElem?_take_of_lt (by omega)]
  have hnone {i : Nat} (hi : (front ++ args).length ≤ i) (hi' : i ≤ sEnd + 1) :
      delimiter? type (front ++ args ++ w) sEnd i = none := by
    refine Option.eq_none_iff_forall_ne_some.mpr fun c hc => ?_
    rcases delimiter?_bytes hc with h | ⟨ht, h, -, h'⟩
    · exact (hafter hi hi' _ h).1 rfl
    · exact (hafter (by omega) (by omega) _ h').2 ht rfl
  rcases hends with ⟨v, hv⟩ | ⟨ht, v, hv⟩
  · have hl : (front ++ args).length = (front ++ v).length + 1 := by
      simp [← hv, opcodePack]; omega
    have hdrop : (front ++ args ++ w).drop (front ++ v).length = opcodePack ++ w := by
      rw [← hv, ← List.append_assoc, List.append_assoc _ opcodePack, List.drop_left]
    refine methodStart_eq (k := (front ++ v).length) ?_ (by simp) (by omega)
      fun i hi hi' => hnone (by omega) hi'
    unfold delimiter?
    rw [hdrop, if_neg (fun h => by simpa [opcodeParamStEnd, opcodePack] using h.2.2), if_pos ⟨w, rfl⟩, hl]
  · have hl : (front ++ args).length = (front ++ v).length + 4 := by
      simp [← hv, opcodeParamStEnd]; omega
    have hdrop : (front ++ args ++ w).drop (front ++ v).length = opcodeParamStEnd ++ w := by
      rw [← hv, ← List.append_assoc, List.append_assoc _ opcodeParamStEnd, List.drop_left]
    refine methodStart_eq (k := (front ++ v).length) ?_ (by simp) (by omega) fun i hi hi' => ?_
    · unfold delimiter?
      rw [hdrop, if_pos ⟨ht, by omega, w, rfl⟩, hl]
    · by_cases h : (front ++ args).length ≤ i
      · exact hnone h hi'
      · -- Inside the delimiter none other starts.
        have hget (j : Nat) : (front ++ args ++ w)[(front ++ v).length + j]? =
            (opcodeParamStEnd ++ w)[j]? := by
          rw [← hdrop, List.getElem?_drop]
        refine Option.eq_none_iff_forall_ne_some.mpr fun c hc => ?_
        obtain ⟨j, rfl⟩ : ∃ j, i = (front ++ v).length + j := ⟨i - (front ++ v).length, by omega⟩
        have hj : j = 1 ∨ j = 2 ∨ j = 3 := by omega
        rcases delimiter?_bytes hc with h | ⟨-, -, h, -⟩
        · rw [hget] at h
          rcases hj with rfl | rfl | rfl <;> simp [opcodeParamStEnd] at h
        · rw [hget] at h
          rcases hj with rfl | rfl | rfl <;> simp [opcodeParamStEnd] at h

section
variable {cfg : Config} {type : TxContractType} {sBegin sEnd i : Nat} {b : Buffer}

theorem delimiterAt_ensures (hmod : b.size < cfg.sizeMod) (hlow : 2 ≤ sEnd)
    (hend : sEnd + 2 ≤ b.size) (hi : i < b.size) :
    Ensures (delimiterAt cfg type sEnd i) b fun o b' =>
      o = delimiter? type b.ptr sEnd i ∧ b' = b := by
  have hsub : cfg.subSize sEnd (opcodeParamStEnd.length - 2) = sEnd - 2 :=
    cfg.subSize_of_le hlow (by omega)
  have hpack : Ensures (do
      if ← memcmpAt i opcodePack then return some (i + opcodePack.length) else return none) b
      fun o b' => o = (if opcodePack <+: b.ptr.drop i then some (i + 1) else none) ∧ b' = b := by
    refine ensures_bind.mpr ((memcmpAt_ensures (by simp [opcodePack]; omega)).mono
      fun ok t hpost => ?_)
    obtain ⟨hok, ht⟩ := hpost
    subst hok ht
    by_cases hp : opcodePack <+: t.ptr.drop i <;> simp [hp, show opcodePack.length = 1 from rfl]
  unfold delimiterAt delimiter?
  simp only [hsub, ensures_bind, ensures_and, ensures_pure]
  by_cases hc : type = .native ∧ i + 2 ≤ sEnd
  · have hc' : type = .native ∧ i ≤ sEnd - 2 := ⟨hc.1, by omega⟩
    simp only [hc', and_self, decide_true, true_implies, reduceCtorEq, false_implies, and_true]
    refine (memcmpAt_ensures (by simp [opcodeParamStEnd]; omega)).mono fun ok t hpost => ?_
    obtain ⟨hok, ht⟩ := hpost
    subst hok ht
    by_cases hp : opcodeParamStEnd <+: t.ptr.drop i
    · simp [hp, hc, show opcodeParamStEnd.length = 4 from rfl]
    · simpa [hp] using hpack
  · have hc' : ¬ (type = .native ∧ i ≤ sEnd - 2) := fun h => hc ⟨h.1, by omega⟩
    have hne : ¬ (type = .native ∧ i + 2 ≤ sEnd ∧ opcodeParamStEnd <+: b.ptr.drop i) :=
      fun h => hc ⟨h.1, h.2.1⟩
    simpa [hc', hne] using hpack

theorem scanMethod_ensures (hmod : b.size < cfg.sizeMod) (hlow : 2 ≤ sEnd)
    (hend : sEnd + 2 ≤ b.size) (hbegin : 0 < sBegin) (hi : i ≤ sEnd + 1) :
    Ensures (scanMethod cfg type sBegin sEnd i) b fun cur b' =>
      cur = methodStart type b.ptr sBegin sEnd i ∧ b' = b := by
  induction i with
  | zero =>
    unfold scanMethod methodStart
    simp [hbegin]
  | succ i ih =>
    unfold scanMethod methodStart
    by_cases h : i + 1 < sBegin
    · simp [h]
    · simp only [h, if_false, ensures_bind]
      refine (delimiterAt_ensures hmod hlow hend (by omega)).mono fun o t hpost => ?_
      obtain ⟨ho, ht⟩ := hpost
      subst ho ht
      cases delimiter? type t.ptr sEnd (i + 1) with
      | none => exact ih (by omega)
      | some c => simp

end

section
variable [BufferSdk] {cfg : Config} {s : ParserState}

/-- The method stage of a native or NEOVM call from `s` to `t`: where the scan stops comes the
method name, and then the fixed end of `c` bytes. -/
def MethodAt (type : TxContractType) (c : Nat) (name : List UInt8) (s t : ParserState) : Prop :=
  ∃ cur, cur = methodStart type s.buf.ptr s.buf.offset (s.buf.size - c) (s.buf.size - c + 1) ∧
    cur + 1 + name.length + c = s.buf.size ∧
    (UInt8.ofNat name.length :: name) <+: s.buf.ptr.drop cur ∧
    t = ⟨s.buf, s.tx.setMethodName ⟨some (cur + 1), s.tx.method.name.type, name.length⟩⟩

theorem intoMethodName_returns (s : ParserState) :
    Returns (intoMethodName parseMethodName) s true fun t =>
      ∃ name : { name : List UInt8 // name ≠ [] ∧ name.length < 256 },
        Moves (UInt8.ofNat name.1.length :: name.1) (fun tx => tx.setMethodName
          ⟨some (s.buf.offset + 1), tx.method.name.type, name.1.length⟩) s t :=
  intoField_returns
    (q := fun (name : { name : List UInt8 // name ≠ [] ∧ name.length < 256 }) off out =>
      ⟨some (off + 1), out.type, name.1.length⟩)
    (fun out b p => (parseMethodName_returns b out p).congr fun u => by simp [and_left_comm, and_assoc]) _ _ s

theorem deserializeMethodBefore_returns {type : TxContractType} {c : Nat}
    (hmod : s.buf.size < cfg.sizeMod) (hc : 2 ≤ c) (hbegin : 2 ≤ s.buf.offset)
    (hend : s.buf.offset + c ≤ s.buf.size) :
    Returns (deserializeMethodBefore cfg type c) s .ok fun t => ∃ name : List UInt8,
      (name ≠ [] ∧ name.length < 256) ∧ MethodAt type c name s t := by
  have hM := cfg.sizeMod_cases
  have hEnd : cfg.subSize s.buf.size c = s.buf.size - c := cfg.subSize_of_le (by omega) hmod
  have hback : cfg.subSize opcodePack.length 2 = cfg.sizeMod - 1 := by
    rw [show opcodePack.length = 1 from rfl, cfg.subSize_of_lt (by omega) (by omega)]
  have hfirst : cfg.subSize (s.buf.size - c) (cfg.sizeMod - 1) = s.buf.size - c + 1 := by
    rw [cfg.subSize_of_lt (by omega) (by omega)]
    omega
  have hguard : cfg.addSize s.buf.offset (cfg.sizeMod - 1) = s.buf.offset - 1 := by
    rw [Config.addSize, show s.buf.offset + (cfg.sizeMod - 1) = s.buf.offset - 1 + cfg.sizeMod by
      omega, Nat.add_mod_right, Nat.mod_eq_of_lt (by omega)]
  refine returns_get_bind.mpr ?_
  dsimp only
  rw [hEnd, hback, hfirst, hguard, if_neg (by omega)]
  -- The scan leaves the state as it is.
  have hscan : Ensures (onBuf (scanMethod cfg type s.buf.offset (s.buf.size - c)
      (s.buf.size - c + 1))) s fun cur t => cur = methodStart type s.buf.ptr s.buf.offset
        (s.buf.size - c) (s.buf.size - c + 1) ∧ t = s :=
    ensures_within.mpr ((scanMethod_ensures hmod (by omega) (by omega) (by omega) le_rfl).mono
      fun cur b ⟨hcur, hb⟩ => ⟨hcur, by rw [hb]⟩)
  refine ensures_bind.mpr (hscan.mono fun cur t hpost => ?_)
  obtain ⟨hcur, ht⟩ := hpost
  subst ht
  have hle : cur ≤ t.buf.size - c + 2 := hcur ▸ methodStart_le le_rfl
  refine Returns.congr (Returns.select ((onBuf_seekSet cur).and fun t₁ _ =>
    (returns_guard _).testAnd fun _ => (intoMethodName_returns t₁).and fun t₂ _ =>
    (returns_get_guard fun u : ParserState => u.tx.method.name.len = _).testAnd fun _ =>
    onBuf_seekSet _) (by simp)) fun u => ?_
  have hone : cfg.subSize (t.buf.size - c) 1 = t.buf.size - c - 1 :=
    cfg.subSize_of_le (by omega) (by omega)
  -- A name of less than 256 bytes rules out that the intended length wrapped.
  have hintent (n : Nat) (hn : n < 256) :
      n = cfg.subSize (t.buf.size - c - 1) cur ↔ cur + 1 + n + c = t.buf.size := by
    rcases Nat.lt_or_ge (t.buf.size - c - 1) cur with h | h
    · rw [cfg.subSize_of_lt h (by omega)]
      omega
    · rw [cfg.subSize_of_le h (by omega)]
      omega
  rw [hone]
  constructor
  · rintro ⟨name, hname, cur', hcur', hlen, ⟨r, hr⟩, hu⟩
    obtain rfl : cur' = cur := by rw [hcur', hcur]
    have hpos : 0 < name.length := List.length_pos_iff.mpr hname.1
    have hname' := (hintent name.length hname.2).mpr hlen
    have hcurle : cur' ≤ t.buf.ptr.length := show cur' ≤ t.buf.size by omega
    obtain ⟨b, hb, -⟩ := Buffer.exists_consumes (b := ⟨t.buf.ptr, cur', hcurle⟩) hr.symm
    refine ⟨⟨⟨t.buf.ptr, cur', hcurle⟩, t.tx⟩, ⟨rfl, rfl, rfl⟩, by omega, ⟨b, _⟩,
      ⟨⟨name, hname⟩, hb, rfl⟩, hname', ?_⟩
    subst hu
    exact ⟨hb.1.symm, rfl, rfl⟩
  · rintro ⟨t₁, ⟨hp₁, ho₁, ht₁⟩, hne, t₂, ⟨⟨name, hname⟩, hb, ht₂⟩, hlen, hp, ho, hu⟩
    rw [ht₂] at hlen
    refine ⟨name, hname, cur, hcur, (hintent name.length hname.2).mp hlen, ⟨t₂.buf.rest, ?_⟩, ?_⟩
    · rw [← ho₁, ← hp₁]
      exact hb.2.symm
    · refine ParserState.ext (Buffer.ext ?_ ho) ?_
      · rw [hp, hb.1, hp₁]
      · rw [hu, ht₂, ht₁, ho₁]

/-- The method stage of a WASM call from `s` to `t`: the length of what remains, and the name. -/
def RemainingAt (name : List UInt8) (s t : ParserState) : Prop :=
  ∃ remaining : UInt8, remaining ≠ 0 ∧ remaining.toNat + s.buf.offset + 2 = s.buf.size ∧
    Moves ([remaining] ++ (UInt8.ofNat name.length :: name)) (fun tx => tx.setMethodName
      ⟨some (s.buf.offset + 2), tx.method.name.type, name.length⟩) s t

def Vm.MethodStage (vm : Vm) (name : List UInt8) (s t : ParserState) : Prop :=
  match vm with
  | .native => MethodAt .native 47 name s t
  | .neovm => MethodAt .neovm 22 name s t
  | .wasmvm => RemainingAt name s t

omit [BufferSdk] in
theorem Vm.methodStage_iff {vm : Vm} {name : List UInt8} {t : ParserState} (hvm : vm ≠ .wasmvm)
    (a : Bytes addressScriptHashLen) : vm.MethodStage name s t ↔
      MethodAt vm.contractType (vm.tail a.1).length name s t := by
  rw [Vm.length_tail hvm]
  cases vm with
  | native => exact Iff.rfl
  | neovm => exact Iff.rfl
  | wasmvm => exact absurd rfl hvm

theorem transactionDeserializeMethod_returns {vm : Vm} (hvm : s.tx.contract.type = vm.contractType)
    {a : Bytes addressScriptHashLen} (hmod : s.buf.size < cfg.sizeMod) (hbegin : 2 ≤ s.buf.offset)
    (hend : vm ≠ .wasmvm → s.buf.offset + (vm.tail a.1).length ≤ s.buf.size) :
    Returns (transactionDeserializeMethod cfg) s .ok fun t => ∃ name : List UInt8,
      (name ≠ [] ∧ name.length < 256) ∧ vm.MethodStage name s t := by
  refine returns_get_bind.mpr ?_
  rw [hvm]
  cases vm with
  | native =>
    rw [Vm.length_tail (by decide)] at hend
    exact deserializeMethodBefore_returns hmod (by decide) hbegin (hend (by decide))
  | neovm =>
    rw [Vm.length_tail (by decide)] at hend
    exact deserializeMethodBefore_returns hmod (by decide) hbegin (hend (by decide))
  | wasmvm =>
    have h8 : Delivers bufferReadU8 s.buf fun v b' => ∃ bs, bs = [v] ∧ s.buf.Consumes bs b' :=
      (bufferReadU8_delivers s.buf).congr (by simp)
    refine Returns.congr (Delivers.bind (onBuf_delivers h8) (fun remaining t _ =>
      returns_get_bind.mpr (((returns_guard _).testAnd fun _ => intoMethodName_returns t).select
      (by simp))) fun t => returns_pure_ne (by simp)) fun u => ?_
    have hremaining {remaining : UInt8} {t : ParserState} (ht : Moves [remaining] id s t) :
        remaining.toNat = cfg.subSize (cfg.subSize t.buf.size t.buf.offset) opcodeEnd.length ↔
          remaining.toNat + s.buf.offset + 2 = s.buf.size := by
      have hM := cfg.sizeMod_cases
      have hlt := remaining.toNat_lt
      have hoff : t.buf.offset = s.buf.offset + 1 := ht.1.offset
      have hle := t.buf.offset_le_size
      have hsize := ht.1.size
      rw [show opcodeEnd.length = 1 from rfl, cfg.subSize_of_le hle (by omega)]
      rcases Nat.lt_or_ge (t.buf.size - t.buf.offset) 1 with h | h
      · rw [cfg.subSize_of_lt h (by omega)]
        omega
      · rw [cfg.subSize_of_le h (by omega)]
        omega
    constructor
    · rintro ⟨name, hname, remaining, hne, hlen, hM⟩
      obtain ⟨t, ht, hu⟩ := (moves_comp (f := id) (g := fun tx => tx.setMethodName
        ⟨some (s.buf.offset + 2), tx.method.name.type, name.length⟩)).mpr hM
      refine ⟨remaining, t, ⟨_, rfl, ht⟩, ⟨hne, (hremaining ht).mpr hlen⟩, ⟨name, hname⟩, ?_⟩
      rw [ht.1.offset]
      exact hu
    · rintro ⟨remaining, t, ⟨_, hbs, ht⟩, ⟨hne, hlen⟩, ⟨name, hname⟩, hu⟩
      subst hbs
      rw [ht.1.offset] at hu
      exact ⟨name, hname, remaining, hne, (hremaining ht).mp hlen, moves_comp.mp ⟨t, ht, hu⟩⟩

end

end AppOnt
