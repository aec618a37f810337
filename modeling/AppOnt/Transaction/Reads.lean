import AppOnt.Library.Recognizer
import AppOnt.Transaction.Format
import AppOnt.Transaction.Parse

/-!
# What the parameter parsers accept

`Reads i ts s t` says that the parser goes from `s` to `t` over the tokens `ts`
and stores their parameters from index `i` on. Each parser of `parse.c` succeeds
exactly on the tokens of its part of the format.
-/
namespace AppOnt

open Prog Token

/-- From `s` to `t`, reading `bs` and changing the transaction by `f`. -/
def Moves (bs : List UInt8) (f : Transaction → Transaction) (s t : ParserState) : Prop :=
  s.buf.Consumes bs t.buf ∧ t.tx = f s.tx

theorem moves_comp {u v : List UInt8} {f g : Transaction → Transaction} {s r : ParserState} :
    (∃ t, Moves u f s t ∧ Moves v g t r) ↔ Moves (u ++ v) (fun tx => g (f tx)) s r := by
  constructor
  · rintro ⟨t, ⟨hb, ht⟩, hc, hr⟩
    exact ⟨hb.trans hc, by rw [hr, ht]⟩
  · rintro ⟨h, hr⟩
    obtain ⟨c, hb, hc⟩ := Buffer.consumes_append.mp h
    exact ⟨⟨c, f s.tx⟩, ⟨hb, rfl⟩, hc, hr⟩

theorem onBuf_returns {α : Type} {x : BufferM Bool} {e : α → List UInt8} {s : ParserState}
    (h : Returns x s.buf true fun b => ∃ a, s.buf.Consumes (e a) b) :
    Returns (onBuf x) s true fun t => ∃ a, Moves (e a) id s t := by
  refine h.within.congr fun t => ?_
  constructor
  · rintro ⟨a, hb, ht⟩
    exact ⟨t.buf, ⟨a, hb⟩, ParserState.ext rfl ht⟩
  · rintro ⟨b, ⟨a, hb⟩, ht⟩
    subst ht
    exact ⟨a, hb, rfl⟩

theorem onBuf_delivers {α : Type} {x : BufferM (Option α)} {P : List UInt8 → α → Prop}
    {s : ParserState}
    (h : Delivers x s.buf fun v b => ∃ bs, P bs v ∧ s.buf.Consumes bs b) :
    Delivers (onBuf x) s fun v t => ∃ bs, P bs v ∧ Moves bs id s t := by
  refine h.within.congr fun v t => ?_
  constructor
  · rintro ⟨bs, hP, hb, ht⟩
    exact ⟨t.buf, ⟨bs, hP, hb⟩, ParserState.ext rfl ht⟩
  · rintro ⟨b, ⟨bs, hP, hb⟩, ht⟩
    subst ht
    exact ⟨bs, hP, hb, rfl⟩

/-- A parser of one parameter, wherever the parameter is stored. -/
theorem intoField_returns {α : Type} {parse : TxParameter → BufferM (Bool × TxParameter)}
    {e : α → List UInt8} {q : α → Nat → TxParameter → TxParameter}
    (h : ∀ out b p, Returns (parse out) b (true, p) fun b' => ∃ a,
      b.Consumes (e a) b' ∧ p = q a b.offset out)
    (field : Transaction → TxParameter) (put : Transaction → TxParameter → Transaction)
    (s : ParserState) :
    Returns (intoField field put parse) s true fun t => ∃ a,
      Moves (e a) (fun tx => put tx (q a s.buf.offset (field tx))) s t := by
  have hrun := ensures_of_returns (h (field s.tx) s.buf)
  simp only [Returns, intoField, AppOnt.onBuf, ensures_bind, ensures_get, ensures_within,
    ensures_modify, ensures_pure, Moves]
  refine hrun.mono fun r t hr u => ?_
  obtain ⟨ok, p⟩ := r
  simp only [Prod.mk.injEq] at hr
  constructor
  · rintro ⟨a, hb, ht⟩
    obtain ⟨⟨hok, hp⟩, hbuf⟩ := (hr _ u.buf).mp ⟨a, hb, rfl⟩
    exact ⟨hok, ParserState.ext hbuf (by rw [ht, hp])⟩
  · rintro ⟨hok, hu⟩
    subst hu
    obtain ⟨a, hb, hp⟩ := (hr p t).mpr ⟨⟨hok, rfl⟩, rfl⟩
    exact ⟨a, hb, by rw [← hp]⟩

/-- From `s` to `t`, reading `ts` and storing its parameters from index `i` on. -/
def Reads (i : Nat) (ts : List Token) (s t : ParserState) : Prop :=
  Moves (encode ts) (fun tx => tx.setParameters
    (storeParameters tx.method.parameters i (layout s.buf.offset ts))) s t

@[simp] theorem reads_nil {i : Nat} {s t : ParserState} : Reads i [] s t ↔ t = s := by
  simp only [Reads, Moves, encode_nil, Buffer.consumes_nil, layout, storeParameters]
  constructor
  · intro h
    exact ParserState.ext h.1 h.2
  · intro h
    subst h
    exact ⟨rfl, rfl⟩

theorem reads_append {i : Nat} {u v : List Token} {s t : ParserState} :
    Reads i (u ++ v) s t ↔ ∃ r, Reads i u s r ∧ Reads (i + slots u) v r t := by
  simp only [Reads, Moves, encode_append, layout_append, storeParameters_append, length_layout]
  constructor
  · rintro ⟨hb, ht⟩
    obtain ⟨c, hc, hd⟩ := Buffer.consumes_append.mp hb
    refine ⟨⟨c, s.tx.setParameters _⟩, ⟨hc, rfl⟩, hd, ?_⟩
    rw [ht, hc.offset]
    rfl
  · rintro ⟨r, ⟨hb, hr⟩, hd, ht⟩
    refine ⟨Buffer.consumes_append.mpr ⟨r.buf, hb, hd⟩, ?_⟩
    rw [ht, hr, hb.offset]
    rfl

theorem reads_mark {i : Nat} {bs : List UInt8} {s t : ParserState} :
    Reads i [.mark bs] s t ↔ s.buf.Consumes bs t.buf ∧ t.tx = s.tx := by
  simp [Reads, Moves, bytes, layout, storeParameters, Transaction.setParameters]

theorem reads_value {i : Nat} {type : TxParameterType} {lead data : List UInt8}
    {s t : ParserState} :
    Reads i [.value type lead data] s t ↔ s.buf.Consumes (lead ++ data) t.buf ∧
      t.tx = s.tx.setParameters (Function.update s.tx.method.parameters i
        ⟨some (s.buf.offset + lead.length), type, data.length⟩) := by
  simp [Reads, Moves, bytes, layout, storeParameters]

/-- From any state `x` succeeds exactly by reading the tokens of some value. -/
def Decodes {α : Type} (x : ParseM Bool) (i : Nat) (tokens : α → List Token) : Prop :=
  ∀ s, Returns x s true fun t => ∃ a, Reads i (tokens a) s t

theorem Decodes.and {α β : Type} {x y : ParseM Bool} {i j : Nat} {u : α → List Token}
    {v : β → List Token} (hx : Decodes x i u) (hy : Decodes y j v)
    (hj : ∀ a, j = i + slots (u a)) :
    Decodes (x <&&> y) i fun p : α × β => u p.1 ++ v p.2 := by
  intro s
  refine ((hx s).and fun t _ => hy t).congr fun t => ?_
  constructor
  · rintro ⟨p, hp⟩
    obtain ⟨r, hu, hv⟩ := reads_append.mp hp
    exact ⟨r, ⟨p.1, hu⟩, p.2, by rwa [hj p.1]⟩
  · rintro ⟨r, ⟨a, hu⟩, b, hv⟩
    exact ⟨(a, b), reads_append.mpr ⟨r, hu, by rwa [← hj a]⟩⟩

/-- The same tokens under another parametrization. -/
theorem Decodes.reindex {α β : Type} {x : ParseM Bool} {i : Nat} {u : α → List Token}
    {v : β → List Token} (h : Decodes x i u) (f : β → α) (g : α → β)
    (hf : ∀ b, v b = u (f b)) (hg : ∀ a, v (g a) = u a) : Decodes x i v := by
  intro s
  refine (h s).congr fun t => ?_
  constructor
  · rintro ⟨b, hb⟩
    exact ⟨f b, by rwa [← hf b]⟩
  · rintro ⟨a, ha⟩
    exact ⟨g a, by rwa [hg a]⟩

/-- The index after what was read. -/
theorem Decodes.deliver {α : Type} {x : ParseM Bool} {i n : Nat} {u : α → List Token}
    (h : Decodes x i u) (hn : ∀ a, slots (u a) = n) (s : ParserState) (cur : Nat) :
    Returns (do if ← x then return some (i + n) else return none) s (some cur) fun t =>
      ∃ a, cur = i + slots (u a) ∧ Reads i (u a) s t :=
  ((h s).deliver _ _).congr fun t => by simp [hn]

theorem Decodes.onBuf {α : Type} {x : BufferM Bool} {enc : α → List UInt8} (i : Nat)
    (h : ∀ b, Returns x b true fun b' => ∃ a, b.Consumes (enc a) b') :
    Decodes (onBuf x) i fun a => [.mark (enc a)] := by
  intro s
  refine (onBuf_returns (h s.buf)).congr fun t => ?_
  simp [reads_mark, Moves]

/-- A parser of one parameter, stored inside the array. -/
theorem Decodes.intoParameter {α : Type} {cfg : Config} {j : Nat}
    {parse : TxParameter → BufferM (Bool × TxParameter)} {type : TxParameterType}
    {lead data : α → List UInt8} (hj : j < cfg.parametersMaxNum)
    (h : ∀ out b p, Returns (parse out) b (true, p) fun b' => ∃ a,
      b.Consumes (lead a ++ data a) b' ∧
        p = ⟨some (b.offset + (lead a).length), type, (data a).length⟩) :
    Decodes (intoParameter cfg j parse) j fun a => [.value type (lead a) (data a)] := by
  intro s
  simp only [AppOnt.intoParameter, not_le.mpr hj, if_false]
  refine (intoField_returns (q := fun a off _ => ⟨some (off + (lead a).length), type,
    (data a).length⟩) h _ _ s).congr fun t => ?_
  simp [reads_value, Moves]

/-- The 64-bit decoder reads a short amount, and refuses a longer one. -/
theorem convertParamToUint64Le_encode {raw : List UInt8} {k : Nat} (a : AmountCode)
    (h : readPtr raw (some k) a.encode.length = .ok a.encode) :
    convertParamToUint64Le raw ⟨some k, .amount, a.encode.length⟩ =
      .ok a.uint64? := by
  cases a with
  | zero =>
    change readPtr raw (some k) 1 = _ at h
    simp [convertParamToUint64Le, AmountCode.encode, h, AmountCode.uint64?, bind,
      Except.bind, pure, Except.pure]
  | push n =>
    change readPtr raw (some k) 1 = .ok [_] at h
    have hn : (81 + n.1) % 256 = 81 + n := Nat.mod_eq_of_lt (by omega)
    simp only [convertParamToUint64Le, AmountCode.encode, h, opcodePushNumber, AmountCode.uint64?, bind, Except.bind, pure, Except.pure, List.headD_cons, UInt8.toNat_ofNat',
      List.length_singleton, Nat.reducePow, Nat.reduceAdd, hn]
    rw [if_neg (by simp), if_neg (by omega), if_neg (by omega), if_pos (by omega)]
    simp
    omega
  | bytes bs hne hle =>
    obtain ⟨h1, h2⟩ := (readPtr_append (u := [_])).mp h
    have hpos : 0 < bs.length := List.length_pos_iff.mpr hne
    have hn : bs.length % 256 = bs.length := Nat.mod_eq_of_lt (by omega)
    simp only [List.length_singleton] at h1 h2
    simp only [convertParamToUint64Le, AmountCode.encode, h1, opcodePushNumber, AmountCode.uint64?, bind, Except.bind, pure, Except.pure, List.headD_cons, UInt8.toNat_ofNat',
      List.length_cons, Nat.reducePow, Nat.reduceAdd, hn, Nat.add_sub_cancel, Option.map_some]
    by_cases hs : bs.length ≤ 8
    · rw [if_neg (by simp), if_neg (by omega), if_neg (by omega), if_neg (by omega),
        if_pos trivial, if_pos hs, convertBytesToUint64Le_eq hne hs h2]
    · rw [if_neg (by simp), if_pos (.inl (by omega)), if_neg hs]

theorem AmountCode.encode_eq (a : AmountCode) :
    ∃ amt bs, a.encode = amt :: bs ∧ amountLen amt.toNat = some (bs.length + 1) := by
  cases a with
  | zero => exact ⟨0, [], rfl, rfl⟩
  | push n =>
    have hn : (81 + n.1) % 256 = 81 + n := Nat.mod_eq_of_lt (by omega)
    refine ⟨_, [], rfl, ?_⟩
    simp [amountLen, opcodePushNumber, hn]
    omega
  | bytes bs hne hle =>
    have hpos : 0 < bs.length := List.length_pos_iff.mpr hne
    have hn : bs.length % 256 = bs.length := Nat.mod_eq_of_lt (by omega)
    refine ⟨_, bs, rfl, ?_⟩
    simp only [amountLen, opcodePushNumber, UInt8.toNat_ofNat', Nat.reducePow, hn]
    rw [if_neg (by omega), if_neg (by omega)]

theorem AmountCode.exists_encode {amt : UInt8} {bs : List UInt8}
    (h : amountLen amt.toNat = some (bs.length + 1)) : ∃ a : AmountCode, a.encode = amt :: bs := by
  unfold amountLen opcodePushNumber at h
  split at h
  · rename_i hc
    simp only [Option.some.injEq] at h
    have hbs : bs = [] := List.length_eq_zero_iff.mp (by omega)
    subst hbs
    rcases hc with hc | hc
    · refine ⟨.push ⟨amt.toNat - 81, by omega⟩, ?_⟩
      rw [AmountCode.encode, show opcodePushNumber + 1 + (amt.toNat - 81) = amt.toNat by
        simp only [opcodePushNumber]; omega, UInt8.ofNat_toNat]
    · exact ⟨.zero, by rw [AmountCode.encode, show amt = 0 from UInt8.toNat_inj.mp hc]⟩
  · rename_i hc
    split at h
    · cases h
    · have hl : bs.length = amt.toNat := by simpa using h.symm
      have hne : bs ≠ [] := fun h => hc (.inr (by simp [← hl, h]))
      exact ⟨.bytes bs hne (by omega), by rw [AmountCode.encode, hl, UInt8.ofNat_toNat]⟩

section
variable [BufferSdk] (b : Buffer)

theorem parseCheckConstant_returns (str : List UInt8) :
    Returns (parseCheckConstant str) b true fun b' => b.Consumes str b' := by
  refine ((bufferCanRead_returns b str.length).and fun t ⟨hn, ht⟩ =>
    (returns_get_bind.mpr (memcmpAt_returns (by
      subst ht; have := t.offset_add_length_rest; omega))).and fun r _ =>
    bufferSeekCur_returns r str.length).congr fun u => ?_
  constructor
  · intro h
    exact ⟨b, ⟨h.length_le, rfl⟩, b, ⟨h.take, rfl⟩, str, rfl, h⟩
  · rintro ⟨t, ⟨_, ht⟩, r, ⟨hs, hr⟩, bs, hl, hc⟩
    subst ht hr
    have := hc.take
    rw [hl, hs] at this
    rwa [this]

variable {b} in
/-- The parameter left by skipping `n` bytes after `lead`. -/
theorem seekOver_returns {lead : List UInt8} {c : Buffer} (hc : b.Consumes lead c) (n : Nat)
    (type : TxParameterType) (p : TxParameter) :
    Returns (do return (← bufferSeekCur n, ⟨some c.offset, type, n⟩)) c (true, p) fun b' =>
      ∃ data : Bytes n, b.Consumes (lead ++ data.1) b' ∧
        p = ⟨some (b.offset + lead.length), type, data.1.length⟩ := by
  refine ((bufferSeekCur_returns c n).pair _ _).congr fun u => ?_
  rw [hc.offset]
  constructor
  · rintro ⟨⟨data, hl⟩, hu, hp⟩
    obtain ⟨c', hc', hd⟩ := Buffer.consumes_append.mp hu
    have := hc'.unique hc
    subst this
    exact ⟨⟨data, hl, hd⟩, by rw [hp, hl]⟩
  · rintro ⟨⟨data, hl, hd⟩, hp⟩
    exact ⟨⟨data, hl⟩, hc.trans hd, by rw [← hp, hl]⟩

theorem parseAmount_returns (out p : TxParameter) :
    Returns (parseAmount out) b (true, p) fun b' => ∃ a : AmountCode,
      b.Consumes ([] ++ a.encode) b' ∧ p = ⟨some (b.offset + 0), .amount, a.encode.length⟩ := by
  refine Returns.congr (Delivers.bind (bufferReadU8_delivers b) (S := fun amt _ u => ∃ bs,
    amountLen amt.toNat = some (bs.length + 1) ∧ b.Consumes (amt :: bs) u ∧
    p = ⟨some b.offset, .amount, bs.length + 1⟩) (fun amt t ht => ?_)
    fun t => returns_pure_ne (by simp)) fun u => ?_
  · dsimp only
    cases hl : amountLen amt.toNat with
    | none => exact (returns_pure_ne (by simp)).congr (by simp)
    | some len =>
      have hpos : 0 < len := by
        unfold amountLen at hl
        split at hl
        · cases hl; omega
        · split at hl <;> cases hl; omega
      refine Returns.congr (returns_get_bind.mpr ((bufferSeekCur_returns t (len - 1)).pair _ _))
        fun u => ?_
      rw [ht.offset]
      constructor
      · rintro ⟨bs, hlen, hc, hp⟩
        obtain ⟨t', ht', hu⟩ := (Buffer.consumes_append (u := [_])).mp hc
        cases ht'.unique ht
        cases hlen
        exact ⟨⟨bs, by omega, hu⟩, hp.symm⟩
      · rintro ⟨⟨bs, hbs, hu⟩, hp⟩
        have hlen : len = bs.length + 1 := by omega
        subst hlen
        exact ⟨bs, rfl, ht.trans hu, hp.symm⟩
  · constructor
    · rintro ⟨a, hc, hp⟩
      obtain ⟨amt, bs, ha, hl⟩ := a.encode_eq
      rw [ha] at hc hp
      obtain ⟨t, ht, -⟩ := (Buffer.consumes_append (u := [_])).mp hc
      exact ⟨amt, t, ht, bs, hl, hc, hp⟩
    · rintro ⟨amt, t, ht, bs, hl, hc, hp⟩
      obtain ⟨a, ha⟩ := AmountCode.exists_encode hl
      exact ⟨a, by rwa [ha], by rw [hp, ha]; rfl⟩

theorem parseGetAmount_delivers :
    Delivers parseGetAmount b fun v b' => ∃ a : AmountCode, a.uint64? = some v ∧
      b.Consumes a.encode b' := by
  refine ensures_bind.mpr ((ensures_of_returns (parseAmount_returns b .zero)).mono
    fun r t hr => ?_)
  obtain ⟨ok, p⟩ := r
  cases ok with
  | false =>
    refine delivers_none.congr fun v u => iff_of_false (fun h => ?_) id
    obtain ⟨a, -, hc⟩ := h
    simpa using ((hr _ u).mp ⟨a, hc, rfl⟩).1
  | true =>
    obtain ⟨a, hc, hp⟩ := (hr p t).mpr ⟨rfl, rfl⟩
    subst hp
    rw [List.nil_append] at hc
    have ha := convertParamToUint64Le_encode a hc.readPtr
    -- Whatever code was read, the decoder saw its bytes.
    have huniq (a' : AmountCode) (u : Buffer) (hc' : b.Consumes a'.encode u) :
        a'.uint64? = a.uint64? ∧ u = t := by
      obtain ⟨⟨-, hp⟩, hu⟩ : (true = true ∧ _) ∧ u = t := by
        simpa only [Prod.mk.injEq] using (hr _ u).mp ⟨a', hc', rfl⟩
      have hlen : a.encode.length = a'.encode.length := congrArg TxParameter.len hp
      have hbytes : a.encode = a'.encode := by rw [← hc.take, ← hc'.take, hlen]
      have ha' := convertParamToUint64Le_encode a' hc'.readPtr
      rw [← hbytes, ha] at ha'
      exact ⟨by simpa using ha'.symm, hu⟩
    simp only [Nat.add_zero, if_true, ensures_bind, ensures_get, ensures_ofExcept, hc.1, ha]
    refine ⟨_, rfl, fun v u => ?_⟩
    constructor
    · rintro ⟨a', hv, hc'⟩
      obtain ⟨ha', hu⟩ := huniq a' u hc'
      exact ⟨ha' ▸ hv, hu⟩
    · rintro ⟨hv, hu⟩
      subst hu
      exact ⟨a, hv, hc⟩

theorem parseCheckAmount_returns (num : Nat) :
    Returns (parseCheckAmount num) b true fun b' => ∃ c : Count num,
      b.Consumes c.code.encode b' := by
  refine Returns.congr (Delivers.bind (parseGetAmount_delivers b) (fun v t _ =>
    returns_pure true (decide (v = num))) fun t => returns_pure_ne (by simp)) fun u => ?_
  constructor
  · rintro ⟨c, hc⟩
    exact ⟨num, u, ⟨c.code, c.value_eq, hc⟩, by simp, rfl⟩
  · rintro ⟨v, t, ⟨a, ha, hc⟩, hv, hu⟩
    subst hu
    obtain rfl : v = num := by simpa using hv
    exact ⟨⟨a, ha⟩, hc⟩

theorem parseUint128_returns (out p : TxParameter) :
    Returns (parseUint128 out) b (true, p) fun b' => ∃ n : Bytes 16,
      b.Consumes ([] ++ n.1) b' ∧ p = ⟨some (b.offset + 0), .uint128, n.1.length⟩ := by
  refine ((bufferCanRead_returns b 16).tested (fun _ => returns_get_bind.mpr
    (seekOver_returns (Buffer.consumes_nil.mpr rfl) 16 .uint128 p)) (by simp)).congr fun u => ?_
  refine ⟨fun h => ⟨?_, h⟩, fun h => h.2⟩
  obtain ⟨n, hc, -⟩ := h
  simpa [n.2] using hc.length_le

theorem parsePk_returns (out p : TxParameter) :
    Returns (parsePk out) b (true, p) fun b' => ∃ key : Bytes (2 * compressedKeyLen),
      b.Consumes ([0x42] ++ key.1) b' ∧ p = ⟨some (b.offset + 1), .pubkey, key.1.length⟩ := by
  refine Returns.congr (Delivers.bind (bufferReadU8_delivers b) (fun size t ht =>
    ((returns_guard _).andTest fun _ => bufferCanRead_returns t _).tested (fun _ =>
      returns_get_bind.mpr (seekOver_returns ht size.toNat .pubkey p)) (by simp))
    fun t => returns_pure_ne (by simp)) fun u => ?_
  constructor
  · rintro ⟨key, hc, hp⟩
    obtain ⟨t, ht, hu⟩ := Buffer.consumes_append.mp hc
    exact ⟨0x42, t, ht, ⟨rfl, by simpa [key.2] using hu.length_le⟩, key, hc, hp⟩
  · rintro ⟨size, t, ht, ⟨hs, _⟩, key, hc, hp⟩
    have : size = 0x42 := UInt8.toNat_inj.mp hs
    subst this
    exact ⟨key, hc, hp⟩

theorem parseAddress_returns (hasLength : Bool) (out p : TxParameter) :
    Returns (parseAddress hasLength out) b (true, p) fun b' =>
      ∃ a : Bytes addressScriptHashLen,
        b.Consumes ((if hasLength then [0x14] else []) ++ a.1) b' ∧
          p = ⟨some (b.offset + (if hasLength then [(0x14 : UInt8)] else []).length), .addr,
            a.1.length⟩ := by
  have hlead (c : Buffer) : Returns (if hasLength then do return (← bufferReadU8) == some 20
      else return true) c true fun t => c.Consumes (if hasLength then [0x14] else []) t := by
    cases hasLength with
    | false => simpa using returns_pure true true
    | true => exact (bufferReadU8_delivers c).beq 20
  have htest := (bufferCanRead_returns b
    (addressScriptHashLen + if hasLength then 1 else 0)).and fun t _ => hlead t
  refine Returns.congr (htest.guarded (fun t ⟨c, ⟨_, hc⟩, ht⟩ =>
    returns_get_bind.mpr (seekOver_returns (hc ▸ ht) _ .addr p)) (by simp)) fun u => ?_
  constructor
  · rintro ⟨a, hc, hp⟩
    obtain ⟨t, ht, hu⟩ := Buffer.consumes_append.mp hc
    have := hc.length_le
    refine ⟨t, ⟨b, ⟨?_, rfl⟩, ht⟩, a, hc, hp⟩
    cases hasLength <;> simp [a.2] at this ⊢ <;> omega
  · rintro ⟨t, _, a, hc, hp⟩
    exact ⟨a, hc, hp⟩

theorem parseOntId_returns :
    Returns parseOntId b true fun b' => ∃ id : List UInt8, (id ≠ [] ∧ id.length < 256) ∧
      b.Consumes (UInt8.ofNat id.length :: id) b' := by
  refine Returns.congr (Delivers.bind (bufferReadU8_delivers b) (fun size t ht =>
    (returns_guard _).and fun r hr => bufferSeekCur_returns r size.toNat)
    fun t => returns_pure_ne (by simp)) fun u => ?_
  constructor
  · rintro ⟨id, ⟨hne, hl⟩, hc⟩
    obtain ⟨t, ht, hu⟩ := (Buffer.consumes_append (u := [_])).mp hc
    have hs : (UInt8.ofNat id.length).toNat = id.length := UInt8.toNat_ofNat_of_lt' hl
    exact ⟨_, t, ht, t, ⟨by simpa [hs] using hne, rfl⟩, id, hs.symm, hu⟩
  · rintro ⟨size, t, ht, r, ⟨hs, hr⟩, id, hl, hc⟩
    subst hr
    have hlt := size.toNat_lt
    refine ⟨id, ⟨?_, by omega⟩, ?_⟩
    · intro h
      simp [h] at hl
      omega
    · rw [hl, UInt8.ofNat_toNat]
      exact ht.trans hc

theorem parseMethodName_returns (out p : TxParameter) :
    Returns (parseMethodName out) b (true, p) fun b' => ∃ name : List UInt8,
      (name ≠ [] ∧ name.length < 256) ∧ b.Consumes (UInt8.ofNat name.length :: name) b' ∧
        p = ⟨some (b.offset + 1), out.type, name.length⟩ := by
  refine Returns.congr (Delivers.bind (bufferReadU8_delivers b) (fun size t ht =>
    ((returns_guard _).andTest fun _ => bufferCanRead_returns t _).tested (fun _ =>
      returns_get_bind.mpr (seekOver_returns ht size.toNat _ p)) (by simp))
    fun t => returns_pure_ne (by simp)) fun u => ?_
  constructor
  · rintro ⟨name, ⟨hne, hl⟩, hc, hp⟩
    obtain ⟨t, ht, hu⟩ := (Buffer.consumes_append (u := [_])).mp hc
    have hs : (UInt8.ofNat name.length).toNat = name.length := UInt8.toNat_ofNat_of_lt' hl
    exact ⟨_, t, ht, ⟨by simpa [hs] using hne, by rw [hs]; exact hu.length_le⟩, ⟨name, hs.symm⟩, hc, hp⟩
  · rintro ⟨size, t, ht, ⟨hs, _⟩, ⟨name, hl⟩, hc, hp⟩
    have hlt := size.toNat_lt
    refine ⟨name, ⟨?_, by omega⟩, ?_, hp⟩
    · intro h
      simp [h] at hl
      omega
    · rwa [hl, UInt8.ofNat_toNat]

end
end AppOnt
