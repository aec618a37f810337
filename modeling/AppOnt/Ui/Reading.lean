import AppOnt.Library.Decimal
import AppOnt.Ui.Content

/-!
# Reviews that read the same

The screen shows a text up to its first NUL. Reviews that read the same are of
calls with the same parameters, for the calls whose review tells all of them: not
the registration of a candidate, whose identity and last amount have no row, and no
list of more than three nodes.
-/
namespace AppOnt

open Prog Token
open Memory (cString cString_of_not_mem eq_of_cString)

namespace Display

/-- The text behind `ptr` is read as `text`. -/
def Reads (d : Display) (ptr : CharPtr) (text : List UInt8) : Prop :=
  match ptr with
  | .null => False
  | .literal s => text = cString (chars s)
  | .buffer pos => d.buffers.IsString pos text

def ReadsRow (d : Display) (pair : TagValue) (row : Row) : Prop :=
  d.Reads pair.item row.label ∧ d.Reads pair.value row.value

def ReadsRows (d : Display) : List TagValue → List Row → Prop := List.Forall₂ d.ReadsRow

end Display

/-- What is read of a row. -/
def Row.seen (row : Row) : Row := ⟨cString row.label, cString row.value⟩

namespace Display

variable {d : Display} {ptr : CharPtr} {text text' : List UInt8} {pairs : List TagValue}
  {pairs' : List TagValue} {rows rows' : List Row}

theorem Reads.eq_cString (h : d.Reads ptr text') (htells : d.Tells ptr text) : text' = cString text := by
  cases ptr with
  | null => exact h.elim
  | literal s => exact h.trans (congrArg cString htells.symm)
  | buffer pos => exact Memory.IsString.unique h (Memory.Holds.isString_cString htells)

/-- What is said is read in one way only. -/
theorem ReadsRows.eq_seen (h : d.ReadsRows pairs rows') (htells : d.TellsRows pairs rows) :
    rows' = rows.map Row.seen := by
  induction htells generalizing rows' with
  | nil =>
    cases h
    rfl
  | cons htells _ ih =>
    obtain _ | ⟨hrow, hrest⟩ := h
    rw [List.map_cons, ← ih hrest]
    exact congrArg (· :: _) (congrArg₂ Row.mk (hrow.1.eq_cString htells.1) (hrow.2.eq_cString htells.2))

/-- What is said can be read. -/
theorem TellsRows.reads (h : d.TellsRows pairs rows) : d.ReadsRows pairs (rows.map Row.seen) := by
  have hreads : ∀ {ptr : CharPtr} {text : List UInt8}, d.Tells ptr text → d.Reads ptr (cString text) := by
    intro ptr text htells
    cases ptr with
    | null => exact htells.elim
    | literal s => exact congrArg cString htells
    | buffer pos => exact Memory.Holds.isString_cString htells
  exact List.forall₂_map_right_iff.mpr (h.imp fun _ _ hrow => ⟨hreads hrow.1, hreads hrow.2⟩)

theorem ReadsRows.split (h : d.ReadsRows (pairs ++ pairs') rows) : ∃ rows₁ rows₂,
    rows = rows₁ ++ rows₂ ∧ d.ReadsRows pairs rows₁ ∧ d.ReadsRows pairs' rows₂ := by
  induction pairs generalizing rows with
  | nil => exact ⟨[], rows, rfl, .nil, h⟩
  | cons pair pairs ih =>
    obtain _ | ⟨hrow, hrest⟩ := h
    obtain ⟨rows₁, rows₂, rfl, h₁, h₂⟩ := ih hrest
    exact ⟨_ :: rows₁, rows₂, rfl, .cons hrow h₁, h₂⟩

end Display

/-- What a parameter stands for, whichever way an amount is encoded. -/
def fieldValue (f : TxParameterType × List UInt8) : List UInt8 ⊕ Nat :=
  match f.1 with
  | .amount => .inr (amountValue f.2)
  | .uint128 => .inr (leNat f.2)
  | _ => .inl f.2

namespace Call

variable (c : Call)

/-- The values of the parameters, in their order. -/
def values : List (List UInt8 ⊕ Nat) := (fields c.arguments.tokens).map fieldValue

/-- The review of the call has a row for every parameter, and no key ends early. -/
structure Told : Prop where
  register : chars methodRegisterCandidate ≠ c.name
  nodes : .pkAmountPairs ∈ c.method.parameters →
    c.vm = .native ∧ c.arguments.nodes.length ≤ maxPubkeyDisplay
  keys : ∀ key, (.pubkey, key) ∈ fields c.arguments.tokens → (0 : UInt8) ∉ key

/-- The calls are of one method of one contract, laid out for one machine. -/
structure SameMethod (c' : Call) : Prop where
  vm : c.vm = c'.vm
  payload : c.payload = c'.payload
  method : c.method = c'.method

end Call

/-- The fee of a transaction. -/
def Header.fee (h : Header) : Nat := leNat h.gasPrice.1 * leNat h.gasLimit.1

/-- In ONG, without trailing zeros, the fee takes at most twelve characters. -/
def ShortFee (fee : Nat) : Prop := ∃ k ≤ 9, 10 ^ k ∣ fee ∧ fee < 10 ^ (11 + k)

section
variable [CryptoSdk] [FormatSdk] {c c' : Call}

theorem addressText_inj [FormatSdk.StandardBase58] {outLen : Nat} {a a' text : List UInt8}
    (ha : a.length = addressScriptHashLen) (ha' : a'.length = addressScriptHashLen)
    (h : addressText outLen a = some text) (h' : addressText outLen a' = some text) : a = a' := by
  obtain ⟨sum, hsum, henc⟩ := Option.bind_eq_some_iff.mp h
  obtain ⟨sum', hsum', henc'⟩ := Option.bind_eq_some_iff.mp h'
  rw [FormatSdk.StandardBase58.base58Encode_eq] at henc henc'
  obtain ⟨-, henc⟩ := Option.ite_none_right_eq_some.mp henc
  obtain ⟨-, henc'⟩ := Option.ite_none_right_eq_some.mp henc'
  have hlen : (a ++ sum).length = (a' ++ sum').length := by
    rw [List.length_append, List.length_append, ha, ha', addressChecksum_length hsum,
      addressChecksum_length hsum']
  have hcons := Base58.encode_inj (by decide) (by decide) hlen
    (Option.some.inj (henc.trans henc'.symm))
  exact List.append_inj_left (List.cons.inj hcons).2 (ha.trans ha'.symm)

omit [CryptoSdk] [FormatSdk] in
theorem amountText_inj (h : c.SameMethod c') {n n' : Nat} (heq : c.amountText n = c'.amountText n') :
    n = n' := by
  have hdec : c.decimals = c'.decimals := by
    rw [Call.decimals, Call.decimals, h.vm, h.payload, h.method]
  have hunit : c.unit = c'.unit := by
    rw [Call.unit, Call.unit, Call.name, Call.name, h.payload, h.method]
  rw [Call.amountText, Call.amountText, hdec, hunit] at heq
  have htrimmed := List.append_cancel_right heq
  exact (trimmed_isDecimal n c'.decimals).unique (htrimmed ▸ trimmed_isDecimal n' c'.decimals)

/-- Parameters of one type that read the same have the same value. -/
theorem fieldText_inj [FormatSdk.StandardBase58] (h : c.SameMethod c') {type : TxParameterType}
    {data data' text text' : List UInt8} (hvalid : Valid (type, data)) (hvalid' : Valid (type, data'))
    (hkey : type = .pubkey → (0 : UInt8) ∉ data) (htext : c.fieldText (type, data) = some text)
    (htext' : c'.fieldText (type, data') = some text') (hseen : cString text = cString text') :
    fieldValue (type, data) = fieldValue (type, data') := by
  cases type with
  | addr =>
    have hspec := addressText_spec hvalid (by decide) htext
    have hspec' := addressText_spec hvalid' (by decide) htext'
    rw [cString_of_not_mem hspec.2, cString_of_not_mem hspec'.2] at hseen
    subst hseen
    exact congrArg Sum.inl (addressText_inj hvalid hvalid' htext htext')
  | pubkey =>
    obtain rfl := Option.some.inj htext
    obtain rfl := Option.some.inj htext'
    rw [cString_of_not_mem (hkey rfl)] at hseen
    exact congrArg Sum.inl (eq_of_cString hseen.symm (hvalid.trans hvalid'.symm))
  | amount =>
    obtain ⟨-, htext⟩ := Option.ite_none_left_eq_some.mp htext
    obtain ⟨-, htext'⟩ := Option.ite_none_left_eq_some.mp htext'
    obtain rfl := Option.some.inj htext
    obtain rfl := Option.some.inj htext'
    rw [cString_of_not_mem (zero_not_mem_amountText _ _),
      cString_of_not_mem (zero_not_mem_amountText _ _)] at hseen
    exact congrArg Sum.inr (amountText_inj h hseen)
  | uint128 =>
    obtain ⟨-, htext⟩ := Option.ite_none_right_eq_some.mp htext
    obtain ⟨-, htext'⟩ := Option.ite_none_right_eq_some.mp htext'
    obtain rfl := Option.some.inj htext
    obtain rfl := Option.some.inj htext'
    rw [cString_of_not_mem (zero_not_mem_amountText _ _),
      cString_of_not_mem (zero_not_mem_amountText _ _)] at hseen
    exact congrArg Sum.inr (amountText_inj h hseen)
  | _ => exact hvalid.elim

/-- Parameters that read the same have the same value. -/
theorem value_eq_of_text [FormatSdk.StandardBase58] (h : c.SameMethod c') (ht : c.Told) {k : Nat}
    {f f' : TxParameterType × List UInt8} (hf : (fields c.arguments.tokens)[k]? = some f)
    (hf' : (fields c'.arguments.tokens)[k]? = some f') (htype : f.1 = f'.1)
    (hsome : (c.paramText k).isSome) (hsome' : (c'.paramText k).isSome)
    (hseen : cString (c.text k) = cString (c'.text k)) : fieldValue f = fieldValue f' := by
  obtain ⟨text, htext⟩ := Option.isSome_iff_exists.mp hsome
  obtain ⟨text', htext'⟩ := Option.isSome_iff_exists.mp hsome'
  rw [Call.text, Call.text, htext, htext'] at hseen
  rw [Call.paramText, hf] at htext
  rw [Call.paramText, hf'] at htext'
  obtain ⟨type, data⟩ := f
  obtain ⟨type', data'⟩ := f'
  obtain rfl : type = type' := htype
  refine fieldText_inj h (c.arguments.fields_valid _ (List.mem_of_getElem? hf))
    (c'.arguments.fields_valid _ (List.mem_of_getElem? hf')) (fun hkey => ?_) htext htext' hseen
  subst hkey
  exact ht.keys data (List.mem_of_getElem? hf)

/-- Calls with the same types of parameters, all of which read the same, have the same values. -/
theorem values_ext [FormatSdk.StandardBase58] (h : c.SameMethod c') (ht : c.Told)
    (htypes : (fields c.arguments.tokens).map (·.1) = (fields c'.arguments.tokens).map (·.1))
    (hsome : ∀ k < slots c.arguments.tokens, (c.paramText k).isSome)
    (hsome' : ∀ k < slots c.arguments.tokens, (c'.paramText k).isSome)
    (hseen : ∀ k < slots c.arguments.tokens, cString (c.text k) = cString (c'.text k)) :
    c.values = c'.values := by
  have hlen : (fields c.arguments.tokens).length = (fields c'.arguments.tokens).length := by
    simpa using congrArg List.length htypes
  refine List.ext_getElem (by simpa [Call.values] using hlen) fun k hk hk' => ?_
  simp only [Call.values, List.length_map] at hk hk'
  have htype : ((fields c.arguments.tokens)[k]).1 = ((fields c'.arguments.tokens)[k]).1 := by
    have hmap := congrArg (·[k]?) htypes
    simpa [hk, hk'] using hmap
  rw [length_fields] at hk
  simp only [Call.values, List.getElem_map]
  exact value_eq_of_text h ht (List.getElem?_eq_getElem _) (List.getElem?_eq_getElem _) htype
    (hsome k hk) (hsome' k hk) (hseen k hk)

variable {configs : List ParamConfig}

theorem configuredRows_seen (hperm : (configs.map (·.pos)).Perm (List.range configs.length))
    (h : (c.configuredRows configs).map Row.seen = (c'.configuredRows configs).map Row.seen) :
    ∀ i < configs.length, cString (c.text i) = cString (c'.text i) := by
  intro i hi
  rw [Call.configuredRows, Call.configuredRows, List.map_map, List.map_map, List.map_inj_left] at h
  have hget := List.getElem?_eq_getElem hi
  have hmem : configs[i].pos ∈ List.range configs.length :=
    hperm.mem_iff.mp (List.mem_map_of_mem (List.getElem_mem hi))
  have hrow := h _ hmem
  have hnodup := hperm.nodup_iff.mpr List.nodup_range
  rw [Function.comp_apply, Function.comp_apply, Call.configuredRow_eq hnodup hget,
    Call.configuredRow_eq hnodup hget] at hrow
  exact (Row.mk.inj hrow).2

theorem transferRows_seen (hperm : (configs.map (·.pos)).Perm (List.range configs.length))
    (hthree : configs.length = 3) {n : Nat} (hn : slots c.arguments.tokens = 3 * n)
    (h : (c.transferRows configs).map Row.seen = (c'.transferRows configs).map Row.seen) :
    slots c.arguments.tokens = slots c'.arguments.tokens ∧
      ∀ k < slots c.arguments.tokens, cString (c.text k) = cString (c'.text k) := by
  have hslots : slots c.arguments.tokens = slots c'.arguments.tokens := by
    simpa [Call.transferRows] using congrArg List.length h
  refine ⟨hslots, fun k hk => ?_⟩
  rw [Call.transferRows, Call.transferRows, ← hslots, List.map_map, List.map_map, List.map_inj_left] at h
  have hi : k % 3 < configs.length := by rw [hthree]; exact Nat.mod_lt k (by decide)
  have hget := List.getElem?_eq_getElem hi
  have hpos : configs[k % 3].pos < 3 := by
    have hmem := hperm.mem_iff.mp (List.mem_map_of_mem (List.getElem_mem hi))
    rw [hthree] at hmem
    exact List.mem_range.mp hmem
  have hrow := h (configs[k % 3].pos + 3 * (k / 3)) (List.mem_range.mpr (by omega))
  have hnodup := hperm.nodup_iff.mpr List.nodup_range
  rw [Function.comp_apply, Function.comp_apply, Nat.add_mul_mod_self_left, Nat.mod_eq_of_lt hpos,
    Nat.add_mul_div_left _ _ (by decide), Nat.div_eq_of_lt hpos, Nat.zero_add,
    Call.configuredRow_eq hnodup hget, Call.configuredRow_eq hnodup hget, Nat.mod_add_div] at hrow
  exact (Row.mk.inj hrow).2

omit [CryptoSdk] [FormatSdk] in
theorem length_listedRows (c : Call) (cfg : Config) (item : String)
    (nodes : List (Bytes (2 * compressedKeyLen) × AmountCode)) (i : Nat) :
    (c.listedRows cfg item nodes i).length =
      nodes.length * if c.arguments.nodes.length ≤ maxPubkeyDisplay then 2 else 1 := by
  induction nodes generalizing i with
  | nil => exact (Nat.zero_mul _).symm
  | cons node nodes ih =>
    have hrow : (c.nodeRows cfg item i node).length =
        if c.arguments.nodes.length ≤ maxPubkeyDisplay then 2 else 1 := by
      unfold Call.nodeRows
      split <;> rfl
    have hrest := ih (i + 1)
    unfold Call.listedRows at hrest ⊢
    rw [List.zipIdx_cons, List.flatMap_cons, List.length_append, hrest, hrow, List.length_cons,
      Nat.succ_mul nodes.length, Nat.add_comm]

/-- The value of a node: its key and its amount. -/
def nodeValue (node : Bytes (2 * compressedKeyLen) × AmountCode) : List UInt8 × Nat :=
  (node.1.1, node.2.value)

omit [CryptoSdk] [FormatSdk] in
/-- Short lists that read the same are of the same nodes. -/
theorem listedRows_seen (h : c.SameMethod c') {cfg : Config} {item : String}
    (hshort : c.arguments.nodes.length ≤ maxPubkeyDisplay)
    (hshort' : c'.arguments.nodes.length ≤ maxPubkeyDisplay)
    {nodes nodes' : List (Bytes (2 * compressedKeyLen) × AmountCode)}
    (hkeys : ∀ node ∈ nodes, (0 : UInt8) ∉ node.1.1) (i : Nat)
    (hseen : (c.listedRows cfg item nodes i).map Row.seen =
      (c'.listedRows cfg item nodes' i).map Row.seen) : nodes.map nodeValue = nodes'.map nodeValue := by
  have hlen := congrArg List.length hseen
  rw [List.length_map, List.length_map, length_listedRows, length_listedRows, if_pos hshort,
    if_pos hshort'] at hlen
  induction nodes generalizing nodes' i with
  | nil =>
    obtain rfl : nodes' = [] := List.length_eq_zero_iff.mp (by rw [List.length_nil] at hlen; omega)
    rfl
  | cons node nodes ih =>
    cases nodes' with
    | nil => exact absurd hlen (by rw [List.length_cons, List.length_nil]; omega)
    | cons node' nodes' =>
      unfold Call.listedRows at hseen
      rw [List.zipIdx_cons, List.zipIdx_cons, List.flatMap_cons, List.flatMap_cons, List.map_append,
        List.map_append] at hseen
      dsimp only [Call.nodeRows] at hseen
      rw [if_pos hshort, if_pos hshort'] at hseen
      simp only [List.map_cons, List.map_nil, List.cons_append, List.nil_append, List.cons.injEq,
        Row.seen, Row.mk.injEq] at hseen
      obtain ⟨⟨-, hkey⟩, ⟨-, hamount⟩, hrest⟩ := hseen
      rw [cString_of_not_mem (hkeys node List.mem_cons_self)] at hkey
      rw [cString_of_not_mem (zero_not_mem_amountText _ _),
        cString_of_not_mem (zero_not_mem_amountText _ _)] at hamount
      have hvalue : nodeValue node = nodeValue node' := Prod.ext
        (eq_of_cString hkey.symm (node.1.2.trans node'.1.2.symm)) (amountText_inj h hamount)
      rw [List.map_cons, List.map_cons, hvalue, ih (fun n hn => hkeys n (List.mem_cons_of_mem _ hn))
        (i + 1) hrest (by simpa using hlen)]

omit [CryptoSdk] [FormatSdk] in
/-- The rows of a short list are read as those of no other list. -/
theorem nodesRows_seen (h : c.SameMethod c') {cfg : Config} {item : String}
    (hshort : c.arguments.nodes.length ≤ maxPubkeyDisplay)
    (hkeys : ∀ node ∈ c.arguments.nodes, (0 : UInt8) ∉ node.1.1)
    (hseen : (c.nodesRows cfg item).map Row.seen = (c'.nodesRows cfg item).map Row.seen) :
    c.arguments.nodes.map nodeValue = c'.arguments.nodes.map nodeValue := by
  have hmax : maxPubkeyDisplay = 3 := rfl
  have hlen := congrArg List.length hseen
  unfold Call.nodesRows at hseen hlen
  rw [if_neg (Nat.not_lt.mpr hshort), List.append_nil, List.take_of_length_le hshort] at hseen hlen
  rw [List.length_map, List.length_map, List.length_append, length_listedRows, length_listedRows,
    List.length_take, if_pos hshort] at hlen
  -- a longer list has an odd number of rows
  have hshort' : c'.arguments.nodes.length ≤ maxPubkeyDisplay := by
    by_contra hlong
    rw [if_pos (Nat.lt_of_not_le hlong), if_neg hlong] at hlen
    simp only [List.length_cons, List.length_nil] at hlen
    omega
  rw [if_neg (Nat.not_lt.mpr hshort'), List.append_nil, List.take_of_length_le hshort'] at hseen
  exact listedRows_seen h hshort hshort' hkeys 0 hseen

end

/-- Every parameter has a row, but in a registration and in lists. -/
theorem configs_complete (cfg : Config) (vm : Vm) : ∀ p ∈ getTxPayload, ∀ m ∈ p.methods,
    ∀ display ∈ displayOf cfg vm.contractType (chars m.name), m.parameters ≠ [.transferStateList] →
      .pkAmountPairs ∉ m.parameters → chars methodRegisterCandidate ≠ chars m.name →
      display.configs.length = (fixedTypes m.parameters).length := by
  simp only [displayOf_target cfg]
  cases cfg.target <;> cases vm <;> decide +kernel

theorem pairs_signature : ∀ p ∈ getTxPayload, ∀ m ∈ p.methods, .pkAmountPairs ∈ m.parameters →
    m.parameters = [.addr, .pkAmountPairs] ∧
      (chars methodAuthorizeForPeer = chars m.name ∨ chars methodUnauthorizeForPeer = chars m.name ∨
        chars methodWithdraw = chars m.name) := by
  decide +kernel

section
variable (x y : Signable)

theorem types_fixed (hlist : x.call.method.parameters ≠ [.transferStateList])
    (hpairs : .pkAmountPairs ∉ x.call.method.parameters) :
    (fields x.call.arguments.tokens).map (·.1) = fixedTypes x.call.method.parameters := by
  obtain ⟨h, -⟩ | ⟨as, has⟩ := x.call.arguments.fields_eq
  · exact absurd h hlist
  · rw [has]
    refine ((as.fixedTypes_prefix x.call.vm).eq_of_length ?_).symm
    rw [List.length_map, length_fields, as.slots_fixed _ hpairs]

theorem types_list (hlist : x.call.method.parameters = [.transferStateList]) :
    (fields x.call.arguments.tokens).map (·.1) =
      (List.replicate x.call.arguments.states.length [.addr, .addr, .amount]).flatten := by
  rw [(x.call.arguments.fields_list hlist).2, fields_states, List.map_flatMap, List.flatMap_def]
  simp only [List.map_cons, List.map_nil, List.map_const']

variable {x y}

theorem types_other (h : x.call.SameMethod y.call) (hlist : x.call.method.parameters ≠ [.transferStateList])
    (hpairs : .pkAmountPairs ∉ x.call.method.parameters) :
    (fields x.call.arguments.tokens).map (·.1) = (fields y.call.arguments.tokens).map (·.1) := by
  rw [types_fixed x hlist hpairs, types_fixed y (h.method ▸ hlist) (h.method ▸ hpairs), h.method]

/-- Calls of a transfer with as many parameters have them of the same types. -/
theorem types_transfer (h : x.call.SameMethod y.call) (ht : x.call.IsTransfer)
    (hslots : slots x.call.arguments.tokens = slots y.call.arguments.tokens) :
    (fields x.call.arguments.tokens).map (·.1) = (fields y.call.arguments.tokens).map (·.1) := by
  rcases transfer_signature _ x.call.registered _ x.call.method_mem ht with hlist | ⟨hpairs, hthree⟩
  · have hlist' := h.method ▸ hlist
    rw [x.slots_list hlist, y.slots_list hlist'] at hslots
    rw [types_list x hlist, types_list y hlist', Nat.eq_of_mul_eq_mul_left (by decide) hslots]
  · have hlist : x.call.method.parameters ≠ [.transferStateList] := by
      intro hlist
      rw [hlist] at hthree
      cases hthree
    exact types_other h hlist hpairs

/-- A call with nodes has the values of its address, of the number and of the nodes. -/
theorem values_nodes (hnodes : x.call.method.parameters = [.addr, .pkAmountPairs]) :
    ∃ a : List UInt8, (fields x.call.arguments.tokens)[0]? = some (.addr, a) ∧
      x.call.values = .inl a :: .inr x.call.arguments.nodes.length ::
        ((x.call.arguments.nodes.map nodeValue).map (fun v => .inl v.1) ++
          (x.call.arguments.nodes.map nodeValue).map fun v => .inr v.2) := by
  obtain ⟨a, p, hp, hf⟩ := x.call.arguments.fields_nodes hnodes
  have hcount : amountValue p.keys.code.encode = p.pairs.length := by
    rw [amountValue_encode, (AmountCode.uint64?_eq p.keys.value_eq).1]
  refine ⟨a.1, by rw [hf]; rfl, ?_⟩
  rw [Call.values, hf, hp, PkAmountPairs.fields_tokens]
  simp [fieldValue, hcount, amountValue_encode, nodeValue, Function.comp_def]

variable [CryptoSdk] [FormatSdk] [FormatSdk.StandardBase58] {cfg : Config} {display : MethodDisplay}

/-- A native call with a short list of nodes: its address, and its nodes. -/
theorem values_nodes_seen (h : x.call.SameMethod y.call) (ht : x.call.Told)
    (hpairs : .pkAmountPairs ∈ x.call.method.parameters)
    (hsome : (x.call.paramText 0).isSome) (hsome' : (y.call.paramText 0).isSome)
    (haddress : cString (x.call.text 0) = cString (y.call.text 0))
    (hseen : (x.call.stakingRows cfg).map Row.seen = (y.call.stakingRows cfg).map Row.seen) :
    x.call.values = y.call.values := by
  obtain ⟨hnodes, hnames⟩ := pairs_signature _ x.call.registered _ x.call.method_mem hpairs
  obtain ⟨-, hshort⟩ := ht.nodes hpairs
  have hname : x.call.name = y.call.name := by rw [Call.name, Call.name, h.method]
  obtain ⟨item, hitem⟩ : ∃ item, x.call.pairsItem = some item := by
    unfold Call.pairsItem
    split_ifs with h₁ h₂ h₃
    · exact ⟨_, rfl⟩
    · exact ⟨_, rfl⟩
    · exact ⟨_, rfl⟩
    · exact (not_or.mpr ⟨h₁, not_or.mpr ⟨h₂, h₃⟩⟩ hnames).elim
  have hitem' : y.call.pairsItem = some item := by rwa [Call.pairsItem, ← hname]
  rw [Call.stakingRows, Call.stakingRows, if_neg ht.register, if_neg (hname ▸ ht.register), hitem,
    hitem'] at hseen
  have hkeys : ∀ node ∈ x.call.arguments.nodes, (0 : UInt8) ∉ node.1.1 := by
    intro node hmem
    obtain ⟨i, hi⟩ := List.getElem?_of_mem hmem
    exact ht.keys _ (List.mem_of_getElem? (x.field_node hnodes hi).1)
  have hlists := nodesRows_seen h hshort hkeys hseen
  obtain ⟨a, ha, hvalues⟩ := values_nodes hnodes
  obtain ⟨a', ha', hvalues'⟩ := values_nodes (h.method ▸ hnodes : y.call.method.parameters = _)
  obtain rfl : a = a' := Sum.inl.inj (value_eq_of_text h ht ha ha' rfl hsome hsome' haddress)
  have hlength : x.call.arguments.nodes.length = y.call.arguments.nodes.length := by
    simpa using congrArg List.length hlists
  rw [hvalues, hvalues', hlists, hlength]

/-- The rows of a call that is told are read as those of no other call of the method. -/
theorem reviewRows_seen (h : x.call.SameMethod y.call) (ht : x.call.Told)
    (hd : displayOf cfg x.call.vm.contractType x.call.name = some display)
    (hx : x.call.Renders display.configs.length) (hy : y.call.Renders display.configs.length)
    (hseen : (x.call.reviewRows display.configs cfg).map Row.seen =
      (y.call.reviewRows display.configs cfg).map Row.seen) : x.call.values = y.call.values := by
  have hperm := display_positions cfg _ hd
  have hname : x.call.name = y.call.name := by rw [Call.name, Call.name, h.method]
  by_cases htransfer : x.call.vm = .native ∧ x.call.IsTransfer
  · obtain ⟨n, hn⟩ := slots_transfer x htransfer.2
    have htransfer' : y.call.vm = .native ∧ y.call.IsTransfer :=
      ⟨h.vm ▸ htransfer.1, by rw [Call.IsTransfer, ← hname]; exact htransfer.2⟩
    have hthree : display.configs.length = 3 := by
      rw [configs_of_transfer x htransfer.1 htransfer.2 hd]
      rfl
    rw [Call.reviewRows, Call.reviewRows, if_pos htransfer, if_pos htransfer'] at hseen
    obtain ⟨hslots, htexts⟩ := transferRows_seen hperm hthree hn hseen
    exact values_ext h ht (types_transfer h htransfer.2 hslots) (hx.transfers htransfer.1 htransfer.2)
      (fun k hk => hy.transfers htransfer'.1 htransfer'.2 k (hslots ▸ hk)) htexts
  · have htransfer' : ¬ (y.call.vm = .native ∧ y.call.IsTransfer) := by
      rwa [Call.IsTransfer, ← hname, ← h.vm]
    have hlist : x.call.method.parameters ≠ [.transferStateList] := fun hlist => htransfer
      ⟨(x.call.arguments.fields_list hlist).1,
        list_parameters _ x.call.registered _ x.call.method_mem hlist⟩
    rw [Call.reviewRows, Call.reviewRows, if_neg htransfer, if_neg htransfer', List.map_append,
      List.map_append] at hseen
    obtain ⟨hconfigured, hrest⟩ := List.append_inj hseen (by simp [Call.configuredRows])
    have htexts := configuredRows_seen hperm hconfigured
    by_cases hpairs : .pkAmountPairs ∈ x.call.method.parameters
    · obtain ⟨hvm, -⟩ := ht.nodes hpairs
      have hone : 0 < display.configs.length := by
        have hstake := pairs_display cfg x.call.vm.contractType
          (pairs_signature _ x.call.registered _ x.call.method_mem hpairs).2
        rw [show displayOf cfg _ (chars x.call.method.name) = some display from hd] at hstake
        have hconfigs : display.configs = [⟨stakeAddress, 0⟩] := Option.some.inj hstake
        rw [hconfigs]
        exact Nat.one_pos
      rw [if_pos hvm, if_pos (h.vm ▸ hvm)] at hrest
      exact values_nodes_seen h ht hpairs (hx.configured 0 hone) (hy.configured 0 hone) (htexts 0 hone) hrest
    · have hlen := configs_complete cfg x.call.vm _ x.call.registered _ x.call.method_mem display hd hlist
        hpairs ht.register
      rw [← x.slots_fixed hlist hpairs] at hlen
      rw [hlen] at htexts hx hy
      exact values_ext h ht (types_other h hlist hpairs) hx.configured hy.configured htexts

omit [FormatSdk.StandardBase58] in
/-- A clear review is of a call whose rows could be built. -/
theorem uiDisplayNormalTransaction_renders {x : Signable} {s : Display}
    {beyond : Nat → Except Fault TxParameter}
    (hslots : slots x.call.arguments.tokens ≤ cfg.parametersMaxNum)
    (hbeyond : ∃ p, beyond cfg.parametersMaxNum = .ok p)
    (hd : displayOf cfg x.call.vm.contractType x.call.name = some display)
    (hzero : s.buffers.Field cfg.totalPos amountSize []) :
    Yields (uiDisplayNormalTransaction cfg x.encode (x.view .zero) beyond) s fun drawn _ =>
      drawn = .review → x.call.Renders display.configs.length := by
  have hinit : initDipslayPosAndItem cfg x.encode (x.view .zero) = .ok (some display) := by
    rw [x.initDipslay_view, hd]
  rw [uiDisplayNormalTransaction, hinit, ofExcept_ok, pure_bind]
  refine yields_bind.mpr ((handleParams_ensures x hslots (fun _ _ _ => hbeyond) hd hzero).yields.mono
    fun ok u hpost => ?_)
  cases ok with
  | false => exact yields_pure.mpr (by simp)
  | true =>
    exact yields_bind.mpr (feeAndSignerRows_yields.mono fun _ _ _ =>
      yields_pure.mpr fun _ => hpost.1.mp rfl)

omit [FormatSdk.StandardBase58] in
/-- What is read in the clear review of a call. -/
theorem review_reads {x : Signable} (hx : x.Admitted cfg)
    (hd : displayOf cfg x.call.vm.contractType x.call.name = some display) {beyond : Nat → TxParameter}
    {path : List UInt32} {s d : Display} {rows : List Row}
    (hrun : (displayTransaction cfg x.encode (x.view .zero) (fun j => .ok (beyond j)) path false).run s =
      .ok (.review, d)) (hread : d.ReadsRows d.rows rows) :
    x.call.Renders display.configs.length ∧ ∃ fee signer, signerText maxBufferLen path = some signer ∧
      rows = (x.call.reviewRows display.configs cfg).map Row.seen ++
        [⟨cString (chars itemGasFee), fee⟩, ⟨cString (chars itemSigner), signer⟩] ∧
      (ShortFee x.header.fee → fee = feeText x.header.fee) := by
  obtain ⟨u, signer, hsigner, hp, hdraw⟩ := displayTransaction_review hrun
  have hrenders := uiDisplayNormalTransaction_renders hx.slots_le ⟨_, rfl⟩ hd hp.total _ d hdraw rfl
  obtain ⟨v, hends, htells⟩ := uiDisplayNormalTransaction_tells x hx.slots_le ⟨_, rfl⟩ hd hp.total
    _ d hdraw rfl
  obtain ⟨w, hag, hends', -⟩ := uiDisplayNormalTransaction_review hx hp hdraw
  rw [hends.rows_eq] at hread
  obtain ⟨rows₁, rows₂, rfl, h₁, h₂⟩ := hread.split
  obtain rfl := h₁.eq_seen htells
  obtain _ | ⟨hfee, _ | ⟨hsign, _ | _⟩⟩ := h₂
  rename_i feeRow signerRow
  -- the signer is written behind everything that the rows change
  have hpos : cfg.gasFeePos ≤ cfg.signerPos := by
    simp only [Config.signerPos, Config.gasFeePos, Nat.add_mul, maxBufferLen, amountSize]
    omega
  have hstring : d.buffers.IsString cfg.signerPos signer := by
    rw [hends'.buffers_eq]
    exact hp.signer.of_agreeOff hag (.inr hpos)
  refine ⟨hrenders, feeRow.value, signer, hsigner, ?_, fun hshort => ?_⟩
  · have hsignerRow : signerRow = ⟨cString (chars itemSigner), signer⟩ :=
      congrArg₂ Row.mk hsign.1 (Memory.IsString.unique hsign.2 hstring)
    have hfeeRow : feeRow = ⟨cString (chars itemGasFee), feeRow.value⟩ :=
      congrArg (Row.mk · feeRow.value) hfee.1
    rw [hsignerRow, ← hfeeRow]
  · have hintact := (hp.endsIntact_iff hsigner hag hends' x.header.fee_max).mpr hshort
    exact Memory.IsString.unique hfee.2 hintact.fee

end

/-- Clear reviews that read the same are of the same signer and, where the fees are short, of the same
fee; and of the same values, if they are of one method and the review of one of them tells all. -/
theorem reviews_told_apart [BufferSdk] [CryptoSdk] [FormatSdk] [FormatSdk.StandardBase58] (cfg : Config)
    (raw raw' : List UInt8) (t t' : ParserState)
    (hparse : (transactionDeserialize cfg).run ⟨.ofBytes raw, .zero⟩ = .ok (.ok, t))
    (hparse' : (transactionDeserialize cfg).run ⟨.ofBytes raw', .zero⟩ = .ok (.ok, t'))
    (beyond beyond' : Nat → TxParameter) (path path' : List UInt32) (s s' d d' : Display)
    (hreview : (displayTransaction cfg raw t.tx (fun j => .ok (beyond j)) path false).run s =
      .ok (.review, d))
    (hreview' : (displayTransaction cfg raw' t'.tx (fun j => .ok (beyond' j)) path' false).run s' =
      .ok (.review, d'))
    (rows : List Row) (hread : d.ReadsRows d.rows rows) (hread' : d'.ReadsRows d'.rows rows) :
    ∃ x y : Signable, x.encode = raw ∧ y.encode = raw' ∧ t.tx = x.view .zero ∧ t'.tx = y.view .zero ∧
      signerText maxBufferLen path = signerText maxBufferLen path' ∧
      (ShortFee x.header.fee → ShortFee y.header.fee → x.header.fee = y.header.fee) ∧
      (x.call.SameMethod y.call → x.call.Told → x.call.values = y.call.values) := by
  obtain ⟨x, hx⟩ := ((transactionDeserialize_returns cfg raw .zero).iff t).mp hparse
  obtain ⟨y, hy⟩ := ((transactionDeserialize_returns cfg raw' .zero).iff t').mp hparse'
  obtain rfl := hx.encode_eq
  obtain rfl := hy.encode_eq
  rw [hx.tx_eq] at hreview
  rw [hy.tx_eq] at hreview'
  obtain ⟨display, hd⟩ := Option.isSome_iff_exists.mp
    (displayOf_isSome cfg x.call.vm.contractType x.call.registered x.call.method_mem)
  obtain ⟨display', hd'⟩ := Option.isSome_iff_exists.mp
    (displayOf_isSome cfg y.call.vm.contractType y.call.registered y.call.method_mem)
  obtain ⟨hrenders, fee, signer, hsigner, hrows, hfee⟩ := review_reads hx.admitted hd hreview hread
  obtain ⟨hrenders', fee', signer', hsigner', hrows', hfee'⟩ := review_reads hy.admitted hd' hreview' hread'
  rw [hrows] at hrows'
  obtain ⟨hseen, hends⟩ := List.append_inj' hrows' rfl
  simp only [List.cons.injEq, Row.mk.injEq, true_and, and_true] at hends
  refine ⟨x, y, rfl, rfl, hx.tx_eq, hy.tx_eq, by rw [hsigner, hsigner', hends.2], fun hshort hshort' => ?_, fun h ht => ?_⟩
  · have htexts : feeText x.header.fee = feeText y.header.fee :=
      (hfee hshort).symm.trans (hends.1.trans (hfee' hshort'))
    have htrimmed := List.append_cancel_right htexts
    exact (trimmed_isDecimal _ ongDecimals).unique (htrimmed ▸ trimmed_isDecimal _ ongDecimals)
  · have hsame : display' = display := by
      rw [← h.vm, ← h.method, hd] at hd'
      exact (Option.some.inj hd').symm
    subst hsame
    exact reviewRows_seen h ht hd hrenders hrenders' hseen

/-- The transfer of 5 ONT with another nonce, and the amount on a byte of its own. -/
def otherTransfer : Signable :=
  ⟨{ minimalHeader with nonce := ⟨[1, 0, 0, 0], rfl⟩ }, .byte 0x72 (by decide) (by decide), ontTransfer
    [⟨fiveOnt.source, fiveOnt.target, .bytes [5] (by decide) (by decide)⟩]
    ⟨.push ⟨0, by decide⟩, rfl⟩ (fun h => by cases h)⟩

theorem otherTransfer_admitted : otherTransfer.Admitted ⟨.nano, .w32⟩ :=
  ⟨by decide +kernel, by unfold SizePrefix.Declares; decide +kernel, show 3 * 1 ≤ 90 by decide⟩

theorem otherTransfer_text [CryptoSdk] [FormatSdk] (k : Nat) :
    otherTransfer.call.text k = sampleTransfer.call.text k := by
  match k with
  | 0 | 1 | 2 => rfl
  | k + 3 => rfl

theorem reviews_told_apart_sample :
    let := CryptoSdk.reference
    let := FormatSdk.reference
    ∃ (d d' : Display) (rows : List Row), sampleTransfer.encode ≠ otherTransfer.encode ∧
      (displayTransaction ⟨.nano, .w32⟩ sampleTransfer.encode (sampleTransfer.view .zero)
        (fun _ => .ok .zero) [] false).run .zero = .ok (.review, d) ∧
      (displayTransaction ⟨.nano, .w32⟩ otherTransfer.encode (otherTransfer.view .zero)
        (fun _ => .ok .zero) [] false).run .zero = .ok (.review, d') ∧
      d.ReadsRows d.rows rows ∧ d'.ReadsRows d'.rows rows ∧
      sampleTransfer.call.values = otherTransfer.call.values := by
  let := BufferSdk.reference
  let := CryptoSdk.reference
  let := FormatSdk.reference
  have := CryptoSdk.reference_total
  have := FormatSdk.reference_standardBase58
  obtain ⟨d, hd⟩ := displayTransaction_reviews sampleTransfer_admitted
    (renderable_ontTransfer (by decide)) (fun _ => .zero) (signerText_reference []) .zero
  obtain ⟨d', hd'⟩ := displayTransaction_reviews otherTransfer_admitted
    (renderable_ontTransfer (by decide)) (fun _ => .zero) (signerText_reference []) .zero
  obtain ⟨display, hdisplay⟩ := Option.isSome_iff_exists.mp (displayOf_isSome ⟨.nano, .w32⟩
    sampleTransfer.call.vm.contractType sampleTransfer.call.registered sampleTransfer.call.method_mem)
  obtain ⟨signer, hsigner, -, htells⟩ := displayTransaction_tells sampleTransfer sampleTransfer_admitted
    hdisplay hd
  obtain ⟨signer', hsigner', -, htells'⟩ := displayTransaction_tells otherTransfer otherTransfer_admitted
    hdisplay hd'
  have hrows : otherTransfer.call.reviewRows display.configs ⟨.nano, .w32⟩ =
      sampleTransfer.call.reviewRows display.configs ⟨.nano, .w32⟩ := by
    have htransfer : chars methodTransfer = sampleTransfer.call.name := rfl
    have htransfer' : chars methodTransfer = otherTransfer.call.name := rfl
    rw [Call.reviewRows, Call.reviewRows, if_pos ⟨rfl, .inl htransfer⟩, if_pos ⟨rfl, .inl htransfer'⟩]
    simp only [Call.transferRows, Call.configuredRow, otherTransfer_text]
    rfl
  obtain rfl : signer = signer' := Option.some.inj (hsigner.symm.trans hsigner')
  have hread := (htells ⟨0, by decide, by decide, by decide⟩).reads
  have hread' := (htells' ⟨0, by decide, by decide, by decide⟩).reads
  rw [hrows] at hread'
  obtain ⟨x, y, hx, hy, hview, hview', -, -, hvalues⟩ := reviews_told_apart ⟨.nano, .w32⟩ _ _ _ _
    (sampleTransfer_admitted.run .zero) (otherTransfer_admitted.run .zero) (fun _ => .zero) (fun _ => .zero)
    [] [] .zero .zero d d' hd hd' _ hread hread'
  obtain rfl := Signable.eq_of_view hx hview.symm
  obtain rfl := Signable.eq_of_view hy hview'.symm
  refine ⟨d, d', _, by decide +kernel, hd, hd', hread, hread', hvalues ⟨rfl, rfl, rfl⟩ ⟨?_, ?_, ?_⟩⟩
  · decide +kernel
  · intro hnodes
    exact absurd hnodes (by decide)
  · have hall : ∀ f ∈ fields sampleTransfer.call.arguments.tokens, f.1 ≠ .pubkey := by decide
    intro key hkey
    exact absurd rfl (hall _ hkey)

end AppOnt
