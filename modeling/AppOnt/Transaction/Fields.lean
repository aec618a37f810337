import AppOnt.Transaction.Correctness

/-!
# The fields of the arguments

Which parameters the arguments of a call leave in the array: their types, what
their bytes can be, and how the two kinds of lists are laid out.
-/
namespace AppOnt

open Token

/-- What the bytes of a parameter of a given type are. -/
def Token.Valid (f : TxParameterType × List UInt8) : Prop :=
  match f.1 with
  | .addr => f.2.length = addressScriptHashLen
  | .pubkey => f.2.length = 2 * compressedKeyLen
  | .amount => ∃ a : AmountCode, f.2 = a.encode
  | .uint128 => f.2.length = 16
  | _ => False

@[simp] theorem Token.fields_append (u v : List Token) : fields (u ++ v) = fields u ++ fields v := by
  induction u with
  | nil => rfl
  | cons t u ih => cases t <;> simp [fields, ih]

theorem fields_states (states : List TransferState) :
    fields (states.flatMap TransferState.tokens) = states.flatMap fun s =>
      [(.addr, s.source.1), (.addr, s.target.1), (.amount, s.amount.encode)] := by
  induction states with
  | nil => rfl
  | cons s states ih => simp [ih, TransferState.tokens, fields, addressToken, AmountCode.token, paramEnd]

namespace PkAmountPairs

theorem fields_keyTokens (ks : List (Bytes (2 * compressedKeyLen))) :
    fields (keyTokens ks) = ks.map fun k => (.pubkey, k.1) := by
  induction ks with
  | nil => rfl
  | cons k ks ih =>
    rw [keyTokens, List.flatMap_cons, fields_append, ← keyTokens, ih]
    rfl

theorem fields_amountTokens (as : List AmountCode) :
    fields (amountTokens as) = as.map fun a => (.amount, a.encode) := by
  induction as with
  | nil => rfl
  | cons a as ih =>
    cases as with
    | nil => rfl
    | cons b bs => simpa [amountTokens, fields, AmountCode.token, paramEnd] using ih

theorem fields_tokens (p : PkAmountPairs) : fields p.tokens = (.amount, p.keys.code.encode) ::
    (p.pairs.map (fun q => (.pubkey, q.1.1)) ++ p.pairs.map fun q => (.amount, q.2.encode)) := by
  simp [tokens, fields, fields_keyTokens, fields_amountTokens, AmountCode.token, Count.token, paramEnd,
    Function.comp_def]

end PkAmountPairs

theorem Arg.fields_valid {type : TxParameterType} (a : Arg type) (vm : Vm) :
    ∀ f ∈ fields (a.tokens vm), Valid f := by
  cases a with
  | addr a => simpa [Arg.tokens, fields, addressToken, Valid] using a.2
  | pubkey key => simpa [Arg.tokens, fields, pubkeyToken, Valid] using key.2
  | amount a => simp [Arg.tokens, fields, AmountCode.token, Valid]
  | uint128 n => simpa [Arg.tokens, fields, Valid] using n.2
  | ontid id ne_nil lt => simp [Arg.tokens, fields]
  | pkAmountPairs p =>
    intro f hf
    rw [Arg.tokens, PkAmountPairs.fields_tokens] at hf
    rcases List.mem_cons.mp hf with rfl | hf
    · exact ⟨_, rfl⟩
    · rcases List.mem_append.mp hf with hf | hf
      · obtain ⟨q, -, rfl⟩ := List.mem_map.mp hf
        exact q.1.2
      · obtain ⟨q, -, rfl⟩ := List.mem_map.mp hf
        exact ⟨_, rfl⟩
  | transferState s =>
    have := s.source.2
    have := s.target.2
    simp [Arg.tokens, TransferState.tokens, fields, addressToken, AmountCode.token, paramEnd, Valid, *]

theorem Args.fields_cons {type : TxParameterType} {types : List TxParameterType} (a : Arg type)
    (as : Args types) (vm : Vm) :
    fields ((Args.cons a as).tokens vm) = fields (a.tokens vm) ++ fields (as.tokens vm) := by
  rw [Args.tokens, fields_append, fields_append]
  split <;> simp [fields, paramEnd]

theorem Args.fields_valid {types : List TxParameterType} (args : Args types) (vm : Vm) :
    ∀ f ∈ fields (args.tokens vm), Valid f := by
  induction args with
  | nil => simp [Args.tokens, fields]
  | cons a as ih =>
    intro f hf
    rw [Args.fields_cons] at hf
    exact (List.mem_append.mp hf).elim (a.fields_valid vm f) (ih f)

/-- The transfers of a list of transfers. -/
def Arguments.states {vm : Vm} {types : List TxParameterType} :
    Arguments vm types → List TransferState
  | transfers states _ _ => states
  | native _ | neovm _ _ | wasmvm _ => []

/-- The arguments of a call that is not a list of transfers are stored without their frame. -/
theorem Arguments.fields_eq {vm : Vm} {types : List TxParameterType} (args : Arguments vm types) :
    (types = [.transferStateList] ∧ vm = .native ∧
        fields args.tokens = fields (args.states.flatMap TransferState.tokens)) ∨
      ∃ as : Args types, fields args.tokens = fields (as.tokens vm) := by
  cases args with
  | transfers states count marked =>
    refine .inl ⟨rfl, rfl, ?_⟩
    simp [Arguments.tokens, Arguments.states, fields, Count.token]
  | native as =>
    refine .inr ⟨as, ?_⟩
    simp [Arguments.tokens, fields]
  | neovm as count =>
    refine .inr ⟨as, ?_⟩
    simp [Arguments.tokens, fields, Count.token]
  | wasmvm as => exact .inr ⟨as, rfl⟩

/-- The arguments of a list of transfers. -/
theorem Arguments.fields_list {vm : Vm} {types : List TxParameterType} (args : Arguments vm types)
    (h : types = [.transferStateList]) :
    vm = .native ∧ fields args.tokens = fields (args.states.flatMap TransferState.tokens) := by
  rcases args.fields_eq with ⟨-, hvm, hf⟩ | ⟨as, -⟩
  · exact ⟨hvm, hf⟩
  · subst h
    cases as with
    | cons a as => cases a

/-- The nodes of a list of pairs with their amounts. -/
def Arg.nodes : {type : TxParameterType} → Arg type →
    List (Bytes (2 * compressedKeyLen) × AmountCode)
  | _, pkAmountPairs p => p.pairs
  | _, _ => []

def Args.nodes : {types : List TxParameterType} → Args types →
    List (Bytes (2 * compressedKeyLen) × AmountCode)
  | _, nil => []
  | _, cons a as => a.nodes ++ as.nodes

def Arguments.nodes {types : List TxParameterType} : {vm : Vm} → Arguments vm types →
    List (Bytes (2 * compressedKeyLen) × AmountCode)
  | _, transfers _ _ _ => []
  | _, native args => args.nodes
  | _, neovm args _ => args.nodes
  | _, wasmvm args => args.nodes

/-- The arguments that are an address and a list of pairs. -/
theorem Args.fields_nodes {types : List TxParameterType} (args : Args types)
    (h : types = [.addr, .pkAmountPairs]) (vm : Vm) :
    ∃ (a : Bytes addressScriptHashLen) (p : PkAmountPairs), args.nodes = p.pairs ∧
      fields (args.tokens vm) = (.addr, a.1) :: fields p.tokens := by
  subst h
  obtain _ | ⟨a, _ | ⟨p, _ | _⟩⟩ := args
  cases a with | addr a => ?_
  cases p with | pkAmountPairs p => ?_
  refine ⟨a, p, by simp [Args.nodes, Arg.nodes], ?_⟩
  cases vm <;> simp [Args.tokens, Arg.tokens, addressToken, fields, paramEnd]

theorem Arguments.fields_nodes {vm : Vm} {types : List TxParameterType} (args : Arguments vm types)
    (h : types = [.addr, .pkAmountPairs]) :
    ∃ (a : Bytes addressScriptHashLen) (p : PkAmountPairs), args.nodes = p.pairs ∧
      fields args.tokens = (.addr, a.1) :: fields p.tokens := by
  cases args with
  | transfers => cases h
  | native as => simpa [Arguments.tokens, Arguments.nodes, fields] using as.fields_nodes h .native
  | neovm as count =>
    simpa [Arguments.tokens, Arguments.nodes, fields, Count.token] using as.fields_nodes h .neovm
  | wasmvm as => exact as.fields_nodes h .wasmvm

theorem Arguments.fields_valid {vm : Vm} {types : List TxParameterType} (args : Arguments vm types) :
    ∀ f ∈ fields args.tokens, Valid f := by
  rcases args.fields_eq with ⟨-, -, h⟩ | ⟨as, h⟩
  · rw [h, fields_states]
    intro f hf
    obtain ⟨s, -, hf⟩ := List.mem_flatMap.mp hf
    have := s.source.2
    have := s.target.2
    simp only [List.mem_cons, List.not_mem_nil, or_false] at hf
    rcases hf with rfl | rfl | rfl <;> simp [Valid, *]
  · rw [h]
    exact as.fields_valid vm

/-- The types of the fields before any list. -/
def fixedTypes : List TxParameterType → List TxParameterType
  | [] => []
  | .transferState :: types => .addr :: .addr :: .amount :: fixedTypes types
  | .ontid :: types => fixedTypes types
  | .pkAmountPairs :: _ | .transferStateList :: _ | .paramEnd :: _ => []
  | type :: types => type :: fixedTypes types

theorem Args.fixedTypes_prefix {types : List TxParameterType} (args : Args types) (vm : Vm) :
    fixedTypes types <+: (fields (args.tokens vm)).map (·.1) := by
  induction args with
  | nil => exact List.prefix_refl _
  | cons a as ih =>
    rw [Args.fields_cons, List.map_append]
    cases a with
    | ontid id ne_nil lt => simpa [fixedTypes, Arg.tokens, fields] using ih
    | pkAmountPairs p => exact List.nil_prefix
    | _ =>
      simpa [fixedTypes, Arg.tokens, TransferState.tokens, fields, addressToken, pubkeyToken,
        AmountCode.token, paramEnd] using ih

/-- Outside of lists of transfers the signature gives the types of the first parameters. -/
theorem Arguments.type_of_fixed {vm : Vm} {types : List TxParameterType} (args : Arguments vm types)
    {k : Nat} {type : TxParameterType} (hk : (fixedTypes types)[k]? = some type) :
    ∃ data, (fields args.tokens)[k]? = some (type, data) := by
  rcases args.fields_eq with ⟨htypes, -, -⟩ | ⟨as, h⟩
  · rw [htypes] at hk
    simp [fixedTypes] at hk
  · obtain ⟨r, hr⟩ := as.fixedTypes_prefix vm
    rw [h]
    have hmap : ((fields (as.tokens vm)).map (·.1))[k]? = some type := by
      rw [← hr, List.getElem?_append_left (List.getElem?_eq_some_iff.mp hk).1, hk]
    rw [List.getElem?_map, Option.map_eq_some_iff] at hmap
    obtain ⟨⟨ty, data⟩, hf, rfl⟩ := hmap
    exact ⟨data, hf⟩

/-- The three fields of the `j`-th transfer. -/
theorem getElem?_states {states : List TransferState} {j i : Nat} (hi : i < 3) :
    (fields (states.flatMap TransferState.tokens))[3 * j + i]? = states[j]?.bind fun s =>
      [(.addr, s.source.1), (.addr, s.target.1), (.amount, s.amount.encode)][i]? := by
  rw [fields_states]
  induction states generalizing j with
  | nil => simp
  | cons s states ih =>
    rw [List.flatMap_cons]
    cases j with
    | zero =>
      rw [List.getElem?_append_left (by simpa using hi)]
      simp
    | succ j =>
      rw [List.getElem?_append_right (by simp; omega), show 3 * (j + 1) + i - List.length [_, _, _] =
        3 * j + i by simp; omega, ih]
      simp

namespace Signable

variable (x : Signable) {tx : Transaction} {k : Nat}

/-- A stored parameter: its pointer, its type and its bytes. -/
structure Stored (raw : List UInt8) (p : TxParameter) (type : TxParameterType) (data : List UInt8) :
    Prop where
  type_eq : p.type = type
  read_eq : readPtr raw p.data p.len = .ok data
  len_eq : p.len = data.length
  data_ne : p.data ≠ none

theorem stored (tx : Transaction) {type : TxParameterType} {data : List UInt8}
    (hk : (fields x.call.arguments.tokens)[k]? = some (type, data)) :
    Stored x.encode ((x.view tx).method.parameters k) type data := by
  obtain ⟨htype, hread⟩ := x.read_parameters tx hk
  obtain ⟨i, hi, hle, hdata⟩ := readPtr_eq_ok.mp hread
  refine ⟨htype, hread, ?_, by rw [hi]; exact Option.some_ne_none _⟩
  rw [hdata, List.length_take, List.length_drop]
  omega

/-- Behind the fields the array is as it was. -/
theorem parameters_of_le (hk : slots x.call.arguments.tokens ≤ k) :
    (x.view tx).method.parameters k = tx.method.parameters k := by
  have := storeParameters_add tx.method.parameters 0 k
    (layout (x.call.argumentsPos x.payloadPos) x.call.arguments.tokens)
  rw [Nat.zero_add, List.getElem?_eq_none (by rwa [length_layout])] at this
  exact this

theorem lt_of_present (h : ((x.view .zero).method.parameters k).data ≠ none) :
    k < slots x.call.arguments.tokens := by
  by_contra hle
  rw [x.parameters_of_le (Nat.le_of_not_lt hle)] at h
  exact h rfl

theorem slots_list (hlist : x.call.method.parameters = [.transferStateList]) :
    slots x.call.arguments.tokens = 3 * x.call.arguments.states.length := by
  rw [← length_fields, (x.call.arguments.fields_list hlist).2, fields_states]
  simp [Nat.mul_comm]

theorem present_of_lt (tx : Transaction) {k : Nat} (h : k < slots x.call.arguments.tokens) :
    ((x.view tx).method.parameters k).data ≠ none := by
  rw [← length_fields] at h
  exact (x.stored tx (List.getElem?_eq_getElem h)).data_ne

/-- In a list of transfers the place in a transfer gives the type. -/
theorem type_of_state (hlist : x.call.method.parameters = [.transferStateList])
    (h : ((x.view .zero).method.parameters k).data ≠ none) :
    [.addr, .addr, .amount][k % 3]? = some ((x.view .zero).method.parameters k).type := by
  have hf := (x.call.arguments.fields_list hlist).2
  have hlt := x.lt_of_present h
  rw [← length_fields] at hlt
  have hk := List.getElem?_eq_getElem hlt
  have hfield := @getElem?_states x.call.arguments.states (k / 3) (k % 3) (Nat.mod_lt k (by decide))
  rw [Nat.div_add_mod, ← hf, hk] at hfield
  obtain ⟨s, -, hs⟩ := Option.bind_eq_some_iff.mp hfield.symm
  rw [(x.stored .zero hk).type_eq]
  have hmap := congrArg (Option.map Prod.fst) hs
  rw [← List.getElem?_map] at hmap
  exact hmap

section
variable (hnodes : x.call.method.parameters = [.addr, .pkAmountPairs])
include hnodes

theorem slots_nodes : slots x.call.arguments.tokens = 2 * x.call.arguments.nodes.length + 2 := by
  obtain ⟨a, p, hp, hf⟩ := x.call.arguments.fields_nodes hnodes
  rw [← length_fields, hf, List.length_cons, length_fields, p.slots_tokens, hp]

theorem nodes_ne_nil : x.call.arguments.nodes ≠ [] := by
  obtain ⟨a, p, hp, -⟩ := x.call.arguments.fields_nodes hnodes
  rw [hp]
  exact p.ne_nil

/-- The number of the nodes is the second parameter. -/
theorem field_count : ∃ code : AmountCode,
    (fields x.call.arguments.tokens)[1]? = some (.amount, code.encode) ∧
      code.uint64? = some x.call.arguments.nodes.length := by
  obtain ⟨a, p, hp, hf⟩ := x.call.arguments.fields_nodes hnodes
  rw [hf, PkAmountPairs.fields_tokens, hp]
  exact ⟨_, rfl, p.keys.value_eq⟩

/-- The keys come next, and the amounts behind them. -/
theorem field_node {i : Nat} {q : Bytes (2 * compressedKeyLen) × AmountCode}
    (hi : x.call.arguments.nodes[i]? = some q) :
    (fields x.call.arguments.tokens)[i + 2]? = some (.pubkey, q.1.1) ∧
      (fields x.call.arguments.tokens)[i + 2 + x.call.arguments.nodes.length]? =
        some (.amount, q.2.encode) := by
  obtain ⟨a, p, hp, hf⟩ := x.call.arguments.fields_nodes hnodes
  have hlt := (List.getElem?_eq_some_iff.mp hi).1
  rw [hp] at hi hlt
  rw [hf, PkAmountPairs.fields_tokens, hp]
  constructor
  · rw [List.getElem?_cons_succ, List.getElem?_cons_succ, List.getElem?_append_left (by simpa using hlt),
      List.getElem?_map, hi]
    rfl
  · rw [show i + 2 + p.pairs.length = p.pairs.length + i + 1 + 1 by omega, List.getElem?_cons_succ,
      List.getElem?_cons_succ, List.getElem?_append_right (by simp), List.length_map,
      Nat.add_sub_cancel_left, List.getElem?_map, hi]
    rfl

end

end Signable

end AppOnt
