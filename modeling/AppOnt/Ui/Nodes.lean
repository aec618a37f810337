import AppOnt.Ui.Batch
import AppOnt.Ui.LaidOut

/-!
# Lists of nodes

The rows for a list of nodes and their amounts: up to three nodes are listed
with their amounts, of a longer list three nodes and the total. The rows of a
short list always succeed; the total takes amounts of 64 bits only.
-/
namespace AppOnt

open Prog Token

section
variable [CryptoSdk] [FormatSdk] {cfg : Config} {s t : Display} (x : Signable)
  {beyond : Nat → Except Fault TxParameter}

/-- A label that is numbered unless there is one thing only. -/
def numbered (item : String) (num i : Nat) : List UInt8 :=
  if i = 0 ∧ num = 1 then chars item else chars item ++ chars " " ++ numeral (i + 1)

namespace Call

variable (c : Call)

/-- The rows of the `i`-th node: its key, and its amount where the list is short. -/
def nodeRows (cfg : Config) (item : String) (i : Nat)
    (node : Bytes (2 * compressedKeyLen) × AmountCode) : List Row :=
  ⟨numbered cfg.peerPubkey c.arguments.nodes.length i, node.1.1⟩ ::
    if c.arguments.nodes.length ≤ maxPubkeyDisplay then
      [⟨numbered item c.arguments.nodes.length i, c.amountText node.2.value⟩]
    else []

/-- The rows of nodes that come from the `i`-th place on. -/
def listedRows (cfg : Config) (item : String) (nodes : List (Bytes (2 * compressedKeyLen) × AmountCode))
    (i : Nat) : List Row :=
  (nodes.zipIdx i).flatMap fun q => c.nodeRows cfg item q.2 q.1

end Call

omit [CryptoSdk] [FormatSdk] in
theorem length_listedRows_le (cfg : Config) (item : String)
    (nodes : List (Bytes (2 * compressedKeyLen) × AmountCode)) (i : Nat) :
    (x.call.listedRows cfg item nodes i).length ≤ 2 * nodes.length := by
  induction nodes generalizing i with
  | nil => exact Nat.le_refl _
  | cons node nodes ih =>
    have hrow : (x.call.nodeRows cfg item i node).length ≤ 2 := by
      unfold Call.nodeRows
      split <;> simp
    have hrest := ih (i + 1)
    unfold Call.listedRows at hrest ⊢
    rw [List.zipIdx_cons, List.flatMap_cons, List.length_append, List.length_cons]
    dsimp only
    omega

omit [CryptoSdk] [FormatSdk] in
theorem peerPubkey_length (cfg : Config) : (chars cfg.peerPubkey).length ≤ 40 := by
  unfold Config.peerPubkey
  cases cfg.target <;> decide +kernel

omit [CryptoSdk] [FormatSdk] in
/-- The label is in the next field, or takes none. -/
theorem numberedLabel_ensures {item : String} {num i curr : Nat} (hitem : (chars item).length ≤ 40)
    (hi : i < 9) (hcurr : curr < cfg.parametersMaxNum) :
    Ensures (numberedLabel cfg item num i curr) s fun r t => r.2 ≤ curr + 1 ∧ t.rows = s.rows ∧
      s.buffers.AgreeOff t.buffers (curr * maxBufferLen) (r.2 * maxBufferLen) ∧
      t.Shows curr r.1 (numbered item num i) r.2 := by
  have hmax : maxBufferLen = 67 := rfl
  have hroom : (curr + 1) * maxBufferLen ≤ cfg.numPairs * maxBufferLen :=
    Nat.mul_le_mul_right _ (by simp only [Config.numPairs]; omega)
  rw [Nat.succ_mul] at hroom
  unfold numberedLabel numbered
  split
  · exact ensures_pure.mpr ⟨Nat.le_succ _, rfl, Memory.AgreeOff.refl _ _ _, rfl, Nat.le_refl _⟩
  · have hnumeral : (numeral (i + 1)).length ≤ 1 := (length_numeral_le_iff (by decide)).mpr (by omega)
    have hspace : (chars " ").length = 1 := by decide +kernel
    generalize htext : chars item ++ chars " " ++ numeral (i + 1) = text
    have hlen : text.length ≤ 42 := by
      rw [← htext, List.length_append, List.length_append]
      omega
    have hag := Memory.write_agreeOff s.buffers (curr * maxBufferLen) (text ++ [0])
    rw [List.length_append, List.length_singleton] at hag
    simp only [snprintf, ensures_bind, ensures_store, ensures_pure]
    rw [List.take_of_length_le (by omega), List.length_append, List.length_singleton]
    refine ⟨by omega, by omega, Nat.le_refl _, rfl, hag.mono (Nat.le_refl _) ?_, curr, rfl,
      Nat.le_refl _, Nat.lt_succ_self _, by omega, Memory.write_holds _ _ _⟩
    rw [Nat.succ_mul]
    omega

/-- A row whose parameter has a text is added, in the next field or the one behind it. -/
theorem numberedRow_ensures (hslots : slots x.call.arguments.tokens ≤ cfg.parametersMaxNum)
    {item : String} {num i paramIdx curr : Nat} {text : List UInt8} (hitem : (chars item).length ≤ 40)
    (hi : i < 9) (htext : x.call.paramText paramIdx = some text) (hlen : text.length < maxBufferLen)
    (hidx : paramIdx < 256) (hcurr : curr + 1 < cfg.parametersMaxNum) (hnum : s.nbPairs < cfg.numPairs) :
    Ensures (numberedRow cfg x.encode (x.view .zero) item num i paramIdx curr) s fun r t =>
      ∃ curr', r = some curr' ∧ curr' ≤ curr + 2 ∧
        AddsRows s t curr curr' [⟨numbered item num i, text⟩] := by
  have hcfg := cfg.target_cases
  have hpairs : cfg.numPairs = cfg.parametersMaxNum + 2 := rfl
  rw [numberedRow, ensures_bind]
  refine (numberedLabel_ensures hitem hi (by omega)).mono fun r t hpost => ?_
  obtain ⟨hr, hrows, hag, hlabel⟩ := hpost
  obtain ⟨label, next⟩ := r
  dsimp only at hr hag hlabel
  have hroom := Nat.mul_le_mul_right maxBufferLen (show next + 1 ≤ cfg.numPairs by omega)
  rw [Nat.succ_mul] at hroom
  have hn : t.nbPairs = s.nbPairs := by rw [← t.length_rows, hrows, s.length_rows]
  simp only [ensures_bind, ensures_u8]
  refine ⟨hidx, (convertParamToChars_ensures x hslots _ hroom).mono fun ok u hu => ?_⟩
  rw [htext] at hu
  obtain ⟨rfl, hfill⟩ := hu
  have hn' := hfill.nbPairs_eq
  have hrows' : u.rows = t.rows := by rw [Display.rows, Display.rows, hfill.pairs_eq, hn']
  have hfield := hfill.agree
  rw [← Nat.succ_mul] at hfield
  simp only [if_true, ensures_bind, ensures_appendPair, ensures_pure]
  refine ⟨by omega, by omega, _, rfl, by omega, ?_, [⟨label, .buffer (next * maxBufferLen)⟩], ?_, ?_⟩
  · exact (hag.mono (Nat.le_refl _) (Nat.mul_le_mul_right _ (Nat.le_succ _))).trans
      (hfield.mono (Nat.mul_le_mul_right _ hlabel.le) (Nat.le_refl _))
  · rw [Display.rows_append, hrows', hrows]
  · refine .single ?_ ⟨next, rfl, Nat.le_refl _, Nat.lt_succ_self _, hlen, hfill.field.holds hlen⟩
    exact Display.Shows.of_agreeOff hlabel hfill.agree (Nat.le_refl _)

/-- The keys and amounts of a native list of nodes can be shown. -/
theorem paramText_node (hnodes : x.call.method.parameters = [.addr, .pkAmountPairs])
    (hvm : x.call.vm ≠ .wasmvm) {i : Nat} {node : Bytes (2 * compressedKeyLen) × AmountCode}
    (hi : x.call.arguments.nodes[i]? = some node) :
    x.call.paramText (i + 2) = some node.1.1 ∧
      x.call.paramText (i + 2 + x.call.arguments.nodes.length) =
        some (x.call.amountText node.2.value) := by
  obtain ⟨hkey, hamount⟩ := x.field_node hnodes hi
  have htext : x.call.fieldText (.amount, node.2.encode) = some _ := if_neg hvm
  constructor
  · rw [Call.paramText, hkey]
    rfl
  · rw [Call.paramText, hamount, Option.bind_some, htext, amountValue_encode]

/-- Each listed node adds a row, and a second one with its amount where the list is short. -/
theorem pkAmountRows_ensures (hnodes : x.call.method.parameters = [.addr, .pkAmountPairs])
    (hvm : x.call.vm ≠ .wasmvm) (hslots : slots x.call.arguments.tokens ≤ cfg.parametersMaxNum)
    {item : String} (hitem : (chars item).length ≤ 40) {left i curr : Nat}
    (hleft : i + left ≤ maxPubkeyDisplay) (hle : i + left ≤ x.call.arguments.nodes.length)
    (hcurr : curr + 4 * left < cfg.parametersMaxNum) (hnum : s.nbPairs + 2 * left ≤ cfg.numPairs) :
    Ensures (pkAmountRows cfg x.encode (x.view .zero) item x.call.arguments.nodes.length left i curr) s
      fun r t => ∃ curr', r = some curr' ∧ curr' ≤ curr + 4 * left ∧ AddsRows s t curr curr'
        (x.call.listedRows cfg item ((x.call.arguments.nodes.drop i).take left) i) := by
  have hmax : maxPubkeyDisplay = 3 := rfl
  induction left generalizing i curr s with
  | zero =>
    rw [List.take_zero]
    exact ensures_pure.mpr ⟨_, rfl, by omega, .refl _ _⟩
  | succ left ih =>
    obtain ⟨node, hnode⟩ : ∃ node, x.call.arguments.nodes[i]? = some node :=
      ⟨_, List.getElem?_eq_getElem (by omega)⟩
    obtain ⟨hkey, hamount⟩ := paramText_node x hnodes hvm hnode
    obtain ⟨hi, rfl⟩ := List.getElem?_eq_some_iff.mp hnode
    have hrest : x.call.listedRows cfg item ((x.call.arguments.nodes.drop i).take (left + 1)) i =
        x.call.nodeRows cfg item i x.call.arguments.nodes[i] ++
          x.call.listedRows cfg item ((x.call.arguments.nodes.drop (i + 1)).take left) (i + 1) := by
      rw [List.drop_eq_getElem_cons hi, List.take_succ_cons, Call.listedRows, List.zipIdx_cons,
        List.flatMap_cons, Call.listedRows]
    have hkeyLen : (x.call.arguments.nodes[i]).1.1.length < maxBufferLen := by
      rw [(x.call.arguments.nodes[i]).1.2]
      decide
    rw [hrest, pkAmountRows, ensures_bind]
    refine (numberedRow_ensures x hslots (peerPubkey_length cfg) (by omega) hkey hkeyLen (by omega)
      (by omega) (by omega)).mono ?_
    rintro r t ⟨curr₁, rfl, hcurr₁, ht⟩
    have hn := ht.nbPairs_eq
    rw [List.length_singleton] at hn
    dsimp only
    unfold Call.nodeRows
    split
    · have hamountLen := Nat.lt_of_le_of_lt
        (length_amountText x.call (x.call.arguments.nodes[i]).2.value_lt) (by decide : _ < maxBufferLen)
      rw [ensures_bind]
      refine (numberedRow_ensures x hslots hitem (by omega) hamount hamountLen (by omega) (by omega)
        (by omega)).mono ?_
      rintro r u ⟨curr₂, rfl, hcurr₂, hu⟩
      have hn' := hu.nbPairs_eq
      rw [List.length_singleton] at hn'
      refine (ih (by omega) (by omega) (by omega) (by omega)).mono ?_
      rintro r v ⟨curr', rfl, hcurr', hv⟩
      exact ⟨curr', rfl, by omega, (ht.trans hu).trans hv⟩
    · refine (ih (by omega) (by omega) (by omega) (by omega)).mono ?_
      rintro r v ⟨curr', rfl, hcurr', hv⟩
      exact ⟨curr', rfl, by omega, ht.trans hv⟩

/-- What the total of a list of nodes is, on 64 bits. -/
def Call.total (c : Call) : Nat := (c.arguments.nodes.map (·.2.value)).sum % 2 ^ 64

def Call.totalText (c : Call) : List UInt8 := numeral c.total ++ chars " " ++ chars c.payload.ticker

/-- The amounts that a total can be taken of. -/
def Call.ShortAmounts (c : Call) : Prop := ∀ q ∈ c.arguments.nodes, q.2.uint64?.isSome

omit [CryptoSdk] [FormatSdk] in
theorem convertParam_amount {k : Nat} {a : AmountCode}
    (hk : (fields x.call.arguments.tokens)[k]? = some (.amount, a.encode)) :
    convertParamToUint64Le x.encode ((x.view .zero).method.parameters k) = .ok a.uint64? := by
  obtain ⟨htype, hread, hlen, hne⟩ := x.stored .zero hk
  generalize (x.view .zero).method.parameters k = param at *
  obtain ⟨ptr, type, len⟩ := param
  obtain ⟨i, rfl⟩ := Option.ne_none_iff_exists'.mp hne
  obtain rfl := htype
  obtain rfl := hlen
  exact convertParamToUint64Le_encode a hread

omit [CryptoSdk] [FormatSdk] in
/-- The loop adds up the amounts from one node on. -/
theorem sumAmounts_ensures (hnodes : x.call.method.parameters = [.addr, .pkAmountPairs])
    (hslots : slots x.call.arguments.tokens ≤ cfg.parametersMaxNum) {left i amount : Nat}
    (hleft : i + left = x.call.arguments.nodes.length) (hamount : amount < 2 ^ 64) :
    Ensures (sumAmounts cfg x.encode (x.view .zero) beyond x.call.arguments.nodes.length left i amount)
      s fun r t => t = s ∧
        (r.isSome ↔ ∀ q ∈ x.call.arguments.nodes.drop i, q.2.uint64?.isSome) ∧
        ∀ v, r = some v →
          v = (amount + ((x.call.arguments.nodes.drop i).map (·.2.value)).sum) % 2 ^ 64 := by
  induction left generalizing i amount with
  | zero =>
    have hnil : x.call.arguments.nodes.drop i = [] := List.drop_eq_nil_of_le (by omega)
    rw [hnil]
    refine ensures_pure.mpr ⟨rfl, by simp, fun v hv => ?_⟩
    rw [← Option.some.inj hv, List.map_nil, List.sum_nil, Nat.add_zero, Nat.mod_eq_of_lt hamount]
  | succ left ih =>
    have hi : i < x.call.arguments.nodes.length := by omega
    have hfield := x.field_node hnodes (List.getElem?_eq_getElem hi)
    have hslots' := x.slots_nodes hnodes
    rw [sumAmounts, ensures_bind, readParameter, ensures_ofExcept]
    refine ⟨_, if_pos (by omega), ensures_bind.mpr (ensures_ofExcept.mpr
      ⟨_, convertParam_amount x hfield.2, ?_⟩)⟩
    rw [List.drop_eq_getElem_cons hi]
    cases hval : (x.call.arguments.nodes[i]).2.uint64? with
    | none => exact ensures_pure.mpr ⟨rfl, by rw [List.forall_mem_cons, hval]; simp, by simp⟩
    | some n =>
      obtain ⟨hvalue, -⟩ := AmountCode.uint64?_eq hval
      refine (ih (by omega) (Nat.mod_lt _ (by decide))).mono fun r t hpost => ?_
      obtain ⟨ht, hsome, hsum⟩ := hpost
      refine ⟨ht, ?_, ?_⟩
      · rw [hsome, List.forall_mem_cons, hval]
        simp
      · intro v hv
        rw [hsum v hv, List.map_cons, List.sum_cons, hvalue, Nat.mod_add_mod, Nat.add_assoc]

omit [CryptoSdk] [FormatSdk] in
theorem storeText_ensures {pos len : Nat} {text : List UInt8} (hlen : text.length < len)
    (hroom : pos + len ≤ cfg.numPairs * maxBufferLen) :
    Ensures (storeText cfg pos len (some text)) s fun _ t =>
      Touches s t pos (pos + len) ∧ t.buffers.Holds pos text := by
  have hag := Memory.write_agreeOff s.buffers pos (text ++ [0])
  rw [List.length_append, List.length_singleton] at hag
  rw [storeText, ensures_store, List.length_append, List.length_singleton]
  exact ⟨by omega, by omega, ⟨hag.mono (Nat.le_refl _) (by omega), rfl, rfl⟩,
    Memory.write_holds _ _ _⟩

/-- The rows for a list of nodes: up to three nodes, and what there is of the others. -/
def Call.nodesRows (c : Call) (cfg : Config) (item : String) : List Row :=
  c.listedRows cfg item (c.arguments.nodes.take maxPubkeyDisplay) 0 ++
    if maxPubkeyDisplay < c.arguments.nodes.length then
      [⟨chars cfg.nodeAmount, numeral (c.arguments.nodes.length - maxPubkeyDisplay)⟩,
        ⟨chars (totalPlus ++ item), c.totalText⟩]
    else []

omit [CryptoSdk] [FormatSdk] in
theorem length_totalText (c : Call) : c.totalText.length ≤ 26 ∧ (0 : UInt8) ∉ c.totalText := by
  have hlen : (numeral c.total).length ≤ 20 := (length_numeral_le_iff (by decide)).mpr
    (Nat.lt_of_lt_of_le (Nat.mod_lt _ (by decide)) (by decide))
  have hticker := ticker_bounds _ c.registered
  have hspace : (chars " ").length = 1 ∧ (0 : UInt8) ∉ chars " " := by decide +kernel
  have hne := zero_not_mem_numeral c.total
  unfold Call.totalText
  rw [List.length_append, List.length_append, List.mem_append, List.mem_append]
  exact ⟨by omega, by simp [hne, hspace.2, hticker.2]⟩

omit [CryptoSdk] in
/-- The rows behind the listed nodes: their number, and the total where it can be taken. -/
theorem remainingRows_ensures (hnodes : x.call.method.parameters = [.addr, .pkAmountPairs])
    (hslots : slots x.call.arguments.tokens ≤ cfg.parametersMaxNum) {item : String} {curr : Nat}
    (hcurr : curr < cfg.parametersMaxNum) (hnum : s.nbPairs + 2 ≤ cfg.numPairs)
    (hzero : s.buffers.Field cfg.totalPos amountSize []) :
    Ensures (remainingRows cfg x.encode (x.view .zero) beyond item x.call.arguments.nodes.length curr) s
      fun ok t => (ok = true ↔ x.call.ShortAmounts) ∧
        s.buffers.AgreeOff t.buffers (curr * maxBufferLen) cfg.gasFeePos ∧ t.nbPairs ≤ s.nbPairs + 2 ∧
        (ok = true →
          t.pairs (t.nbPairs - 1) = ⟨.literal (totalPlus ++ item), .buffer cfg.totalPos⟩ ∧
          t.buffers.IsString cfg.totalPos x.call.totalText ∧
          ∃ pairs, t.rows = s.rows ++ pairs ∧ t.LaidOut curr pairs
            [⟨chars cfg.nodeAmount, numeral (x.call.arguments.nodes.length - maxPubkeyDisplay)⟩,
              ⟨chars (totalPlus ++ item), x.call.totalText⟩] (cfg.parametersMaxNum + 1)) := by
  have hcfg := cfg.target_cases
  have hpairs : cfg.numPairs = cfg.parametersMaxNum + 2 := rfl
  have hmax : maxBufferLen = 67 := rfl
  have hsize : amountSize = 50 := rfl
  have htotal : cfg.totalPos = cfg.parametersMaxNum * maxBufferLen := rfl
  have hgas : cfg.gasFeePos = cfg.totalPos + amountSize := rfl
  have hle := Nat.mul_le_mul_right maxBufferLen (Nat.succ_le_of_lt hcurr)
  rw [Nat.succ_mul] at hle
  have hroom : cfg.totalPos + amountSize ≤ cfg.numPairs * maxBufferLen := by
    rw [hpairs, Nat.add_mul]
    omega
  have hslots' := x.slots_nodes hnodes
  have hcount : FormatSdk.formatU64 maxBufferLen (x.call.arguments.nodes.length - maxPubkeyDisplay) =
      some (numeral _) := FormatSdk.u64_eq (by omega) (by decide)
  have hnumeral : ∀ n < 2 ^ 64, (numeral n).length ≤ 20 := fun n hn =>
    (length_numeral_le_iff (by decide)).mpr (Nat.lt_of_lt_of_le hn (by decide))
  have hticker := ticker_bounds _ x.call.registered
  have hspace : (chars " ").length = 1 ∧ (0 : UInt8) ∉ chars " " := by decide +kernel
  rw [remainingRows, hcount, ensures_bind]
  have hlen := hnumeral (x.call.arguments.nodes.length - maxPubkeyDisplay) (by omega)
  refine (storeText_ensures (by omega) (by omega)).mono fun _ t hpost => ?_
  obtain ⟨ht, hholds⟩ := hpost
  have hn := ht.nbPairs_eq
  have hrows : t.rows = s.rows := by rw [Display.rows, Display.rows, ht.pairs_eq, hn]
  simp only [ensures_bind, ensures_appendPair]
  refine ⟨by omega, by omega, (sumAmounts_ensures x hnodes hslots (by omega) (by decide)).mono
    fun r u hpost => ?_⟩
  obtain ⟨hu, hsome, hsum⟩ := hpost
  subst hu
  rw [List.drop_zero] at hsome hsum
  have hagree : s.buffers.AgreeOff t.buffers (curr * maxBufferLen) cfg.totalPos :=
    ht.agree.mono (Nat.le_refl _) (by omega)
  cases r with
  | none =>
    refine ensures_pure.mpr ⟨hsome, hagree.mono (Nat.le_refl _) (by omega), ?_, by simp⟩
    dsimp only
    omega
  | some amount =>
    have hamount : amount = x.call.total := by rw [hsum _ rfl, Nat.zero_add]; rfl
    have hlt : amount < 2 ^ 64 := hamount ▸ Nat.mod_lt _ (by decide)
    have htext : FormatSdk.formatU64 amountSize amount = some (numeral amount) :=
      FormatSdk.u64_eq hlt (by decide)
    have hshort := hnumeral amount hlt
    simp only [htext, storeText]
    have hfield : t.buffers.Field cfg.totalPos amountSize [] :=
      hzero.of_agreeOff hagree (.inr (Nat.le_refl _))
    have hrows' := t.rows_append ⟨.literal cfg.nodeAmount, .buffer (curr * maxBufferLen)⟩
    generalize hw : ({ t.putPair t.nbPairs _ with nbPairs := t.nbPairs + 1 } : Display) = w at hrows' ⊢
    obtain ⟨hbuf, hnb⟩ : w.buffers = t.buffers ∧ w.nbPairs = t.nbPairs + 1 := hw ▸ ⟨rfl, rfl⟩
    have hempty : Fills w w cfg.totalPos amountSize [] :=
      ⟨⟨Memory.AgreeOff.refl _ _ _, rfl, rfl⟩, hbuf ▸ hfield⟩
    -- the number, a space and the ticker
    refine ensures_bind.mpr ((hempty.store _ 1 (by omega) hroom).mono fun _ u₁ hu₁ => ?_)
    have hne₁ := zero_not_mem_numeral amount
    refine ensures_bind.mpr ((hu₁.strlcat hne₁ (by omega) hroom).mono fun _ u₂ hu₂ => ?_)
    have hne₂ : (0 : UInt8) ∉ numeral amount ++ chars " " :=
      fun h => (List.mem_append.mp h).elim hne₁ hspace.2
    have hlen₂ : (numeral amount ++ chars " ").length ≤ 21 := by
      rw [List.length_append]
      omega
    refine ensures_bind.mpr ((hu₂.strlcat hne₂ (by omega) hroom).mono fun _ u₃ hu₃ => ?_)
    have hnb₃ := hu₃.nbPairs_eq
    obtain ⟨hlen₃, hne₃⟩ := length_totalText x.call
    have hfield₃ : u₃.buffers.Field cfg.totalPos amountSize x.call.totalText := by
      rw [Call.totalText, ← hamount]
      exact hu₃.field
    have hrows₃ : u₃.rows = w.rows := by rw [Display.rows, Display.rows, hu₃.pairs_eq, hnb₃]
    simp only [ensures_bind, ensures_appendPair, ensures_pure]
    refine ⟨by omega, by omega, ⟨fun _ => hsome.mp rfl, fun _ => trivial⟩, ?_, by omega, fun _ =>
      ⟨by simp [Display.putPair], hfield₃.isString hne₃ (by omega),
        [⟨.literal cfg.nodeAmount, .buffer (curr * maxBufferLen)⟩,
          ⟨.literal (totalPlus ++ item), .buffer cfg.totalPos⟩], ?_, ?_⟩⟩
    · exact (hagree.mono (Nat.le_refl _) (by omega)).trans
        (hbuf ▸ hu₃.agree.mono (by omega) (Nat.le_of_eq hgas.symm))
    · rw [Display.rows_append, hrows₃, hrows', hrows, List.append_assoc]
      rfl
    · have hcountLen := Nat.lt_of_le_of_lt hlen (by decide : 20 < maxBufferLen)
      have htotalLen := Nat.lt_of_le_of_lt hlen₃ (by decide : 26 < maxBufferLen)
      have hcount₃ := hholds.of_agreeOff (hbuf ▸ hu₃.agree) (.inl (by omega))
      have hremaining : Display.Shows u₃ curr (.buffer (curr * maxBufferLen))
          (numeral (x.call.arguments.nodes.length - maxPubkeyDisplay)) (curr + 1) :=
        ⟨curr, rfl, Nat.le_refl _, Nat.lt_succ_self _, hcountLen, hcount₃⟩
      have htotal₃ : Display.Shows u₃ (curr + 1) (.buffer cfg.totalPos) x.call.totalText
          (cfg.parametersMaxNum + 1) :=
        ⟨cfg.parametersMaxNum, rfl, hcurr, Nat.lt_succ_self _, htotalLen, hfield₃.holds (by omega)⟩
      exact .cons ⟨rfl, Nat.le_refl _⟩ hremaining (.single ⟨rfl, Nat.le_refl _⟩ htotal₃)

omit [CryptoSdk] [FormatSdk] in
/-- The methods with a list of nodes. -/
theorem pairs_method : ∀ p ∈ getTxPayload, ∀ m ∈ p.methods,
    (chars methodAuthorizeForPeer = chars m.name ∨ chars methodUnauthorizeForPeer = chars m.name ∨
      chars methodWithdraw = chars m.name) → m.parameters = [.addr, .pkAmountPairs] := by
  decide +kernel

omit [CryptoSdk] [FormatSdk] in
theorem name_of_pairsItem {item : String} (h : x.call.pairsItem = some item) :
    chars methodAuthorizeForPeer = x.call.name ∨ chars methodUnauthorizeForPeer = x.call.name ∨
      chars methodWithdraw = x.call.name := by
  unfold Call.pairsItem at h
  grind

omit [CryptoSdk] [FormatSdk] in
theorem parameters_of_pairsItem {item : String} (h : x.call.pairsItem = some item) :
    x.call.method.parameters = [.addr, .pkAmountPairs] :=
  pairs_method _ x.call.registered _ x.call.method_mem (name_of_pairsItem x h)

omit [CryptoSdk] [FormatSdk] in
theorem pairsItem_length {item : String} (h : x.call.pairsItem = some item) :
    (chars item).length ≤ 40 := by
  have hmem : item ∈ [stakeAmount, unstakeAmount, withdrawAmount] := by
    unfold Call.pairsItem at h
    grind
  have hall : ∀ item ∈ [stakeAmount, unstakeAmount, withdrawAmount], (chars item).length ≤ 40 := by
    decide +kernel
  exact hall item hmem

/-- The rows of a list of nodes fail only at a total that cannot be taken. -/
theorem pkAmountPairsRows_ensures {item : String} (hitem : x.call.pairsItem = some item)
    (hvm : x.call.vm ≠ .wasmvm) (hslots : slots x.call.arguments.tokens ≤ cfg.parametersMaxNum)
    (hnum : s.nbPairs ≤ 5) (hzero : s.buffers.Field cfg.totalPos amountSize []) :
    Ensures (pkAmountPairsRows cfg x.encode (x.view .zero) beyond) s fun ok t =>
      (ok = true ↔ x.call.arguments.nodes.length ≤ maxPubkeyDisplay ∨ x.call.ShortAmounts) ∧
      s.buffers.AgreeOff t.buffers (s.nbPairs * maxBufferLen) cfg.gasFeePos ∧
      t.nbPairs ≤ s.nbPairs + 8 ∧
      (ok = true → ∃ pairs, t.rows = s.rows ++ pairs ∧
        t.LaidOut s.nbPairs pairs (x.call.nodesRows cfg item) (cfg.parametersMaxNum + 1)) ∧
      (ok = true → maxPubkeyDisplay < x.call.arguments.nodes.length → t.nbPairs ≠ 0 ∧
        t.pairs (t.nbPairs - 1) = ⟨.literal (totalPlus ++ item), .buffer cfg.totalPos⟩ ∧
        t.buffers.IsString cfg.totalPos x.call.totalText) := by
  have hcfg := cfg.target_cases
  have hpairs : cfg.numPairs = cfg.parametersMaxNum + 2 := rfl
  have hmax : maxPubkeyDisplay = 3 := rfl
  have hgas : cfg.gasFeePos = cfg.totalPos + amountSize := rfl
  have hnodes := parameters_of_pairsItem x hitem
  have hne := List.length_pos_iff.mpr (x.nodes_ne_nil hnodes)
  obtain ⟨code, hcode, hcount⟩ := x.field_count hnodes
  have hread := convertParam_amount x hcode
  rw [hcount] at hread
  simp only [pkAmountPairsRows, pairsItem_eq, hitem, pure_bind, hread, Prog.ofExcept_ok]
  rw [if_neg (by omega), ensures_bind, ensures_get]
  generalize hlisted : (if x.call.arguments.nodes.length < maxPubkeyDisplay then _ else _) = listed
  have hlist : listed ≤ maxPubkeyDisplay ∧ listed ≤ x.call.arguments.nodes.length := by grind
  have htake : (x.call.arguments.nodes.drop 0).take listed =
      x.call.arguments.nodes.take maxPubkeyDisplay := by
    rw [List.drop_zero]
    grind
  refine ensures_bind.mpr ((pkAmountRows_ensures x hnodes hvm hslots (pairsItem_length x hitem) (by omega)
    (by omega) (by omega) (by omega)).mono ?_)
  rintro r t ⟨curr, rfl, hcurr, ht⟩
  rw [htake] at ht
  have hn := ht.nbPairs_eq
  have hrows := length_listedRows_le x cfg item
    (x.call.arguments.nodes.take maxPubkeyDisplay) 0
  rw [List.length_take] at hrows
  have hbelow : curr * maxBufferLen ≤ cfg.totalPos := Nat.mul_le_mul_right _ (by omega)
  have hag := ht.agree.mono (Nat.le_refl _) hbelow
  obtain ⟨pairs, hpairsRows, hlaid⟩ := ht.added
  dsimp only
  split
  · rename_i hlong
    refine (remainingRows_ensures x hnodes hslots (by omega) (by omega)
      (hzero.of_agreeOff hag (.inr (Nat.le_refl _)))).mono
      fun ok u hpost => ?_
    obtain ⟨hok, hag', hn', htotal⟩ := hpost
    refine ⟨hok.trans (or_iff_right (by omega)).symm, (hag.mono (Nat.le_refl _) (by omega)).trans
      (hag'.mono (Nat.mul_le_mul_right _ ht.le) (Nat.le_refl _)), by omega, fun hu => ?_,
      fun hu _ => ?_⟩
    · obtain ⟨-, -, more, hmore, hlaid'⟩ := htotal hu
      refine ⟨pairs ++ more, by rw [hmore, hpairsRows, List.append_assoc], ?_⟩
      rw [Call.nodesRows, if_pos hlong]
      exact (hlaid.of_agreeOff hag' (Nat.le_refl _)).append hlaid'
    · obtain ⟨hlast, hstring, more, hmore, hlaid'⟩ := htotal hu
      have hlen := congrArg List.length hmore
      rw [List.length_append, u.length_rows, hlaid'.length_eq] at hlen
      exact ⟨by simp at hlen; omega, hlast, hstring⟩
  · rename_i hshort
    refine ensures_pure.mpr ⟨⟨fun _ => .inl (by omega), fun _ => rfl⟩,
      hag.mono (Nat.le_refl _) (by omega), by omega, fun _ => ⟨pairs, hpairsRows, ?_⟩,
      fun _ h => absurd h (by omega)⟩
    rw [Call.nodesRows, if_neg hshort, ← List.append_nil pairs]
    exact hlaid.append (.nil (by omega))

end

end AppOnt
