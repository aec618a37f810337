import AppOnt.Ui.Stakes

/-!
# What a review says

The rows of a review as they are read on the screen: for every call of the table the
configured parameters at their places, one transfer behind the other, or the nodes
of a stake with their amounts; behind them the fee and the signer, and nothing else.
-/
namespace AppOnt

open Prog Token

namespace Display

/-- `ptr` leads to `text`. -/
def Tells (d : Display) (ptr : CharPtr) (text : List UInt8) : Prop :=
  match ptr with
  | .null => False
  | .literal s => text = chars s
  | .buffer pos => d.buffers.Holds pos text

/-- What is read in a row. -/
def TellsRow (d : Display) (pair : TagValue) (row : Row) : Prop :=
  d.Tells pair.item row.label ∧ d.Tells pair.value row.value

/-- The rows are read one after the other, and there are no others. -/
def TellsRows (d : Display) : List TagValue → List Row → Prop := List.Forall₂ d.TellsRow

variable {d d' : Display} {lo hi n : Nat} {pairs pairs' : List TagValue} {rows rows' : List Row}
  {pair : TagValue} {row : Row} {ptr : CharPtr} {text : List UInt8}

theorem Tells.of_buffers (h : d.Tells ptr text) (hbuffers : d'.buffers = d.buffers) : d'.Tells ptr text := by
  cases ptr with
  | buffer pos =>
    rw [Tells, hbuffers]
    exact h
  | _ => exact h

theorem Shows.tells (h : d.Shows lo ptr text hi) : d.Tells ptr text := by
  cases ptr with
  | null => exact h
  | literal s => exact h.1
  | buffer pos =>
    obtain ⟨_, -, -, -, -, hholds⟩ := h
    exact hholds

theorem LaidOut.tells (h : d.LaidOut lo pairs rows hi) : d.TellsRows pairs rows := by
  induction h with
  | nil => exact .nil
  | cons label value _ ih => exact .cons ⟨label.tells, value.tells⟩ ih

theorem TellsRows.append (h : d.TellsRows pairs rows) (h' : d.TellsRows pairs' rows') :
    d.TellsRows (pairs ++ pairs') (rows ++ rows') :=
  List.rel_append h h'

theorem TellsRows.of_buffers (h : d.TellsRows pairs rows) (hbuffers : d'.buffers = d.buffers) :
    d'.TellsRows pairs rows :=
  h.imp fun _ _ hrow => ⟨hrow.1.of_buffers hbuffers, hrow.2.of_buffers hbuffers⟩

/-- Rows that are given by their places. -/
theorem tellsRows_of_places {f : Nat → Row} (hn : d.nbPairs = n)
    (h : ∀ q < n, d'.TellsRow (d.pairs q) (f q)) : d'.TellsRows d.rows ((List.range n).map f) := by
  rw [TellsRows, rows, hn, List.forall₂_map_left_iff, List.forall₂_map_right_iff, List.forall₂_same]
  exact fun q hq => h q (List.mem_range.mp hq)

end Display

/-- What a review says that is drawn into `d`: the rows of the call, and behind them the fee and the
signer, whose texts are whole where the fee is short. -/
def Display.TellsReview [CryptoSdk] [FormatSdk] (d : Display) (cfg : Config) (path : List UInt32) (h : Header)
    (rows : List Row) : Prop :=
  let fee := leNat h.gasPrice.1 * leNat h.gasLimit.1
  ∃ signer, signerText maxBufferLen path = some signer ∧
    (∃ pairs, d.rows = pairs ++ [⟨.literal itemGasFee, .buffer cfg.gasFeePos⟩,
      ⟨.literal itemSigner, .buffer cfg.signerPos⟩] ∧ d.TellsRows pairs rows) ∧
    ((∃ k ≤ 9, 10 ^ k ∣ fee ∧ fee < 10 ^ (11 + k)) →
      d.TellsRows d.rows (rows ++ [⟨chars itemGasFee, feeText fee⟩, ⟨chars itemSigner, signer⟩]))

/-- What is said of a call that is not in the table: the address of its contract. -/
def blindRows (address : List UInt8) : List Row :=
  [⟨chars blindSignTx, chars blindSigning⟩, ⟨chars itemContractAddress, address⟩]

namespace Call

variable (c : Call)

instance : Decidable c.IsTransfer := inferInstanceAs (Decidable (_ ∨ _))

variable [CryptoSdk] [FormatSdk] (configs : List ParamConfig)

/-- The text of the `k`-th parameter, of a call that can be shown. -/
def text (k : Nat) : List UInt8 := (c.paramText k).getD []

/-- The row at the place `q`, with the parameters from `base` on. -/
def configuredRow (base q : Nat) : Row :=
  let i := configs.findIdx fun config => config.pos = q
  ⟨chars ((configs[i]?.map ParamConfig.item).getD ""), c.text (i + base)⟩

def configuredRows : List Row := (List.range configs.length).map (c.configuredRow configs 0)

/-- Three rows for each transfer. -/
def transferRows : List Row :=
  (List.range (slots c.arguments.tokens)).map fun q => c.configuredRow configs (3 * (q / 3)) (q % 3)

/-- What some native calls say besides. -/
def stakingRows (cfg : Config) : List Row :=
  (if chars methodRegisterCandidate = c.name then [⟨chars stakeFee, chars stakeFeeOng⟩] else []) ++
    match c.pairsItem with
    | some item => c.nodesRows cfg item
    | none => []

/-- What the review of a call says of it. -/
def reviewRows (cfg : Config) : List Row :=
  if c.vm = .native ∧ c.IsTransfer then c.transferRows configs
  else c.configuredRows configs ++ if c.vm = .native then c.stakingRows cfg else []

variable {c configs}

omit [CryptoSdk] [FormatSdk] in
/-- The parameter of a row is found by its place, where no two have the same. -/
theorem findIdx_pos (hnodup : (configs.map (·.pos)).Nodup) {i : Nat} {config : ParamConfig}
    (h : configs[i]? = some config) : (configs.findIdx fun d => decide (d.pos = config.pos)) = i := by
  obtain ⟨hi, hget⟩ := List.getElem?_eq_some_iff.mp h
  refine (List.findIdx_eq hi).mpr ⟨by simp [hget], fun j hji => ?_⟩
  have hplaces : (configs.map (·.pos)).length = configs.length := List.length_map _
  have hne : (configs.map (·.pos)).get ⟨j, by omega⟩ ≠ (configs.map (·.pos)).get ⟨i, by omega⟩ :=
    fun heq => Nat.ne_of_lt hji (hnodup.getElem_inj_iff.mp heq)
  simpa [hget] using hne

theorem configuredRow_eq (hnodup : (configs.map (·.pos)).Nodup) {i base : Nat} {config : ParamConfig}
    (h : configs[i]? = some config) :
    c.configuredRow configs base config.pos = ⟨chars config.item, c.text (i + base)⟩ := by
  simp only [configuredRow, findIdx_pos hnodup h, h, Option.map_some, Option.getD_some]

theorem length_text {k : Nat} {text : List UInt8} (h : c.paramText k = some text) :
    text.length < maxBufferLen := by
  obtain ⟨⟨type, data⟩, hfield, htext⟩ := Option.bind_eq_some_iff.mp h
  have hvalid := c.arguments.fields_valid _ (List.mem_of_getElem? hfield)
  cases type with
  | addr =>
    have hlen := (addressText_spec hvalid (by decide) htext).1
    rw [hlen]
    decide
  | pubkey =>
    obtain rfl := Option.some.inj htext
    exact hvalid.trans_lt (by decide)
  | amount =>
    obtain ⟨a, rfl⟩ : ∃ a : AmountCode, data = a.encode := hvalid
    obtain ⟨-, htext⟩ := Option.ite_none_left_eq_some.mp htext
    rw [amountValue_encode] at htext
    obtain rfl := Option.some.inj htext
    exact Nat.lt_of_le_of_lt (length_amountText c a.value_lt) (by decide)
  | uint128 =>
    obtain ⟨-, htext⟩ := Option.ite_none_right_eq_some.mp htext
    obtain rfl := Option.some.inj htext
    have hlt := leNat_lt data
    rw [show data.length = 16 from hvalid] at hlt
    exact Nat.lt_of_le_of_lt (length_amountText c (Nat.lt_of_lt_of_le hlt (by decide))) (by decide)
  | _ => exact hvalid.elim

/-- A row is read also after what is drawn into later fields. -/
theorem ShowsRow.tells {d d' : Display} {pos index lo hi : Nat} {item : String}
    (h : c.ShowsRow d pos item index) (hag : d.buffers.AgreeOff d'.buffers lo hi)
    (hindex : (index + 1) * maxBufferLen ≤ lo) : d'.TellsRow (d.pairs pos) ⟨chars item, c.text index⟩ := by
  obtain ⟨text, htext, hfield⟩ := h.shows
  have hshown : c.text index = text := by rw [Call.text, htext]; rfl
  rw [Nat.succ_mul] at hindex
  rw [h.pair_eq, hshown]
  exact ⟨rfl, (hfield.of_agreeOff hag (.inl hindex)).holds (length_text htext)⟩

/-- A row of a configuration at its place behind `base`. -/
theorem tells_configuredRow {d d' : Display} {base q hi : Nat}
    (hperm : (configs.map (·.pos)).Perm (List.range configs.length)) (hq : q < configs.length)
    (h : ∀ i config, configs[i]? = some config → c.ShowsRow d (config.pos + base) config.item (i + base))
    (hag : d.buffers.AgreeOff d'.buffers ((configs.length + base) * maxBufferLen) hi) :
    d'.TellsRow (d.pairs (q + base)) (c.configuredRow configs base q) := by
  obtain ⟨config, hmem, hpos⟩ := List.mem_map.mp (hperm.mem_iff.mpr (List.mem_range.mpr hq))
  obtain ⟨i, hi⟩ := List.getElem?_of_mem hmem
  have hlt := (List.getElem?_eq_some_iff.mp hi).1
  subst hpos
  rw [configuredRow_eq (hperm.nodup_iff.mpr List.nodup_range) hi]
  exact (h i config hi).tells hag (Nat.mul_le_mul_right _ (by omega))

end Call

/-- The rows of a method take the first places. -/
theorem display_positions (cfg : Config) (type : TxContractType) {name : List UInt8}
    {display : MethodDisplay} (h : displayOf cfg type name = some display) :
    (display.configs.map (·.pos)).Perm (List.range display.configs.length) := by
  obtain ⟨d, hd, rfl⟩ := Option.map_eq_some_iff.mp h
  have hall : ∀ d ∈ methodDisplays ⟨cfg.target, .w32⟩ type,
      (d.2.configs.map (·.pos)).Perm (List.range d.2.configs.length) := by
    cases cfg.target <;> cases type <;> decide +kernel
  exact hall d (List.mem_of_find?_eq_some hd)

section
variable [CryptoSdk] [FormatSdk] {cfg : Config} {s : Display} (x : Signable)
  {beyond : Nat → Except Fault TxParameter} {display : MethodDisplay}

/-- The review of a native transfer says every transfer. -/
theorem handleParams_tells_transfers (hvm : x.call.vm = .native) (htransfer : x.call.IsTransfer)
    (hslots : slots x.call.arguments.tokens ≤ cfg.parametersMaxNum)
    (hbeyond : ∃ p, beyond (slots x.call.arguments.tokens) = .ok p)
    (hd : displayOf cfg x.call.vm.contractType x.call.name = some display) :
    Ensures (handleParams cfg x.encode (x.view .zero) beyond display) s fun ok t => ok = true →
      t.TellsRows t.rows (x.call.transferRows display.configs) := by
  obtain ⟨n, hn⟩ := slots_transfer x htransfer
  have hconfigs := configs_of_transfer x hvm htransfer hd
  rw [hn] at hbeyond hslots
  refine (handleParams_transfer x hvm htransfer hn hslots (.inr hbeyond) hd).mono fun ok t hpost hok => ?_
  obtain ⟨hnum, hrows⟩ := hpost.2.2 hok
  refine Display.tellsRows_of_places (hnum.trans hn.symm) fun q hq => ?_
  have hplace : q % 3 + 3 * (q / 3) = q := Nat.mod_add_div q 3
  obtain ⟨hfrom, hto, hamount⟩ := hrows (q / 3) (by omega)
  have hshows : ∀ i config, display.configs[i]? = some config →
      x.call.ShowsRow t (config.pos + 3 * (q / 3)) config.item (i + 3 * (q / 3)) := by
    intro i config hi
    rw [hconfigs] at hi
    rcases i with _ | _ | _ | i
    · obtain rfl := Option.some.inj hi
      rw [Nat.zero_add]
      exact hfrom
    · obtain rfl := Option.some.inj hi
      exact hto
    · obtain rfl := Option.some.inj hi
      exact hamount
    · cases hi
  have hlt : q % 3 < display.configs.length := by
    rw [hconfigs]
    exact Nat.mod_lt q (by decide)
  have htells := Call.tells_configuredRow (display_positions cfg _ hd) hlt hshows (Memory.AgreeOff.refl _ _ 0)
  rwa [hplace] at htells

/-- Behind the rows of `s`, in later fields, `t` says `rows`. -/
structure TellsMore (cfg : Config) (s t : Display) (rows : List Row) : Prop where
  agree : s.buffers.AgreeOff t.buffers (s.nbPairs * maxBufferLen) cfg.gasFeePos
  added : ∃ pairs, t.rows = s.rows ++ pairs ∧ t.TellsRows pairs rows

theorem pkAmountPairsRows_tells (hvm : x.call.vm = .native)
    (hslots : slots x.call.arguments.tokens ≤ cfg.parametersMaxNum) (hnum : s.nbPairs ≤ 5)
    (hzero : s.buffers.Field cfg.totalPos amountSize []) :
    Ensures (pkAmountPairsRows cfg x.encode (x.view .zero) beyond) s fun ok t => ok = true →
      TellsMore cfg s t (match x.call.pairsItem with
        | some item => x.call.nodesRows cfg item
        | none => []) := by
  cases hitem : x.call.pairsItem with
  | none =>
    simp only [pkAmountPairsRows, pairsItem_eq, hitem, pure_bind, ensures_pure]
    exact fun _ => ⟨Memory.AgreeOff.refl _ _ _, [], (List.append_nil _).symm, .nil⟩
  | some item =>
    refine (pkAmountPairsRows_ensures x hitem (by rw [hvm]; decide) hslots hnum hzero).mono
      fun ok t hpost hok => ?_
    obtain ⟨-, hag, -, hadded, -⟩ := hpost
    obtain ⟨pairs, ht, hlaid⟩ := hadded hok
    exact ⟨hag, pairs, ht, hlaid.tells⟩

/-- What a native call says besides. -/
theorem nativeRows_tells (hvm : x.call.vm = .native) (htransfer : ¬ x.call.IsTransfer)
    (hslots : slots x.call.arguments.tokens ≤ cfg.parametersMaxNum) (hnum : s.nbPairs ≤ 4)
    (hzero : s.buffers.Field cfg.totalPos amountSize []) :
    Ensures (nativeRows cfg x.encode (x.view .zero) beyond display) s fun ok t => ok = true →
      TellsMore cfg s t (x.call.stakingRows cfg) := by
  have hcfg := cfg.target_cases
  have hpairs : cfg.numPairs = cfg.parametersMaxNum + 2 := rfl
  rw [nativeRows_other x htransfer, Call.stakingRows]
  split
  · simp only [ensures_bind, ensures_appendPair]
    refine ⟨by omega, by omega, ?_⟩
    refine (pkAmountPairsRows_tells x hvm hslots ?_ ?_).mono fun ok t h hok => ?_
    · exact Nat.succ_le_succ hnum
    · exact hzero
    · obtain ⟨hag, pairs, ht, htells⟩ := h hok
      refine ⟨hag.mono (Nat.mul_le_mul_right _ (Nat.le_succ _)) (Nat.le_refl _),
        ⟨.literal stakeFee, .literal stakeFeeOng⟩ :: pairs, ?_, .cons ⟨rfl, rfl⟩ htells⟩
      rw [ht, s.rows_append, List.append_assoc, List.singleton_append]
  · exact pkAmountPairsRows_tells x hvm hslots (by omega) hzero

/-- The rows of a call are what its review says of it. -/
theorem handleParams_tells (hslots : slots x.call.arguments.tokens ≤ cfg.parametersMaxNum)
    (hbeyond : ∃ p, beyond (slots x.call.arguments.tokens) = .ok p)
    (hd : displayOf cfg x.call.vm.contractType x.call.name = some display)
    (hzero : s.buffers.Field cfg.totalPos amountSize []) :
    Ensures (handleParams cfg x.encode (x.view .zero) beyond display) s fun ok t => ok = true →
      t.TellsRows t.rows (x.call.reviewRows display.configs cfg) := by
  have hcfg := cfg.target_cases
  have hpairs : cfg.numPairs = cfg.parametersMaxNum + 2 := rfl
  unfold Call.reviewRows
  split
  · rename_i htransfer
    exact handleParams_tells_transfers x htransfer.1 htransfer.2 hslots hbeyond hd
  · rename_i htransfer
    obtain ⟨hnodup, hpos, hlen⟩ := display_configs cfg _ hd
    simp only [handleParams, ensures_bind, ensures_modify]
    refine (paramRows_ensures x hslots 4 display.configs 0 hnodup
      (fun c hc => by have := hpos c hc; omega) (by omega) (by omega)).mono fun ok t hpost => ?_
    obtain ⟨-, hdraw, hnum, hrows⟩ := hpost
    replace hnum : t.nbPairs = display.configs.length := hnum
    cases ok with
    | false => exact ensures_pure.mpr (by simp)
    | true =>
      have hconfigured : ∀ {u : Display}, t.buffers.AgreeOff u.buffers (t.nbPairs * maxBufferLen)
          cfg.gasFeePos → u.TellsRows t.rows (x.call.configuredRows display.configs) := by
        intro u hag
        have hshows : ∀ i config, display.configs[i]? = some config →
            x.call.ShowsRow t (config.pos + 0) config.item (i + 0) := fun i config hi => by
          have hrow := hrows rfl i config hi
          rwa [Nat.zero_add] at hrow
        rw [hnum] at hag
        exact Display.tellsRows_of_places hnum fun q hq =>
          Call.tells_configuredRow (display_positions cfg _ hd) hq hshows hag
      rw [if_pos rfl]
      split
      · rename_i hnative
        have hvm : x.call.vm ≠ .native := fun h => hnative (congrArg Vm.contractType h)
        rw [if_neg hvm, List.append_nil]
        exact ensures_pure.mpr fun _ => hconfigured (Memory.AgreeOff.refl _ _ _)
      · rename_i hnative
        have hvm : x.call.vm = .native := Vm.contractType_inj (not_not.mp hnative)
        have hle : (0 + display.configs.length + 0) * maxBufferLen ≤ cfg.totalPos :=
          Nat.mul_le_mul_right _ (by omega)
        rw [if_pos hvm]
        refine (nativeRows_tells x hvm (fun ht => htransfer ⟨hvm, ht⟩) hslots (by omega)
          (hzero.of_agreeOff hdraw.agree (.inr hle))).mono fun ok u h hok => ?_
        obtain ⟨hag, pairs, hu, htells⟩ := h hok
        rw [hu]
        exact (hconfigured hag).append htells

/-- The clear review of a call: what is said of it, and the two rows behind. -/
theorem uiDisplayNormalTransaction_tells (hslots : slots x.call.arguments.tokens ≤ cfg.parametersMaxNum)
    (hbeyond : ∃ p, beyond (slots x.call.arguments.tokens) = .ok p)
    (hd : displayOf cfg x.call.vm.contractType x.call.name = some display)
    (hzero : s.buffers.Field cfg.totalPos amountSize []) :
    Yields (uiDisplayNormalTransaction cfg x.encode (x.view .zero) beyond) s fun drawn d =>
      drawn = .review → ∃ u, DrawsEnds cfg u d ∧
        d.TellsRows u.rows (x.call.reviewRows display.configs cfg) := by
  have hinit : initDipslayPosAndItem cfg x.encode (x.view .zero) = .ok (some display) := by
    rw [x.initDipslay_view, hd]
  rw [uiDisplayNormalTransaction, hinit, ofExcept_ok, pure_bind]
  refine yields_bind.mpr ((handleParams_tells x hslots hbeyond hd hzero).yields.mono fun ok u htells => ?_)
  cases ok with
  | false => exact yields_pure.mpr (by simp)
  | true =>
    refine yields_bind.mpr (feeAndSignerRows_yields.mono fun _ d hends => yields_pure.mpr fun _ => ?_)
    exact ⟨u, hends, (htells rfl).of_buffers hends.buffers_eq⟩

/-- Where the texts behind the rows are intact, they are read as well. -/
theorem EndsIntact.tells {header : TxHeader} {path : List UInt32} {u d : Display} {signer : List UInt8}
    {rows : List Row} (h : EndsIntact cfg header path d) (hsigner : signerText maxBufferLen path = some signer)
    (hends : DrawsEnds cfg u d) (htells : d.TellsRows u.rows rows) :
    d.TellsRows d.rows (rows ++ [⟨chars itemGasFee, feeText (header.gasPrice * header.gasLimit)⟩,
      ⟨chars itemSigner, signer⟩]) := by
  obtain ⟨signer', hsigner', hstring⟩ := h.signer
  obtain rfl : signer' = signer := Option.some.inj (hsigner'.symm.trans hsigner)
  rw [hends.rows_eq]
  exact htells.append (.cons ⟨rfl, h.fee.holds⟩ (.cons ⟨rfl, hstring.holds⟩ .nil))

/-- The clear review of a call of the table says what its call says. -/
theorem displayTransaction_tells (hx : x.Admitted cfg)
    (hd : displayOf cfg x.call.vm.contractType x.call.name = some display) {rest : Nat → TxParameter}
    {path : List UInt32} {d : Display}
    (hreview : (displayTransaction cfg x.encode (x.view .zero) (fun j => .ok (rest j)) path false).run s =
      .ok (.review, d)) :
    d.TellsReview cfg path x.header (x.call.reviewRows display.configs cfg) := by
  obtain ⟨u, signer, hsigner, hp, hrun⟩ := displayTransaction_review hreview
  obtain ⟨v, hends, htells⟩ := uiDisplayNormalTransaction_tells x hx.slots_le ⟨_, rfl⟩ hd hp.total
    _ d hrun rfl
  refine ⟨signer, hsigner, ⟨v.rows, hends.rows_eq, htells⟩, fun hfee => ?_⟩
  obtain ⟨w, hag, hends', -⟩ := uiDisplayNormalTransaction_review hx hp hrun
  have hintact := (hp.endsIntact_iff hsigner hag hends' x.header.fee_max).mpr hfee
  exact hintact.tells hsigner hends htells

omit [CryptoSdk] in
/-- What is said of a call that is not in the table, and the two rows behind. -/
theorem uiDisplayBsTransaction_tells {raw : List UInt8} {tx : Transaction} {a : Bytes addressScriptHashLen}
    (hread : readPtr raw tx.contract.addr.data tx.contract.addr.len = .ok a.1) (hnum : s.nbPairs = 0) :
    Yields (uiDisplayBsTransaction cfg raw tx) s fun _ d => ∃ u, DrawsEnds cfg u d ∧
      ∃ text, FormatSdk.formatHex a.1 maxBufferLen = some text ∧ d.TellsRows u.rows (blindRows text) := by
  have hlen : a.1.length = 20 := a.2
  have hfits : 2 * a.1.length < maxBufferLen := by
    rw [hlen]
    decide
  obtain ⟨text, htext, -⟩ := FormatSdk.hex_length hfits
  have hempty : s.rows = [] := by rw [Display.rows, hnum]; rfl
  rw [uiDisplayBsTransaction, hread, ofExcept_ok, pure_bind, htext]
  refine yields_bind.mpr (appendPair_yields.mono fun _ t₁ h₁ => yields_bind.mpr (store_yields.mono
    fun _ t₂ h₂ => yields_bind.mpr (appendPair_yields.mono fun _ t₃ h₃ => ?_)))
  refine yields_bind.mpr (feeAndSignerRows_yields.mono fun _ d hends => yields_pure.mpr ?_)
  refine ⟨t₃, hends, text, rfl, ?_⟩
  have hrows : t₃.rows = [⟨.literal blindSignTx, .literal blindSigning⟩,
      ⟨.literal itemContractAddress, .buffer 0⟩] := by
    have hrows₂ : t₂.rows = t₁.rows := by rw [h₂.2]; rfl
    rw [h₃, t₂.rows_append, hrows₂, h₁, s.rows_append, hempty]
    rfl
  have hheld : d.buffers.Holds 0 text := by
    have hwritten := Memory.write_holds t₁.buffers 0 text
    rw [hends.buffers_eq, h₃, h₂.2]
    exact hwritten
  rw [hrows]
  exact .cons ⟨rfl, rfl⟩ (.cons ⟨rfl, hheld⟩ .nil)

/-- The blind review of an undefined transaction says which contract is called. -/
theorem displayTransaction_tells_blind [BufferSdk] {raw : List UInt8} {t : ParserState}
    (hparse : (transactionDeserialize cfg).run ⟨.ofBytes raw, .zero⟩ = .ok (.txNotDefined, t))
    {beyond : Nat → Except Fault TxParameter} {path : List UInt32} {d : Display}
    (hreview : (displayTransaction cfg raw t.tx beyond path true).run s = .ok (.review, d)) :
    ∃ x : Foreign, x.Admitted cfg ∧ x.encode = raw ∧
      ∃ text, FormatSdk.formatHex x.contract.1 maxBufferLen = some text ∧
        d.TellsReview cfg path x.header (blindRows text) := by
  obtain ⟨x, hx, hencode, hheader, hread⟩ := undefined_contract hparse
  obtain ⟨u, signer, hsigner, hp, hrun⟩ := displayTransaction_review hreview
  obtain ⟨v, hends, text, htext, htells⟩ := uiDisplayBsTransaction_tells hread hp.nbPairs_eq _ d hrun
  refine ⟨x, hx, hencode, text, htext, signer, hsigner, ⟨v.rows, hends.rows_eq, htells⟩, fun hfee => ?_⟩
  obtain ⟨w, hag, hends'⟩ := uiDisplayBsTransaction_yields .review d hrun
  rw [hheader] at hp
  have hintact := (hp.endsIntact_iff hsigner hag hends' x.header.fee_max).mpr hfee
  exact hintact.tells hsigner hends htells

end

/-- The clear review of an accepted transaction says what its call says, and behind it the fee and
the signer, whose texts are whole where the fee is short. -/
theorem review_tells [BufferSdk] [CryptoSdk] [FormatSdk] (cfg : Config) (raw : List UInt8)
    (t : ParserState) (hparse : (transactionDeserialize cfg).run ⟨.ofBytes raw, .zero⟩ = .ok (.ok, t))
    (beyond : Nat → TxParameter) (path : List UInt32) (s d : Display)
    (hreview : (displayTransaction cfg raw t.tx (fun j => .ok (beyond j)) path false).run s =
      .ok (.review, d)) :
    ∃ (x : Signable) (display : MethodDisplay) (signer : List UInt8), x.encode = raw ∧
      initDipslayPosAndItem cfg raw t.tx = .ok (some display) ∧
      signerText maxBufferLen path = some signer ∧
      (∃ pairs, d.rows = pairs ++ [⟨.literal itemGasFee, .buffer cfg.gasFeePos⟩,
          ⟨.literal itemSigner, .buffer cfg.signerPos⟩] ∧
        d.TellsRows pairs (x.call.reviewRows display.configs cfg)) ∧
      ((∃ k ≤ 9, 10 ^ k ∣ t.tx.header.gasPrice * t.tx.header.gasLimit ∧
          t.tx.header.gasPrice * t.tx.header.gasLimit < 10 ^ (11 + k)) →
        d.TellsRows d.rows (x.call.reviewRows display.configs cfg ++
          [⟨chars itemGasFee, feeText (t.tx.header.gasPrice * t.tx.header.gasLimit)⟩,
            ⟨chars itemSigner, signer⟩])) := by
  obtain ⟨x, hx⟩ := ((transactionDeserialize_returns cfg raw .zero).iff t).mp hparse
  obtain rfl := hx.encode_eq
  rw [hx.tx_eq] at hreview ⊢
  obtain ⟨display, hd⟩ := Option.isSome_iff_exists.mp
    (displayOf_isSome cfg x.call.vm.contractType x.call.registered x.call.method_mem)
  have hinit : initDipslayPosAndItem cfg x.encode (x.view .zero) = .ok (some display) := by
    rw [x.initDipslay_view, Call.name, hd]
  obtain ⟨signer, hsigner, hcall, hfee⟩ := displayTransaction_tells x hx.admitted hd hreview
  exact ⟨x, display, signer, rfl, hinit, hsigner, hcall, hfee⟩

theorem review_tells_sample :
    let := CryptoSdk.reference
    let := FormatSdk.reference
    ∃ (x : Signable) (display : MethodDisplay) (d : Display) (signer : List UInt8),
      x.encode = sampleTransfer.encode ∧
      (displayTransaction ⟨.nano, .w32⟩ sampleTransfer.encode (sampleTransfer.view .zero)
        (fun _ => .ok .zero) [] false).run .zero = .ok (.review, d) ∧
      d.TellsRows d.rows (x.call.reviewRows display.configs ⟨.nano, .w32⟩ ++
        [⟨chars itemGasFee, feeText ((sampleTransfer.view .zero).header.gasPrice *
          (sampleTransfer.view .zero).header.gasLimit)⟩, ⟨chars itemSigner, signer⟩]) := by
  let := BufferSdk.reference
  let := CryptoSdk.reference
  let := FormatSdk.reference
  have := CryptoSdk.reference_total
  obtain ⟨d, hd⟩ := displayTransaction_reviews sampleTransfer_admitted
    (renderable_ontTransfer (by decide)) (fun _ => .zero) (signerText_reference []) .zero
  obtain ⟨x, display, signer, hx, -, -, -, htells⟩ := review_tells ⟨.nano, .w32⟩ sampleTransfer.encode
    _ (sampleTransfer_admitted.run .zero) (fun _ => .zero) [] .zero d hd
  exact ⟨x, display, d, signer, hx, hd, htells ⟨0, by decide, by decide, by decide⟩⟩

end AppOnt
