import AppOnt.Transaction.Unambiguous
import AppOnt.Ui.Rows

/-!
# Lists of transfers

The loop over the further transfers of a list, which stops where a parameter is
missing. It gets to the end of the list and no further; when the list fills the
parameter array, the condition that it stops on reads behind the array first.
-/
namespace AppOnt

open Prog Token

section
variable [CryptoSdk] [FormatSdk] {cfg : Config} {s : Display} (x : Signable)
  {beyond : Nat → Except Fault TxParameter}

omit [CryptoSdk] [FormatSdk] in
/-- What the condition of the loop sees: a transfer, or the end of the list. -/
theorem readParameter_ensures {n stateNum : Nat} (hslots : slots x.call.arguments.tokens = 3 * n)
    (hmax : 3 * n ≤ cfg.parametersMaxNum) (hle : stateNum ≤ n)
    (hbeyond : 3 * n < cfg.parametersMaxNum ∨ ∃ p, beyond (3 * n) = .ok p) :
    Ensures (readParameter cfg (x.view .zero) beyond (3 * stateNum)) s fun p t => t = s ∧
      (p.data ≠ none ∧ 3 * stateNum + 2 < cfg.parametersMaxNum ↔ stateNum < n) := by
  rw [readParameter, ensures_ofExcept]
  rcases Nat.lt_or_ge stateNum n with hlt | hge
  · refine ⟨_, if_pos (by omega), rfl, ?_⟩
    have := x.present_of_lt .zero (show 3 * stateNum < _ by omega)
    exact ⟨fun _ => hlt, fun _ => ⟨this, by omega⟩⟩
  · obtain rfl : stateNum = n := by omega
    rcases Nat.lt_or_ge (3 * stateNum) cfg.parametersMaxNum with hin | hout
    · refine ⟨_, if_pos hin, rfl, ?_⟩
      rw [x.parameters_of_le (Nat.le_of_eq hslots)]
      simp [Transaction.zero, TxParameter.zero]
    · obtain ⟨p, hp⟩ := hbeyond.resolve_left (by omega)
      refine ⟨p, by rw [if_neg (by omega), hp], rfl, ?_⟩
      constructor <;> omega

/-- From a transfer of the list on the loop draws the rows of the others. -/
theorem transferRows_ensures {n : Nat} (hslots : slots x.call.arguments.tokens = 3 * n)
    (hmax : 3 * n ≤ cfg.parametersMaxNum) {configs : List ParamConfig} (hlen : configs.length = 3)
    (hnodup : (configs.map (·.pos)).Nodup) (hpos : ∀ c ∈ configs, c.pos < 3)
    (hbeyond : 3 * n < cfg.parametersMaxNum ∨ ∃ p, beyond (3 * n) = .ok p) (fuel stateNum : Nat)
    (hle : stateNum ≤ n) (hfuel : n < stateNum + fuel) (hnum : s.nbPairs = 3 * stateNum) :
    Ensures (transferRows cfg x.encode (x.view .zero) beyond configs fuel stateNum) s fun ok t =>
      (ok = true ↔ ∀ k, 3 * stateNum ≤ k → k < 3 * n → (x.call.paramText k).isSome) ∧
      Draws s t (3 * stateNum) (3 * n) (fun q => 3 * stateNum ≤ q) ∧
      (ok = true → t.nbPairs = 3 * n ∧ ∀ j, stateNum ≤ j → j < n → ∀ i c, configs[i]? = some c →
        x.call.ShowsRow t (c.pos + 3 * j) c.item (i + 3 * j)) := by
  have hcfg := cfg.target_cases
  have hpairs : cfg.numPairs = cfg.parametersMaxNum + 2 := rfl
  induction fuel generalizing stateNum s with
  | zero => omega
  | succ fuel ih =>
    rw [transferRows, ensures_bind]
    refine (readParameter_ensures x hslots hmax hle hbeyond).mono fun p t hpost => ?_
    obtain ⟨ht, hp⟩ := hpost
    subst ht
    by_cases hlt : stateNum < n
    · rw [if_pos (hp.mpr hlt), List.take_of_length_le (Nat.le_of_eq hlen), ensures_bind]
      refine (paramRows_ensures x (by omega) (3 * stateNum + 3) configs 0 hnodup
        (fun c hc => by have := hpos c hc; omega) (by omega) (by omega)).mono
        fun ok t hpost => ?_
      obtain ⟨hok, hd, hn, hrows⟩ := hpost
      rw [hlen, Nat.zero_add, Nat.zero_add] at hd
      cases ok with
      | false =>
        refine ensures_pure.mpr ⟨⟨by simp, fun hall => ?_⟩, ⟨hd.agree.mono (Nat.le_refl _)
          (Nat.mul_le_mul_right _ (by omega)), fun q hq => hd.pairs_eq q ?_⟩, by simp⟩
        · exact hok.mpr fun j hj => hall _ (by omega) (by omega)
        · rintro ⟨c, -, rfl⟩
          omega
      | true =>
        rw [if_pos rfl]
        simp only [ensures_bind, ensures_u8, ensures_get, ensures_modify]
        refine ⟨by omega, by omega, (ih (stateNum + 1) hlt (by omega) (by dsimp only; omega)).mono
          fun ok u hpost => ?_⟩
        obtain ⟨hall', hd', hrest⟩ := hpost
        refine ⟨hall'.trans ?_, ?_, fun hu => ⟨(hrest hu).1, ?_⟩⟩
        · refine ⟨fun h k hk hkn => ?_, fun h k hk hkn => h k (by omega) hkn⟩
          rcases Nat.lt_or_ge k (3 * (stateNum + 1)) with hthis | hlater
          · have := hok.mp rfl (k - 3 * stateNum) (by omega)
            rwa [show 0 + (k - 3 * stateNum) + 3 * stateNum = k by omega] at this
          · exact h k hlater hkn
        · rw [show 3 + 3 * stateNum = 3 * (stateNum + 1) by omega] at hd
          refine hd.trans (q := fun q => 3 * (stateNum + 1) ≤ q) ⟨hd'.agree, hd'.pairs_eq⟩ (by omega)
            (by omega) ?_
          rintro q (⟨c, -, rfl⟩ | hq) <;> omega
        · intro j hj hjn i c hi
          rcases Nat.lt_or_ge stateNum j with hlater | hthis
          · exact (hrest hu).2 j hlater hjn i c hi
          · obtain rfl : stateNum = j := by omega
            have hrow := hrows rfl i c hi
            rw [Nat.zero_add] at hrow
            have hi3 := (List.getElem?_eq_some_iff.mp hi).1
            have hc := hpos c (List.mem_of_getElem? hi)
            exact Call.ShowsRow.of_draws (s := { t with nbPairs := t.nbPairs + 3 })
              ⟨hrow.pair_eq, hrow.shows⟩ hd' (by omega) (by omega)
    · obtain rfl : stateNum = n := by omega
      rw [if_neg (mt hp.mp hlt)]
      refine ensures_pure.mpr ⟨⟨fun _ k hk hkn => by omega, fun _ => rfl⟩, ⟨Memory.AgreeOff.refl _ _ _, fun _ _ => rfl⟩,
        fun _ => ⟨hnum, fun j hj hjn => absurd hj (by omega)⟩⟩

/-- The label for the amounts of a list of nodes, if the method takes one. -/
def Call.pairsItem (c : Call) : Option String :=
  if chars methodAuthorizeForPeer = c.name then some stakeAmount
  else if chars methodUnauthorizeForPeer = c.name then some unstakeAmount
  else if chars methodWithdraw = c.name then some withdrawAmount
  else none

omit [CryptoSdk] [FormatSdk] in
theorem pairsItem_eq {tx : Transaction} :
    pairsItem x.encode (x.view tx) = pure x.call.pairsItem := by
  simp only [pairsItem, x.methodcmp_view, Prog.ofExcept_ok, pure_bind, decide_eq_true_eq, Call.pairsItem]
  grind

omit [CryptoSdk] [FormatSdk] in
/-- How a transfer is displayed in a native call, whichever contract it is for. -/
theorem transfer_display (cfg : Config) {name : List UInt8}
    (h : chars methodTransfer = name ∨ chars methodTransferV2 = name) :
    (displayOf cfg .native name).map (·.configs) =
      some [⟨itemFrom, 0⟩, ⟨itemTo, 2⟩, ⟨itemAmount, 1⟩] := by
  rcases h with rfl | rfl <;> rw [displayOf_target] <;> cases cfg.target <;> decide +kernel

omit [CryptoSdk] [FormatSdk] in
theorem configs_of_transfer (hnative : x.call.vm = .native)
    (hname : chars methodTransfer = x.call.name ∨ chars methodTransferV2 = x.call.name)
    {display : MethodDisplay} (hd : displayOf cfg x.call.vm.contractType x.call.name = some display) :
    display.configs = [⟨itemFrom, 0⟩, ⟨itemTo, 2⟩, ⟨itemAmount, 1⟩] := by
  have h := transfer_display cfg hname
  rw [hnative] at hd
  rw [show displayOf cfg .native x.call.name = some display from hd] at h
  exact Option.some.inj h

omit [CryptoSdk] [FormatSdk] in
/-- A transfer is none of the methods with rows of their own. -/
theorem transfer_other {name : List UInt8}
    (h : chars methodTransfer = name ∨ chars methodTransferV2 = name) :
    ∀ other ∈ [methodRegisterCandidate, methodAuthorizeForPeer, methodUnauthorizeForPeer,
      methodWithdraw, methodSetFeePercentage], chars other ≠ name := by
  rcases h with rfl | rfl <;> decide +kernel

/-- All that is special about a transfer is the loop over the further ones. -/
theorem nativeRows_transfer
    (hname : chars methodTransfer = x.call.name ∨ chars methodTransferV2 = x.call.name)
    {tx : Transaction} {display : MethodDisplay} :
    nativeRows cfg x.encode (x.view tx) beyond display =
      transferRows cfg x.encode (x.view tx) beyond display.configs cfg.parametersMaxNum 1 := by
  have hother := transfer_other hname
  simp only [List.forall_mem_cons] at hother
  have hitem : x.call.pairsItem = none := by simp [Call.pairsItem, hother]
  have htransfer : (decide (chars methodTransfer = x.call.name) ||
      decide (chars methodTransferV2 = x.call.name)) = true := by simpa using hname
  simp [nativeRows, pkAmountPairsRows, pairsItem_eq, x.methodcmp_view, hother, hitem]
  exact fun h h' => absurd hname (not_or.mpr ⟨h, h'⟩)

/-- The rows of a native transfer, one transfer after the other. -/
theorem handleParams_transfer (hnative : x.call.vm = .native)
    (hname : chars methodTransfer = x.call.name ∨ chars methodTransferV2 = x.call.name) {n : Nat}
    (hslots : slots x.call.arguments.tokens = 3 * n) (hmax : 3 * n ≤ cfg.parametersMaxNum)
    (hbeyond : 3 * n < cfg.parametersMaxNum ∨ ∃ p, beyond (3 * n) = .ok p) {display : MethodDisplay}
    (hd : displayOf cfg x.call.vm.contractType x.call.name = some display) :
    Ensures (handleParams cfg x.encode (x.view .zero) beyond display) s fun ok t =>
      (ok = true ↔ n ≠ 0 ∧ ∀ k < 3 * n, (x.call.paramText k).isSome) ∧
      s.buffers.AgreeOff t.buffers 0 cfg.totalPos ∧
      (ok = true → t.nbPairs = 3 * n ∧ ∀ j < n, x.call.ShowsRow t (3 * j) itemFrom (3 * j) ∧
        x.call.ShowsRow t (2 + 3 * j) itemTo (1 + 3 * j) ∧
        x.call.ShowsRow t (1 + 3 * j) itemAmount (2 + 3 * j)) := by
  have hcfg := cfg.target_cases
  have hpairs : cfg.numPairs = cfg.parametersMaxNum + 2 := rfl
  have hconfigs := configs_of_transfer x hnative hname hd
  have hpos : ∀ c ∈ display.configs, c.pos < 3 := by rw [hconfigs]; decide
  have hnodup : (display.configs.map (·.pos)).Nodup := by rw [hconfigs]; decide
  have hlen : display.configs.length = 3 := by rw [hconfigs]; rfl
  have htype : (x.view .zero).contract.type = .native := by
    change x.call.vm.contractType = .native
    rw [hnative]
    rfl
  simp only [handleParams, ensures_bind, ensures_modify]
  refine (paramRows_ensures x (by omega) 3 display.configs 0 hnodup
    (fun c hc => by have := hpos c hc; omega) (by omega) (by omega)).mono
    fun ok t hpost => ?_
  obtain ⟨hok, hd, hn, hrows⟩ := hpost
  rw [hlen] at hok hd hn
  have hle : 3 * maxBufferLen ≤ cfg.totalPos := Nat.mul_le_mul_right _ (by omega)
  cases ok with
  | false =>
    refine ensures_pure.mpr ⟨⟨by simp, fun h => ?_⟩, hd.agree.mono (by omega) hle, by simp⟩
    exact hok.mpr fun j hj => h.2 _ (by omega)
  | true =>
    have hne : n ≠ 0 := by
      rintro rfl
      have := hok.mp rfl 0 (by omega)
      rw [Call.paramText, List.getElem?_eq_none (by rw [length_fields]; omega)] at this
      cases this
    rw [if_pos rfl, if_neg (not_not.mpr htype), nativeRows_transfer x hname]
    refine (transferRows_ensures x hslots hmax hlen hnodup hpos hbeyond _ 1 (by omega) (by omega)
      (by rw [hn])).mono fun ok u hpost => ?_
    obtain ⟨hall, hd', hrest⟩ := hpost
    rw [show 0 + 3 + 0 = 3 * 1 by rfl] at hd
    refine ⟨⟨fun hu => ⟨hne, fun k hk => ?_⟩, fun h => hall.mpr fun k _ hk => h.2 k hk⟩, ?_,
      fun hu => ⟨(hrest hu).1, fun j hj => ?_⟩⟩
    · rcases Nat.lt_or_ge k 3 with hfirst | hlater
      · have := hok.mp rfl k hfirst
        rwa [Nat.zero_add, Nat.add_zero] at this
      · exact hall.mp hu k hlater hk
    · exact (hd.trans hd' (by omega) (by omega) (r := fun _ => True) fun _ _ => trivial).agree.mono
        (by omega) (Nat.mul_le_mul_right _ hmax)
    · -- the first transfer is drawn by the first loop, and the others lie behind it
      have hrow : ∀ i c, display.configs[i]? = some c →
          x.call.ShowsRow u (c.pos + 3 * j) c.item (i + 3 * j) := by
        intro i c hi
        rcases Nat.lt_or_ge j 1 with hfirst | hlater
        · obtain rfl : j = 0 := by omega
          have hrow := hrows rfl i c hi
          rw [Nat.zero_add, Nat.add_zero] at hrow
          have hi3 := (List.getElem?_eq_some_iff.mp hi).1
          have hc := hpos c (List.mem_of_getElem? hi)
          exact hrow.of_draws hd' (by omega) (by omega)
        · exact (hrest hu).2 j hlater hj i c hi
      rw [hconfigs] at hrow
      have hfrom := hrow 0 _ rfl
      rw [Nat.zero_add] at hfrom
      exact ⟨hfrom, hrow 1 _ rfl, hrow 2 _ rfl⟩

end

/-- A row shows a text under a label. -/
structure Display.ShowsText (d : Display) (pos : Nat) (item : String) (index : Nat)
    (text : List UInt8) : Prop where
  pair_eq : d.pairs pos = ⟨.literal item, .buffer (index * maxBufferLen)⟩
  isString : d.buffers.IsString (index * maxBufferLen) text

section
variable [CryptoSdk] [FormatSdk] {cfg : Config} {s t : Display} (x : Signable)

theorem Call.ShowsRow.showsText {c : Call} {pos index : Nat} {item : String} {text : List UInt8}
    (h : c.ShowsRow t pos item index) (htext : c.paramText index = some text)
    (hne : (0 : UInt8) ∉ text) (hlt : text.length < maxBufferLen) :
    t.ShowsText pos item index text := by
  obtain ⟨text', htext', hfield⟩ := h.shows
  obtain rfl : text' = text := Option.some.inj (htext'.symm.trans htext)
  exact ⟨h.pair_eq, hfield.isString hne hlt⟩

/-- The texts of the `j`-th transfer of a list. -/
theorem paramText_state (hlist : x.call.method.parameters = [.transferStateList]) {j : Nat}
    {st : TransferState} (hj : x.call.arguments.states[j]? = some st) :
    x.call.paramText (3 * j) = addressText maxBufferLen st.source.1 ∧
      x.call.paramText (1 + 3 * j) = addressText maxBufferLen st.target.1 ∧
      x.call.paramText (2 + 3 * j) = some (x.call.amountText st.amount.value) := by
  obtain ⟨hvm, hfields⟩ := x.call.arguments.fields_list hlist
  have htext : ∀ i < 3, x.call.paramText (i + 3 * j) =
      [(.addr, st.source.1), (.addr, st.target.1), (.amount, st.amount.encode)][i]?.bind
        x.call.fieldText := by
    intro i hi
    rw [Call.paramText, hfields, Nat.add_comm, getElem?_states hi, hj]
    rfl
  refine ⟨(congrArg _ (Nat.zero_add _).symm).trans (htext 0 (by decide)), htext 1 (by decide), ?_⟩
  have hamount : x.call.fieldText (.amount, st.amount.encode) = some _ := if_neg (by rw [hvm]; decide)
  rw [htext 2 (by decide), ← amountValue_encode]
  exact hamount

/-- Every text of a list of transfers can be shown, where no digest fails. -/
theorem paramText_isSome_of_list [CryptoSdk.Total]
    (hlist : x.call.method.parameters = [.transferStateList]) {k : Nat}
    (hk : k < 3 * x.call.arguments.states.length) : (x.call.paramText k).isSome := by
  have hj := List.getElem?_eq_getElem (l := x.call.arguments.states) (i := k / 3) (by omega)
  obtain ⟨h₀, h₁, h₂⟩ := paramText_state x hlist hj
  have hout : base58AddressLen ≤ maxBufferLen := by decide
  have hmod : k % 3 = 0 ∨ k % 3 = 1 ∨ k % 3 = 2 := by omega
  rcases hmod with h | h | h
  · rw [show k = 3 * (k / 3) by omega, h₀]
    exact addressText_isSome (x.call.arguments.states[k / 3]).source.2 hout
  · rw [show k = 1 + 3 * (k / 3) by omega, h₁]
    exact addressText_isSome (x.call.arguments.states[k / 3]).target.2 hout
  · rw [show k = 2 + 3 * (k / 3) by omega, h₂]
    rfl

end

theorem vm_of_nativeToken : ∀ p ∈ getTxPayload, p.contractAddr = ontAddr ∨ p.contractAddr = ongAddr →
    p.vm = .native := by
  decide

theorem Signable.Admitted.slots_le {x : Signable} {cfg : Config} (h : x.Admitted cfg) :
    slots x.call.arguments.tokens ≤ cfg.parametersMaxNum :=
  (x.call.arguments.fits_iff (parameters_getLast _ x.call.registered _ x.call.method_mem)).mp h.fits

/-- Every transfer of a list of ONT or ONG transfers is shown: its rows are at its place, and their
fields hold its source, its target and its amount. -/
theorem handleParams_shows_transfers [BufferSdk] [CryptoSdk] [FormatSdk] [CryptoSdk.Total]
    (cfg : Config) (raw : List UInt8) (t : ParserState)
    (h : (transactionDeserialize cfg).run ⟨.ofBytes raw, .zero⟩ = .ok (.ok, t))
    (hnative : t.tx.contract.type = .native)
    (hcontract : ∃ addr ∈ [ontAddr, ongAddr],
      readPtr raw t.tx.contract.addr.data addressScriptHashLen = .ok addr)
    (hname : ∃ name ∈ [methodTransfer, methodTransferV2],
      readPtr raw t.tx.method.name.data t.tx.method.name.len = .ok (chars name))
    (beyond : Nat → TxParameter) (s : Display) :
    ∃ x : Signable, x.encode = raw ∧ t.tx = x.view .zero ∧
      x.call.method.parameters = [.transferStateList] ∧
      ∃ display, initDipslayPosAndItem cfg raw t.tx = .ok (some display) ∧
        (x.call.arguments.states ≠ [] →
          Ensures (handleParams cfg raw t.tx (fun j => .ok (beyond j)) display) s fun ok d =>
            ok = true ∧ d.nbPairs = 3 * x.call.arguments.states.length ∧
            ∀ j st, x.call.arguments.states[j]? = some st →
              (∃ text, addressText maxBufferLen st.source.1 = some text ∧
                d.ShowsText (3 * j) itemFrom (3 * j) text) ∧
              d.ShowsText (1 + 3 * j) itemAmount (2 + 3 * j)
                (trimmed st.amount.value (x.call.payload.decimalsOf x.call.method.name) ++
                  (chars " " ++ chars x.call.payload.ticker)) ∧
              ∃ text, addressText maxBufferLen st.target.1 = some text ∧
                d.ShowsText (2 + 3 * j) itemTo (1 + 3 * j) text) := by
  obtain ⟨x, hx⟩ := ((transactionDeserialize_returns cfg raw .zero).iff t).mp h
  obtain rfl := hx.encode_eq
  rw [hx.tx_eq] at hnative hcontract hname ⊢
  have hp := x.call.registered
  have hm := x.call.method_mem
  have haddr : x.call.payload.contractAddr = ontAddr ∨ x.call.payload.contractAddr = ongAddr := by
    obtain ⟨addr, hmem, hread⟩ := hcontract
    rw [x.read_contract .zero] at hread
    rw [Except.ok.inj hread]
    simpa using hmem
  have hchars : chars methodTransfer = x.call.name ∨ chars methodTransferV2 = x.call.name := by
    obtain ⟨name, hmem, hread⟩ := hname
    rw [x.read_name .zero] at hread
    rw [Except.ok.inj hread]
    have : name = methodTransfer ∨ name = methodTransferV2 := by simpa using hmem
    exact this.imp (congrArg chars ·.symm) (congrArg chars ·.symm)
  have hvm : x.call.vm = .native := Vm.contractType_inj hnative
  have hpvm := vm_of_nativeToken _ hp haddr
  have hinj := chars_method_inj _ hp _ hm
  have hlist := transfer_parameters _ hp _ hm hpvm (hchars.imp hinj.1 hinj.2)
  obtain ⟨display, hd⟩ := Option.isSome_iff_exists.mp
    (displayOf_isSome cfg x.call.vm.contractType hp hm)
  refine ⟨x, rfl, rfl, hlist, display, by rw [x.initDipslay_view, Call.name, hd], fun hne => ?_⟩
  have hmax := hx.admitted.slots_le
  rw [x.slots_list hlist] at hmax
  refine (handleParams_transfer x hvm hchars (x.slots_list hlist) hmax (.inr ⟨_, rfl⟩) hd).mono
    fun ok d hpost => ?_
  obtain ⟨hok, _, hshow⟩ := hpost
  have htrue := hok.mpr ⟨mt List.length_eq_zero_iff.mp hne, fun k => paramText_isSome_of_list x hlist⟩
  refine ⟨htrue, (hshow htrue).1, fun j st hj => ?_⟩
  obtain ⟨hfrom, hto, hamount⟩ := (hshow htrue).2 j (List.getElem?_eq_some_iff.mp hj).1
  obtain ⟨hsource, htarget, hvalue⟩ := paramText_state x hlist hj
  have hout : base58AddressLen ≤ maxBufferLen := by decide
  have haddress : ∀ {a : Bytes addressScriptHashLen} {pos index : Nat} {item : String},
      x.call.paramText index = addressText maxBufferLen a.1 → x.call.ShowsRow d pos item index →
      ∃ text, addressText maxBufferLen a.1 = some text ∧ d.ShowsText pos item index text := by
    intro a pos index item hindex hrow
    obtain ⟨text, htext⟩ := Option.isSome_iff_exists.mp (addressText_isSome a.2 hout)
    obtain ⟨hlen, hzero⟩ := addressText_spec a.2 hout htext
    exact ⟨text, htext, hrow.showsText (hindex.trans htext) hzero (by rw [hlen]; decide)⟩
  refine ⟨haddress hsource hfrom, ?_, haddress htarget hto⟩
  have hunit : x.call.unit = chars " " ++ chars x.call.payload.ticker :=
    if_neg (by have := transfer_other hchars; simp_all)
  have hdec : x.call.decimals = x.call.payload.decimalsOf x.call.method.name := by
    rw [← tokenDecimals_vm _ hp _ hm, hpvm, Call.decimals, hvm]
  have hrow := hamount.showsText hvalue (zero_not_mem_amountText _ _)
    (Nat.lt_of_le_of_lt (length_amountText _ st.amount.value_lt) (by decide))
  rwa [Call.amountText, hdec, hunit] at hrow

/-- A transfer of 5 ONT, and one of 3 ONT back. -/
def sampleBatch : Signable :=
  ⟨minimalHeader, .byte 0xa9 (by decide) (by decide), ontTransfer
    [fiveOnt, ⟨fiveOnt.target, fiveOnt.source, .push ⟨2, by decide⟩⟩] ⟨.push ⟨1, by decide⟩, rfl⟩
    (fun h => by cases h)⟩

theorem sampleBatch_admitted : sampleBatch.Admitted ⟨.nano, .w32⟩ :=
  ⟨by decide +kernel, by unfold SizePrefix.Declares; decide +kernel, show 3 * 2 ≤ 90 by decide⟩

theorem handleParams_shows_transfers_sample :
    let := CryptoSdk.reference
    let := FormatSdk.reference
    ∃ display, initDipslayPosAndItem ⟨.nano, .w32⟩ sampleBatch.encode (sampleBatch.view .zero) =
        .ok (some display) ∧
      Ensures (handleParams ⟨.nano, .w32⟩ sampleBatch.encode (sampleBatch.view .zero) (fun _ => .ok .zero)
        display) .zero fun ok d => ok = true ∧ d.nbPairs = 6 ∧
          ∀ j st, sampleBatch.call.arguments.states[j]? = some st →
            (∃ text, addressText maxBufferLen st.source.1 = some text ∧
              d.ShowsText (3 * j) itemFrom (3 * j) text) ∧
            d.ShowsText (1 + 3 * j) itemAmount (2 + 3 * j)
              (trimmed st.amount.value 0 ++ (chars " " ++ chars ontTicker)) ∧
            ∃ text, addressText maxBufferLen st.target.1 = some text ∧
              d.ShowsText (2 + 3 * j) itemTo (1 + 3 * j) text := by
  let := BufferSdk.reference
  let := CryptoSdk.reference
  let := FormatSdk.reference
  have := CryptoSdk.reference_total
  obtain ⟨x, hx, hview, -, display, hd, hrun⟩ := handleParams_shows_transfers ⟨.nano, .w32⟩
    sampleBatch.encode _ (sampleBatch_admitted.run .zero) rfl
    ⟨ontAddr, by simp, sampleBatch.read_contract .zero⟩
    ⟨methodTransfer, by simp, sampleBatch.read_name .zero⟩ (fun _ => .zero) .zero
  obtain rfl := Signable.eq_of_view hx hview.symm
  exact ⟨display, hd, hrun (List.cons_ne_nil _ _)⟩

end AppOnt
