import AppOnt.Transaction.Verdict
import AppOnt.Ui.Outcome
import AppOnt.Ui.Visible

/-!
# Which reviews are drawn

How the three functions end that draw a review, where no digest fails: by the bytes
and the path alone. A transaction that is not in the table is drawn blindly, by the
address of its contract.
-/
namespace AppOnt

open Prog CryptoSdk FormatSdk

/-- The bytes of a call of the table whose arguments can be shown. -/
def Showable (cfg : Config) (raw : List UInt8) : Prop :=
  ∃ x : Signable, x.Admitted cfg ∧ x.encode = raw ∧ x.call.Renderable

/-- Which of the readings of the bytes is shown does not matter. -/
theorem showable_iff {cfg : Config} {x : Signable} (hx : x.Admitted cfg) :
    Showable cfg x.encode ↔ x.call.Renderable := by
  constructor
  · rintro ⟨y, hy, hencode, hr⟩
    let := BufferSdk.reference
    let := CryptoSdk.reference
    let := FormatSdk.reference
    have := CryptoSdk.reference_total
    have hview : y.view .zero = x.view .zero := by
      obtain ⟨t, hrun, ht⟩ : ∃ t, (transactionDeserialize cfg).run ⟨.ofBytes y.encode, .zero⟩ = .ok (.ok, t) ∧
          t.tx = y.view .zero := ⟨_, hy.run .zero, rfl⟩
      rw [hencode, hx.run .zero] at hrun
      cases hrun
      exact ht.symm
    -- both are what one display shows
    obtain ⟨drawn, d, hrun, hdrawn, -⟩ := displayTransaction_outcome hx (fun _ => .zero) (signerText_reference [])
      .zero
    have hdrawn' := displayTransaction_outcome hy (fun _ => .zero) (signerText_reference []) .zero
    rw [hencode, hview] at hdrawn'
    exact hdrawn.mp ((hdrawn'.post hrun).1.mpr hr)
  · exact fun hr => ⟨x, hx, rfl, hr⟩

section
variable [CryptoSdk] [FormatSdk] {cfg : Config} {raw : List UInt8} {d : Display}

omit [CryptoSdk] in
/-- A blind review is drawn from the address of a contract. -/
theorem uiDisplayBsTransaction_reviews {tx : Transaction} {a : Bytes addressScriptHashLen}
    (hread : readPtr raw tx.contract.addr.data tx.contract.addr.len = .ok a.1) (hnum : d.nbPairs = 0) :
    Ensures (uiDisplayBsTransaction cfg raw tx) d fun drawn _ => drawn = .review := by
  have hcfg := cfg.target_cases
  have hmax : maxBufferLen = 67 := rfl
  have hpairs : cfg.numPairs = cfg.parametersMaxNum + 2 := rfl
  have haddr : a.1.length = 20 := a.2
  have hfits : 2 * a.1.length < maxBufferLen := by omega
  obtain ⟨text, htext, hlen⟩ := FormatSdk.hex_length hfits
  simp only [uiDisplayBsTransaction, hread, ofExcept_ok, pure_bind, htext, ensures_bind, ensures_appendPair]
  refine ⟨by omega, by omega, ?_⟩
  refine (storeText_ensures (by omega) ?_).mono fun _ t hpost => ?_
  · rw [hpairs, Nat.add_mul]
    omega
  · have hn : t.nbPairs = d.nbPairs + 1 := hpost.1.nbPairs_eq
    refine ⟨by omega, by omega, ?_⟩
    refine (feeAndSignerRows_ensures ?_).mono fun _ _ _ => ensures_pure.mpr rfl
    dsimp only
    omega

variable [BufferSdk]

open Classical in
/-- The review of a transaction that was parsed, which is a blind one where it is undefined. -/
theorem displayTransaction_drawn [CryptoSdk.Total] {status : ParserStatus} {t : ParserState}
    (hparse : (transactionDeserialize cfg).run ⟨.ofBytes raw, .zero⟩ = .ok (status, t))
    (hstatus : status = .ok ∨ status = .txNotDefined) (rest : Nat → TxParameter) (path : List UInt32) :
    Ensures (displayTransaction cfg raw t.tx (fun j => .ok (rest j)) path (decide (status = .txNotDefined)))
      d fun drawn _ => drawn =
        if signerText maxBufferLen path = none then .sw swDisplayAddressFail
        else if Accepted cfg raw ∧ ¬ Showable cfg raw then .sw swInvalidTransaction else .review := by
  obtain ⟨u, hdisplay⟩ := displayTransaction_run cfg raw t.tx (fun j => .ok (rest j)) path
    (decide (status = .txNotDefined)) d
  cases hsigner : signerText maxBufferLen path with
  | none =>
    rw [hsigner] at hdisplay
    exact ⟨_, u, hdisplay, (if_pos rfl).symm⟩
  | some signer =>
    rw [hsigner] at hdisplay
    rw [if_neg (Option.some_ne_none signer)]
    rcases hstatus with rfl | rfl
    · have hreturns : Returns (transactionDeserialize cfg) ⟨.ofBytes raw, .zero⟩ .ok _ :=
        transactionDeserialize_returns cfg raw .zero
      obtain ⟨x, hx⟩ := (hreturns.iff t).mp hparse
      obtain rfl := hx.encode_eq
      have hif : (if Accepted cfg x.encode ∧ ¬ Showable cfg x.encode then Drawn.sw swInvalidTransaction
          else .review) = if x.call.Renderable then .review else .sw swInvalidTransaction := by
        have haccepted : Accepted cfg x.encode := ⟨x, hx.admitted, rfl⟩
        simp [haccepted, showable_iff hx.admitted]
      rw [hif, hx.tx_eq]
      have hsome : (signerText maxBufferLen path).isSome := by
        rw [hsigner]
        rfl
      refine (displayTransaction_outcome hx.admitted rest hsome d).mono fun drawn _ hdrawn => ?_
      split
      · exact hdrawn.1.mpr ‹_›
      · exact hdrawn.2.mpr ‹_›
    · obtain ⟨x, -, -, -, hread⟩ := undefined_contract hparse
      have hnot : ¬ Accepted cfg raw := fun ha =>
        ha.not_unregistered ((txNotDefined_iff_unregistered hparse).mp rfl)
      rw [if_neg fun h => hnot h.1]
      obtain ⟨drawn, v, hrun, hdrawn⟩ : Ensures (uiDisplayBsTransaction cfg raw t.tx) u _ :=
        uiDisplayBsTransaction_reviews hread hdisplay.1.nbPairs_eq
      exact ⟨drawn, v, hdisplay.2.trans hrun, hdrawn⟩

end

end AppOnt
