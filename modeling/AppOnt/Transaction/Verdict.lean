import AppOnt.Transaction.Foreign

/-!
# The verdict on a transaction

The parser tells three kinds of bytes apart: calls of the table, calls that are laid
out like one but are not in the table, and everything else. Which one it is depends
on the bytes only, not on what an earlier parse has left in the transaction.
-/
namespace AppOnt

open Prog

/-- The bytes of a call of the table. -/
def Accepted (cfg : Config) (raw : List UInt8) : Prop := ∃ x : Signable, x.Admitted cfg ∧ x.encode = raw

/-- The bytes of a call that is not in the table. -/
def Unregistered (cfg : Config) (raw : List UInt8) : Prop :=
  ∃ x : Foreign, x.Admitted cfg ∧ x.encode = raw

section
variable [BufferSdk] {cfg : Config} {raw : List UInt8} {tx : Transaction} {status : ParserStatus}
  {t : ParserState}

theorem ok_iff_accepted (hrun : (transactionDeserialize cfg).run ⟨.ofBytes raw, tx⟩ = .ok (status, t)) :
    status = .ok ↔ Accepted cfg raw := by
  have hreturns : Returns (transactionDeserialize cfg) ⟨.ofBytes raw, tx⟩ .ok _ :=
    transactionDeserialize_returns cfg raw tx
  constructor
  · rintro rfl
    obtain ⟨x, hx⟩ := (hreturns.iff t).mp hrun
    exact ⟨x, hx.admitted, hx.encode_eq⟩
  · rintro ⟨x, hx, rfl⟩
    have hrun' := hx.run tx
    rw [hrun] at hrun'
    cases hrun'
    rfl

theorem txNotDefined_iff_unregistered
    (hrun : (transactionDeserialize cfg).run ⟨.ofBytes raw, tx⟩ = .ok (status, t)) :
    status = .txNotDefined ↔ Unregistered cfg raw := by
  rw [Unregistered, ← undefined_iff_foreign cfg raw tx]
  constructor
  · rintro rfl
    exact ⟨t, hrun⟩
  · rintro ⟨t', hrun'⟩
    rw [hrun] at hrun'
    cases hrun'
    rfl

omit [BufferSdk] in
theorem Accepted.not_unregistered (ha : Accepted cfg raw) : ¬ Unregistered cfg raw := by
  intro hu
  let := BufferSdk.reference
  obtain ⟨x, hx, rfl⟩ := ha
  have hstatus := (txNotDefined_iff_unregistered (hx.run .zero)).mpr hu
  cases hstatus

omit [BufferSdk] in
/-- No bytes at all are of neither kind. -/
theorem verdict_nil (cfg : Config) : ¬ Accepted cfg [] ∧ ¬ Unregistered cfg [] := by
  let := BufferSdk.reference
  obtain ⟨t, hrun⟩ : ∃ t, (transactionDeserialize cfg).run ⟨.ofBytes [], .zero⟩ = .ok (.bytecodeWrong, t) := by
    obtain ⟨target, sizeT⟩ := cfg
    cases target <;> cases sizeT <;> exact ⟨_, rfl⟩
  rw [← ok_iff_accepted hrun, ← txNotDefined_iff_unregistered hrun]
  exact ⟨by simp, by simp⟩

end

/-- Whatever transaction is in memory, the parser returns; it accepts the calls of the table, leaves
those undefined that are laid out like one without being in it, and no bytes are both. -/
theorem transactionDeserialize_verdict [BufferSdk] (cfg : Config) (raw : List UInt8) :
    (∀ tx, ∃ status t, (transactionDeserialize cfg).run ⟨.ofBytes raw, tx⟩ = .ok (status, t) ∧
      (status = .ok ↔ ∃ x : Signable, x.Admitted cfg ∧ x.encode = raw) ∧
      (status = .txNotDefined ↔ ∃ x : Foreign, x.Admitted cfg ∧ x.encode = raw)) ∧
    ¬ ((∃ x : Signable, x.Admitted cfg ∧ x.encode = raw) ∧ ∃ x : Foreign, x.Admitted cfg ∧ x.encode = raw) := by
  constructor
  · intro tx
    have hreturns : Returns (transactionDeserialize cfg) ⟨.ofBytes raw, tx⟩ .ok _ :=
      transactionDeserialize_returns cfg raw tx
    obtain ⟨status, t, hrun, -⟩ := hreturns
    exact ⟨status, t, hrun, ok_iff_accepted hrun, txNotDefined_iff_unregistered hrun⟩
  · rintro ⟨ha, hu⟩
    exact Accepted.not_unregistered ha hu

end AppOnt
