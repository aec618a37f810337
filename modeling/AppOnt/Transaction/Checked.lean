import AppOnt.Transaction.Undefined

/-!
# The check of the payload size

The first two stages read the header and the size prefix, store the header only
and compare the size with the length of the buffer. The bytes that they read say
how long a buffer is that passes, so no other extension of these bytes does, and a
buffer that passes is parsed in the same way whatever header was stored before.
-/
namespace AppOnt

open Prog

/-- The bytes begin with a header and a prefix that declares `n` bytes in all. -/
def DeclaresLength (cfg : Config) (raw : List UInt8) (n : Nat) : Prop :=
  ∃ (h : Header) (ty : UInt8) (p : SizePrefix), h.encode ty ++ p.encode <+: raw ∧ p.Declares cfg 42 n

/-- The stages up to the check. -/
def throughSize [BufferSdk] (cfg : Config) : ParseM ParserStatus :=
  andThen (transactionDeserializeHeader cfg) (transactionDeserializePayloadSize cfg)

section
variable {cfg : Config} {raw raw' : List UInt8} {n m : Nat}

theorem DeclaresLength.mono (h : DeclaresLength cfg raw n) (hpre : raw <+: raw') :
    DeclaresLength cfg raw' n := by
  obtain ⟨h, ty, p, hp, hn⟩ := h
  exact ⟨h, ty, p, hp.trans hpre, hn⟩

theorem SizePrefix.length_encode_le (p : SizePrefix) : p.encode.length ≤ 9 := by
  cases p <;> grind [SizePrefix.encode]

/-- Only the first 51 bytes are read. -/
theorem DeclaresLength.of_take {k : Nat} (h : DeclaresLength cfg raw n) (hk : 51 ≤ k)
    (htake : raw'.take k = raw.take k) : DeclaresLength cfg raw' n := by
  obtain ⟨h, ty, p, hp, hn⟩ := h
  refine ⟨h, ty, p, ?_, hn⟩
  have hlen : (h.encode ty ++ p.encode).length ≤ k := by
    have := p.length_encode_le
    grind [Header.length_encode]
  have hpre : h.encode ty ++ p.encode <+: raw.take k := List.prefix_take_iff.mpr ⟨hp, hlen⟩
  rw [← htake] at hpre
  exact hpre.trans (List.take_prefix k raw')

theorem DeclaresLength.unique (h : DeclaresLength cfg raw n) (h' : DeclaresLength cfg raw m) :
    n = m := by
  obtain ⟨h, ty, p, ⟨r, hp⟩, hn⟩ := h
  obtain ⟨h', ty', p', ⟨r', hp'⟩, hm⟩ := h'
  have hdrop : raw.drop 42 = p.encode ++ r := by
    rw [← hp, List.append_assoc, ← h.length_encode ty, List.drop_left]
  have hdrop' : raw.drop 42 = p'.encode ++ r' := by
    rw [← hp', List.append_assoc, ← h'.length_encode ty', List.drop_left]
  have heq : p = p' := SizePrefix.eq_of_prefix ⟨r, hdrop.symm⟩ ⟨r', hdrop'.symm⟩
  subst heq
  exact hn.symm.trans hm

end

section
variable [BufferSdk] {cfg : Config} {raw raw' : List UInt8} {tx tx' : Transaction} {s t : ParserState}
  {status : ParserStatus}

theorem transactionDeserialize_throughSize : transactionDeserialize cfg =
    andThen (throughSize cfg) (andThen (transactionDeserializeContract cfg) <|
      andThen (transactionDeserializeMethod cfg) <|
      andThen (transactionDeserializeParams cfg) (checkLength cfg)) :=
  (andThen_assoc _ _ _).symm

theorem throughSize_returns : Returns (throughSize cfg) ⟨.ofBytes raw, tx⟩ .ok fun t =>
    raw.length ≤ cfg.maxTransactionLen ∧ ∃ (h : Header) (ty : UInt8) (p : SizePrefix),
      p.Declares cfg 42 raw.length ∧
        Moves (h.encode ty ++ p.encode) (fun tx => tx.setHeader (h.view ty 22)) ⟨.ofBytes raw, tx⟩ t := by
  refine Returns.congr (andThen_returns transactionDeserializeHeader_returns
    fun t _ => transactionDeserializePayloadSize_returns) fun u => ?_
  constructor
  · rintro ⟨hle, h, ty, p, hp, hmoves⟩
    obtain ⟨t, ht, hu⟩ := moves_comp (g := id).mpr hmoves
    refine ⟨t, ⟨hle, h, ty, ht⟩, p, ?_, hu⟩
    rw [ht.1.offset, ht.1.size, h.length_encode]
    exact hp
  · rintro ⟨t, ⟨hle, h, ty, ht⟩, p, hp, hu⟩
    rw [ht.1.offset, ht.1.size, h.length_encode] at hp
    exact ⟨hle, h, ty, p, hp, moves_comp.mp ⟨t, ht, hu⟩⟩

omit [BufferSdk] in
theorem andThen_run_ne {x y : ParseM ParserStatus} (h : x.run s = .ok (status, t)) (hne : status ≠ .ok) :
    (andThen x y).run s = .ok (status, t) := by
  rw [andThen, StateT.run_bind, h]
  cases status with
  | ok => exact absurd rfl hne
  | _ => rfl

theorem throughSize_ne_undefined (hrun : (throughSize cfg).run s = .ok (status, t)) :
    status ≠ .txNotDefined := by
  intro hstatus
  subst hstatus
  have hthrough : throughMethod cfg = andThen (throughSize cfg)
      (andThen (transactionDeserializeContract cfg) (transactionDeserializeMethod cfg)) :=
    (andThen_assoc _ _ _).symm
  have hyields : Yields (throughMethod cfg) s fun status _ => status ≠ .txNotDefined := throughMethod_yields
  apply hyields .txNotDefined t
  · rw [hthrough]
    exact andThen_run_ne hrun (by simp)
  · rfl

/-- What the two stages leave alone. -/
def callFields (s : ParserState) : TxContract × TxMethod := (s.tx.contract, s.tx.method)

omit [BufferSdk] in
theorem readHeader_keeps {α : Type} (read : BufferM (Option α)) (store : TxHeader → α → TxHeader)
    (check : α → Bool) : Keeps (readHeader read store check) callFields := by
  apply Keeps.bind
  · exact .within fun _ _ => rfl
  · intro o
    cases o with
    | none => exact .pure _
    | some v => exact .bind (.modify fun _ => rfl) fun _ => .pure _

omit [BufferSdk] in
theorem onBuf_keeps {α : Type} (x : BufferM α) : Keeps (onBuf x) callFields := .within fun _ _ => rfl

theorem throughSize_keeps : Keeps (throughSize cfg) callFields := by
  have hheader : Keeps (transactionDeserializeHeader cfg) callFields := by
    refine .bind .get fun s => .ite (.pure _) (.bind ?_ fun ok => .ite (.pure _) (.pure _))
    refine .and (readHeader_keeps _ _ _) (.and (readHeader_keeps _ _ _) (.and (readHeader_keeps _ _ _)
      (.and (readHeader_keeps _ _ _) (.and (.bind .get fun _ => readHeader_keeps _ _ _) ?_))))
    exact .bind .get fun _ => .bind (.modify fun _ => rfl) fun _ => onBuf_keeps _
  have hsize : Keeps (transactionDeserializePayloadSize cfg) callFields := by
    refine .bind (onBuf_keeps _) fun o => ?_
    cases o with
    | none => exact .pure _
    | some firstByte =>
      refine .ite (.pure _) (.bind (onBuf_keeps _) fun o => ?_)
      cases o with
      | none => exact .pure _
      | some size => exact .bind .get fun _ => .ite (.pure _) (.pure _)
  refine .bind hheader fun status => ?_
  cases status with
  | ok => exact hsize
  | _ => exact .pure _

/-- A run does not get past the check and leaves the call alone, or the bytes declare their length
and the run is the same from any transaction with the same call. -/
theorem transactionDeserialize_cases (hrun : (transactionDeserialize cfg).run ⟨.ofBytes raw, tx⟩ = .ok (status, t)) :
    (status ≠ .ok ∧ status ≠ .txNotDefined ∧ t.tx.contract = tx.contract ∧ t.tx.method = tx.method) ∨
      (DeclaresLength cfg raw raw.length ∧ ∀ tx' : Transaction, tx'.contract = tx.contract →
        tx'.method = tx.method → (transactionDeserialize cfg).run ⟨.ofBytes raw, tx'⟩ = .ok (status, t)) := by
  have hreturns : Returns (throughSize cfg) ⟨.ofBytes raw, tx⟩ .ok _ := throughSize_returns
  obtain ⟨first, u, hfirst, hiff⟩ := hreturns
  by_cases hok : first = .ok
  · right
    subst hok
    obtain ⟨hle, h, ty, p, hp, hmoves⟩ := (hiff u).mpr ⟨rfl, rfl⟩
    constructor
    · exact ⟨h, ty, p, ⟨u.buf.rest, hmoves.1.2.symm⟩, hp⟩
    · intro tx' hcontract hmethod
      have hset : tx'.setHeader (h.view ty 22) = tx.setHeader (h.view ty 22) := by
        simp only [Transaction.setHeader, hcontract, hmethod]
      have hfirst' : (throughSize cfg).run ⟨.ofBytes raw, tx'⟩ = .ok (.ok, u) :=
        (throughSize_returns.iff u).mpr ⟨hle, h, ty, p, hp, hmoves.1, hmoves.2.trans hset.symm⟩
      rw [transactionDeserialize_throughSize, andThen_run hfirst] at hrun
      rw [transactionDeserialize_throughSize, andThen_run hfirst']
      exact hrun
  · left
    rw [transactionDeserialize_throughSize, andThen_run_ne hfirst hok] at hrun
    cases hrun
    have hkeep := throughSize_keeps _ _ _ hfirst
    obtain ⟨hcontract, hmethod⟩ := Prod.mk.inj hkeep
    exact ⟨hok, throughSize_ne_undefined hfirst, hcontract, hmethod⟩

/-- Bytes that pass the check have no proper extension that does. -/
theorem throughSize_unique {t' : ParserState} (hpre : raw <+: raw')
    (hrun : (throughSize cfg).run ⟨.ofBytes raw, tx⟩ = .ok (.ok, t))
    (hrun' : (throughSize cfg).run ⟨.ofBytes raw', tx'⟩ = .ok (.ok, t')) : raw = raw' := by
  obtain ⟨-, h, ty, p, hp, hmoves⟩ := (throughSize_returns.iff t).mp hrun
  obtain ⟨-, h', ty', p', hp', hmoves'⟩ := (throughSize_returns.iff t').mp hrun'
  have hdecl : DeclaresLength cfg raw raw.length := ⟨h, ty, p, ⟨t.buf.rest, hmoves.1.2.symm⟩, hp⟩
  have hdecl' : DeclaresLength cfg raw' raw'.length := ⟨h', ty', p', ⟨t'.buf.rest, hmoves'.1.2.symm⟩, hp'⟩
  exact hpre.eq_of_length ((hdecl.mono hpre).unique hdecl')

end

end AppOnt
