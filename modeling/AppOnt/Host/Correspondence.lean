import AppOnt.Host.Agreement

/-!
# Calls and signatures

Every call ends once and before the next one is made, so the outcomes are those of
the calls, in order. The signatures of the device correspond to different calls among
them: no call is signed for twice, and none is signed for that was not made.
-/
namespace AppOnt

open CryptoSdk Machine

/-- The call that an input makes. -/
def Input.invocation : Input → Option Invocation
  | .call c => some c
  | _ => none

/-- The call that is under way. -/
def Sender.underWay : Sender → Option Invocation
  | .idle => none
  | .ready call .. | .awaiting call _ => some call

section
variable {υ σ : Type} {i : Input} {r : Option (Invocation × Outcome)}

/-- The calls of a history, the latest first. -/
def calls (h : List (Input × (υ × Option (Invocation × Outcome)))) : List Invocation :=
  h.filterMap fun e => e.1.invocation

/-- The calls that have ended, the latest first. -/
def ended (h : List (Input × (υ × Option (Invocation × Outcome)))) : List Invocation :=
  h.filterMap fun e => e.2.2.map Prod.fst

namespace Sender

variable {sender sender' : Sender} {e : Event}

theorem piece_underWay {call : Invocation} {idx : Nat} {msg : List UInt8} {msgs : List (List UInt8)}
    (h : piece call idx msg msgs = some (e, sender')) : sender'.underWay = some call := by
  cases msgs with
  | nil =>
    rw [piece] at h
    split at h
    · cases h
      rfl
    · cases h
  | cons next msgs =>
    rw [piece] at h
    split at h
    · cases h
      rfl
    · cases h

/-- A call is made where none is under way, and no other input changes which one is. -/
theorem issue_underWay (h : sender.issue i = some (e, sender')) :
    sender'.underWay = i.invocation.or sender.underWay ∧ (i.invocation.isSome → sender.underWay = none) := by
  cases i with
  | call call =>
    cases sender with
    | idle =>
      cases h
      exact ⟨rfl, fun _ => rfl⟩
    | ready | awaiting => cases h
  | exchange =>
    cases sender with
    | idle | awaiting => cases h
    | ready call idx msg msgs => exact ⟨piece_underWay h, fun hsome => by cases hsome⟩
  | choice confirm | blindSigning allowed =>
    cases sender <;> cases h <;> exact ⟨rfl, fun hsome => by cases hsome⟩

/-- What is received ends the call that is under way, or leaves it under way. -/
theorem receive_underWay (sender : Sender) (w : List Visible) :
    sender.underWay.toList =
      (sender.receive w).1.underWay.toList ++ ((sender.receive w).2.map Prod.fst).toList := by
  cases sender with
  | idle | ready => rfl
  | awaiting call next =>
    rw [receive]
    split
    · rename_i data sw _
      by_cases hsw : sw = swOk
      · subst hsw
        cases next <;> rfl
      · rw [answered_raised hsw]
        rfl
    · rfl

/-- A call that has ended is under way no more. -/
theorem receive_ended {call : Invocation} {outcome : Outcome} {w : List Visible}
    (h : sender.receive w = (sender', some (call, outcome))) : sender'.underWay = none := by
  have hunder := receive_underWay sender w
  rw [h] at hunder
  have hlen := congrArg List.length hunder
  cases hsender : sender'.underWay with
  | none => rfl
  | some call' =>
    rw [hsender] at hlen
    cases sender <;> simp [underWay] at hlen

/-- The calls are the one that is under way and those that have ended. -/
theorem calls_eq {see : υ → List Visible} {M : Machine σ Event υ}
    {h : List (Input × (υ × Option (Invocation × Outcome)))} {sender : Sender} {s : σ}
    (hrun : ((commandSender.comap see).drive M).Run anyStep h (sender, s)) :
    calls h = sender.underWay.toList ++ ended h := by
  refine hrun.induct (I := fun h ks => calls h = ks.1.underWay.toList ++ ended h) rfl ?_
  rintro h ⟨sender, s⟩ ⟨sender', s'⟩ i ⟨w, r⟩ - ih - hnext
  obtain ⟨e, sender₁, hissue, -, hreceive⟩ := Client.drive_step.mp hnext
  obtain ⟨hunder, hnone⟩ := issue_underWay hissue
  have hended := receive_underWay sender₁ (see w)
  rw [show sender₁.receive (see w) = (sender', r) from hreceive] at hended
  have hcalls : calls ((i, (w, r)) :: h) = i.invocation.toList ++ calls h := by
    rw [calls, List.filterMap_cons]
    cases i.invocation <;> rfl
  have hends : ended ((i, (w, r)) :: h) = (r.map Prod.fst).toList ++ ended h := by
    rw [ended, List.filterMap_cons]
    cases r <;> rfl
  have hone : i.invocation.toList ++ sender.underWay.toList = sender₁.underWay.toList := by
    rw [hunder]
    cases hcall : i.invocation with
    | none => rfl
    | some call =>
      rw [hcall] at hnone
      rw [hnone rfl]
      rfl
  calc calls ((i, (w, r)) :: h)
      = (i.invocation.toList ++ sender.underWay.toList) ++ ended h := by rw [hcalls, ih, List.append_assoc]
    _ = sender'.underWay.toList ++ ((r.map Prod.fst).toList ++ ended h) := by
        rw [hone, hended, List.append_assoc]
    _ = sender'.underWay.toList ++ ended ((i, (w, r)) :: h) := by rw [hends]

end Sender

end

/-- The signatures that a history shows, the latest first. -/
def signatures (h : List (Input × (List Observation × Option (Invocation × Outcome)))) :
    List (List UInt32 × List UInt8) :=
  h.flatMap fun e => (visible e.2.1).filterMap Visible.signature

section
variable [CryptoSdk] [FormatSdk] [BufferSdk] [CommandSdk]
  [CryptoSdk.Total] [CryptoSdk.Documented] [FormatSdk.StandardHex]

/-- In every run, the outcome of a call is that of the call made last, a signature made by then is the one
it is for, and what it returns is what it asked for; where it needs a confirmation, the user has just
approved the review of its own object. -/
theorem outcomes_agree (cfg : Config) (rest : Context → Nat → TxParameter)
    {h h₀ : List (Input × (List Observation × Option (Invocation × Outcome)))} {sender : Sender} {s : App}
    (hrun : (hostAndDevice cfg rest).Run anyStep h (sender, s)) {i : Input} {w : List Observation}
    {r : Option (Invocation × Outcome)} (hmem : (i, (w, r)) :: h₀ <:+ h) :
    ∃ sender₀ s₀, (hostAndDevice cfg rest).Run anyStep h₀ (sender₀, s₀) ∧ Agrees i s₀.screen (visible w) r ∧
      ∀ call outcome, r = some (call, outcome) → (calls ((i, (w, r)) :: h₀)).head? = some call := by
  obtain ⟨⟨sender₀, s₀⟩, ⟨sender₁, s₁⟩, hrun₀, -, hnext⟩ := hrun.of_suffix hmem
  refine ⟨sender₀, s₀, hrun₀, Sender.agrees_device hrun₀ hnext, ?_⟩
  rintro call outcome rfl
  have hcalls := Sender.calls_eq (hrun₀.step trivial hnext)
  obtain ⟨e, sender', -, -, hreceive⟩ := Client.drive_step.mp hnext
  have hended := Sender.receive_ended hreceive
  rw [hcalls, hended]
  rfl

/-- Whatever the user does and whatever calls are made, the signatures of the device correspond one to
one to calls that were made and have ended, in the same order, each with the path and the digest that its
call is for. -/
theorem signatures_correspond (cfg : Config) (rest : Context → Nat → TxParameter)
    {h : List (Input × (List Observation × Option (Invocation × Outcome)))} {sender : Sender} {s : App}
    (hrun : (hostAndDevice cfg rest).Run anyStep h (sender, s)) :
    calls h = sender.underWay.toList ++ ended h ∧
      ∃ signed, signed.Sublist (ended h) ∧
        List.Forall₂ (fun call sig => call.Signs sig.1 sig.2) signed (signatures h) := by
  refine ⟨Sender.calls_eq hrun, ?_⟩
  refine hrun.induct (I := fun h _ => ∃ signed, signed.Sublist (ended h) ∧
    List.Forall₂ (fun call sig => Invocation.Signs call sig.1 sig.2) signed (signatures h))
    ⟨[], List.Sublist.refl _, .nil⟩ ?_
  rintro h ⟨sender, s⟩ ⟨sender', s'⟩ i ⟨w, r⟩ hrun ⟨signed, hsub, hsigned⟩ - hnext
  have hsignatures : signatures ((i, (w, r)) :: h) = (visible w).filterMap Visible.signature ++ signatures h := rfl
  rw [hsignatures]
  rcases (Sender.agrees_device hrun hnext).signed with hnone | ⟨call, outcome, path, digest, rfl, hone, hsigns, -⟩
  · rw [hnone]
    refine ⟨signed, hsub.trans ?_, hsigned⟩
    rw [ended, ended, List.filterMap_cons]
    cases r with
    | none => exact List.Sublist.refl _
    | some co => exact List.sublist_cons_self _ _
  · rw [hone]
    exact ⟨call :: signed, hsub.cons_cons call, .cons hsigns hsigned⟩

end

theorem outcomes_agree_sample :
    let := BufferSdk.reference
    let := CommandSdk.reference
    let := CryptoSdk.reference
    let := FormatSdk.reference
    ∃ h w call, (calls ((.choice true, (w, some (call, .returned (70 :: List.replicate 70 0x30 ++ [0])))) :: h)).head? =
        some call ∧ ∃ sender s, (hostAndDevice ⟨.nano, .w32⟩ fun _ _ => .zero).Run anyStep h (sender, s) ∧
      Agrees (.choice true) s.screen (visible w) (some (call, .returned (70 :: List.replicate 70 0x30 ++ [0]))) := by
  let := BufferSdk.reference
  let := CommandSdk.reference
  let := CryptoSdk.reference
  let := FormatSdk.reference
  have := CryptoSdk.reference_total
  have := CryptoSdk.reference_documented
  have := FormatSdk.reference_standardHex
  obtain ⟨h, s, ⟨w, r⟩, t, hrun, hnext, hreturned⟩ := Machine.Run.exists_step_of_exec
    (M := hostAndDevice ⟨.nano, .w32⟩ fun _ _ => .zero) (C := anyStep)
    (P := fun _ _ w => w.2.map Prod.snd = some (.returned (70 :: List.replicate 70 0x30 ++ [0])))
    [.call sampleCall, .exchange] (.choice true) (by decide +kernel)
  obtain ⟨⟨call, outcome⟩, rfl, rfl⟩ := Option.map_eq_some_iff.mp hreturned
  obtain ⟨sender₀, s₀, hrun₀, hagrees, hlast⟩ := outcomes_agree ⟨.nano, .w32⟩ (fun _ _ => .zero)
    (hrun.step trivial hnext) (List.suffix_refl _)
  exact ⟨h, w, call, hlast call _ rfl, sender₀, s₀, hrun₀, hagrees⟩

theorem signatures_correspond_sample :
    let := BufferSdk.reference
    let := CommandSdk.reference
    let := CryptoSdk.reference
    let := FormatSdk.reference
    ∃ h sender s, (hostAndDevice ⟨.nano, .w32⟩ fun _ _ => .zero).Run anyStep h (sender, s) ∧
      (signatures h).length = 1 ∧ ∃ signed, signed.Sublist (ended h) ∧
        List.Forall₂ (fun call sig => call.Signs sig.1 sig.2) signed (signatures h) := by
  let := BufferSdk.reference
  let := CommandSdk.reference
  let := CryptoSdk.reference
  let := FormatSdk.reference
  have := CryptoSdk.reference_total
  have := CryptoSdk.reference_documented
  have := FormatSdk.reference_standardHex
  obtain ⟨h, ⟨sender, s⟩, hrun, hone⟩ := Machine.Run.exists_of_exec
    (M := hostAndDevice ⟨.nano, .w32⟩ fun _ _ => .zero) (C := anyStep) (P := fun h _ => (signatures h).length = 1)
    [.call sampleCall, .exchange, .choice true] (by decide +kernel)
  exact ⟨h, sender, s, hrun, hone, (signatures_correspond ⟨.nano, .w32⟩ (fun _ _ => .zero) hrun).2⟩

end AppOnt
