import AppOnt.App.Refinement

/-!
# What the protocol covers

The protocol leaves open a command with a path while a review is on the screen, and a
last chunk after a path that was refused. Along every run without these the device
and the protocol do the same, and the device always has a next step.
-/
namespace AppOnt

open CryptoSdk

/-- No command with a path while a review is on the screen, and no last chunk in a session whose path
was refused. -/
def Covered (h : History) (s : App) (e : Event) : Prop :=
  (e.opens.isSome → s.screen = none) ∧
    (e.continues = some s.context.reqType → e.more = false → (sessionPath h).isSome)

instance (h : History) (s : App) (e : Event) : Decidable (Covered h s e) :=
  inferInstanceAs (Decidable (_ ∧ _))

theorem acceptedPath_eq_toOption (data : List UInt8) : acceptedPath data = (readPath data).toOption := by
  cases data with
  | nil => rfl
  | cons len bs =>
    rw [acceptedPath, readPath]
    grind [Except.toOption]

/-- The request that a command opens. -/
def Request.opening : Request → Option RequestType
  | .opens reqType _ => some reqType
  | _ => none

namespace Command

variable {cmd : Command} {reqType : RequestType} {more : Bool}

theorem opens_eq (cmd : Command) : (Event.apdu cmd).opens = cmd.request.opening := by
  simp only [request, signRequest, Event.opens, handler]
  grind [Request.opening]

theorem continues_of_request (h : cmd.request = .chunk reqType more) :
    (Event.apdu cmd).continues = some reqType ∧ (Event.apdu cmd).more = more := by
  simp only [request, signRequest] at h
  simp only [Event.continues, Event.more, handler]
  grind

end Command

section
variable [CryptoSdk] [FormatSdk] {cfg : Config} {p p' : Protocol} {e : Event} {w : List Visible}

namespace Protocol

omit [CryptoSdk] [FormatSdk] in
@[simp] theorem propose_session (p : Protocol) (r : Except StatusWord Offer) :
    (p.propose r).2.session = p.session := by
  cases r <;> rfl

@[simp] theorem publicKey_session (p : Protocol) (confirm : Bool) (path : List UInt32) :
    (p.publicKey confirm path).2.session = p.session := by
  rw [publicKey]
  split
  · rfl
  · split
    · exact propose_session _ _
    · rfl

theorem opening_path (p : Protocol) (reqType : RequestType) (confirm : Bool) (data : List UInt8) :
    (p.opening reqType confirm data).2.session.path = acceptedPath data := by
  rw [opening, acceptedPath_eq_toOption]
  cases readPath data with
  | error sw => rfl
  | ok path =>
    dsimp only
    split
    · rw [publicKey_session]
      rfl
    · rfl

theorem chunk_path {reqType : RequestType} {more : Bool} {data : List UInt8} {r : List Visible × Protocol}
    (h : p.chunk cfg reqType more data = some r) : r.2.session.path = p.session.path := by
  simp only [chunk] at h
  split at h
  · cases h
    rfl
  · split at h
    · cases h
      rfl
    · split at h
      · cases h
        rfl
      · obtain ⟨path, -, rfl⟩ := Option.map_eq_some_iff.mp h
        rw [propose_session]

/-- Only a command that opens a session changes the path. -/
theorem step_path (hstep : step cfg e p = some (w, p')) :
    p'.session.path = if e.opens.isSome then acceptedPath e.data else p.session.path := by
  cases e with
  | apdu cmd =>
    rw [Command.opens_eq]
    rw [step] at hstep
    cases hrequest : cmd.request with
    | refused sw | told data =>
      rw [hrequest] at hstep
      cases hstep
      rfl
    | opens reqType confirm =>
      rw [hrequest] at hstep
      dsimp only at hstep
      split at hstep
      · cases hstep
      · have hopening := opening_path p reqType confirm cmd.data
        rw [Option.some.inj hstep] at hopening
        exact hopening
    | chunk reqType more =>
      rw [hrequest] at hstep
      exact chunk_path hstep
  | choice confirm =>
    have hchoice : p.choice confirm = (w, p') := Option.some.inj hstep
    have hsession : (p.choice confirm).2.session = p.session := by
      rw [choice]
      split <;> rfl
    rw [hchoice] at hsession
    exact congrArg Session.path hsession
  | badLength | blindSigning allowed =>
    cases hstep
    rfl

/-- The path of the session is the one of the command that opened it. -/
theorem run_path {C : List (Event × List Visible) → Protocol → Event → Prop} {h : History} {g : List (Event × List Visible)}
    (hrun : (protocol cfg).Run C g p) (hseen : Machine.seen visible h = g) : p.session.path = sessionPath h := by
  induction hrun generalizing h with
  | init =>
    cases h with
    | nil => rfl
    | cons ew h => cases hseen
  | @step g p p' e w hrun _ hnext ih =>
    cases h with
    | nil => cases hseen
    | cons ew h =>
      obtain ⟨e', v⟩ := ew
      rw [Machine.seen_cons] at hseen
      cases hseen
      rw [step_path hnext, ih rfl]
      cases hopens : e.opens with
      | none =>
        rw [sessionPath, sessionPath, openedBy_of_keep hopens]
        rfl
      | some reqType =>
        rw [sessionPath, sessionPath, openedBy_of_opens hopens]
        rfl

end Protocol

variable [BufferSdk]

/-- Every covered step is one of the protocol. -/
theorem Covered.defined {h : History} {s : App} (hc : Covered h s e) (hr : p.Represents cfg s)
    (hpath : p.session.path = sessionPath h) : ∃ w p', Protocol.step cfg e p = some (w, p') := by
  obtain ⟨hopens, hlast⟩ := hc
  cases e with
  | apdu cmd =>
    rw [Command.opens_eq] at hopens
    rw [Protocol.step]
    cases hrequest : cmd.request with
    | refused sw | told data => exact ⟨_, _, rfl⟩
    | opens reqType confirm =>
      rw [hrequest] at hopens
      have hnone : p.offer = none := by
        have hscreen := hr.screen_eq
        rw [hopens rfl] at hscreen
        exact Option.map_eq_none_iff.mp hscreen.symm
      simp only [hnone, Option.isSome_none, Bool.false_eq_true, if_false]
      exact ⟨_, _, rfl⟩
    | chunk reqType more =>
      obtain ⟨hcontinues, hmore⟩ := Command.continues_of_request hrequest
      simp only [Protocol.chunk]
      by_cases hreq : p.session.reqType = reqType
      · rw [if_neg (not_not.mpr hreq)]
        split
        · exact ⟨_, _, rfl⟩
        · cases more with
          | true => exact ⟨_, _, rfl⟩
          | false =>
            rw [hr.session.reqType_eq, hreq] at hlast
            obtain ⟨path, hsome⟩ := Option.isSome_iff_exists.mp (hlast hcontinues hmore)
            rw [hpath, hsome]
            exact ⟨_, _, rfl⟩
      · rw [if_pos hreq]
        exact ⟨_, _, rfl⟩
  | choice confirm | badLength | blindSigning allowed => exact ⟨_, _, rfl⟩

variable [CommandSdk] [CryptoSdk.Total] [CryptoSdk.Documented] [FormatSdk.StandardHex]

/-- The device and the protocol have the same runs, as far as these are seen from outside: every run
of the protocol is one of the device, every covered run of the device is one of the protocol, and after
a covered run the device has a next step on every covered event. What lies behind the parameter array
does not matter. -/
theorem device_conforms (cfg : Config) (rest : Context → Nat → TxParameter) :
    (∀ g p, (protocol cfg).Run Machine.anyStep g p → ∃ h s,
      (app cfg fun c j => .ok (rest c j)).Run Machine.anyStep h s ∧ Machine.seen visible h = g ∧
        p.Represents cfg s) ∧
    ∀ h s, (app cfg fun c j => .ok (rest c j)).Run Covered h s →
      (∃ p, (protocol cfg).Run Machine.anyStep (Machine.seen visible h) p ∧ p.Represents cfg s) ∧
      ∀ e, Covered h s e → ∃ w t, (app cfg fun c j => .ok (rest c j)).step e s = some (w, t) := by
  have hsim := protocol_simulates cfg rest
  refine ⟨fun g p hrun => hsim.run hrun, fun h s hrun => ?_⟩
  obtain ⟨p, hrun', hr⟩ := hsim.of_run hrun fun hrun' hr _ hc _ => hc.defined hr (Protocol.run_path hrun' rfl)
  refine ⟨⟨p, hrun', hr⟩, fun e hc => ?_⟩
  obtain ⟨w, p', hstep⟩ := hc.defined hr (Protocol.run_path hrun' rfl)
  obtain ⟨v, t, hnext, -⟩ := hsim.step hr hstep
  exact ⟨v, t, hnext⟩

end

theorem device_conforms_sample :
    let := BufferSdk.reference
    let := CommandSdk.reference
    let := CryptoSdk.reference
    let := FormatSdk.reference
    ∃ h s, (app ⟨.nano, .w32⟩ fun _ _ => .ok .zero).Run Covered h s ∧
      (Visible.review (.transaction sampleTransfer.encode [0x8000002c, 0x80000400, 0x80000000, 0, 0])) ∈
        (Machine.seen visible h).flatMap Prod.snd ∧
      ∃ p, (protocol ⟨.nano, .w32⟩).Run Machine.anyStep (Machine.seen visible h) p ∧
        p.Represents ⟨.nano, .w32⟩ s := by
  let := BufferSdk.reference
  let := CommandSdk.reference
  let := CryptoSdk.reference
  let := FormatSdk.reference
  have := CryptoSdk.reference_total
  have := CryptoSdk.reference_documented
  have := FormatSdk.reference_standardHex
  obtain ⟨h, s, hrun, hreview⟩ := Machine.Run.exists_of_exec
    (M := app ⟨.nano, .w32⟩ fun _ _ => .ok .zero) (C := Covered)
    (P := fun h _ => (Visible.review (.transaction sampleTransfer.encode
      [0x8000002c, 0x80000400, 0x80000000, 0, 0])) ∈ (Machine.seen visible h).flatMap Prod.snd)
    [.command 2 0 0x80 samplePath, .command 2 1 0 sampleTransfer.encode, .choice true] (by decide +kernel)
  exact ⟨h, s, hrun, hreview, ((device_conforms ⟨.nano, .w32⟩ fun _ _ => .zero).2 h s hrun).1⟩

end AppOnt
