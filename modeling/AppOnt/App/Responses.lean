import AppOnt.App.Approval

/-!
# Commands and answers

The transport takes one answer for each command. A command is answered at once, or a
review comes on the screen and the choice on it is the answer. What is left without an
answer are the commands whose review another one took the place of.
-/
namespace AppOnt

open CryptoSdk Prog Machine

def Event.isCommand : Event → Bool
  | .apdu _ | .badLength => true
  | .choice _ | .blindSigning _ => false

def Event.isChoice : Event → Bool
  | .choice _ => true
  | _ => false

def Observation.isAnswer : Observation → Bool
  | .answer .. => true
  | _ => false

def Observation.isSign : Observation → Bool
  | .sign .. => true
  | _ => false

def Observation.reviewed : Observation → Option Review
  | .review r _ => some r
  | _ => none

/-- The review that a step leaves on the screen. -/
def Event.leaves (e : Event) (screen : Option Review) (w : List Observation) : Option Review :=
  (w.findSome? Observation.reviewed).or (if e.isChoice then none else screen)

/-- The review that is on the screen after what was seen. -/
def onScreen : History → Option Review
  | [] => none
  | (e, w) :: h => e.leaves (onScreen h) w

def commands : History → Nat
  | [] => 0
  | (e, _) :: h => commands h + e.isCommand.toNat

def answers : History → Nat
  | [] => 0
  | (_, w) :: h => answers h + w.countP Observation.isAnswer

def signed : History → Nat
  | [] => 0
  | (_, w) :: h => signed h + w.countP Observation.isSign

/-- The reviews that another one took the place of. -/
def replaced : History → Nat
  | [] => 0
  | (_, w) :: h => replaced h + ((w.findSome? Observation.reviewed).isSome && (onScreen h).isSome).toNat

/-- The choices that approve the review of a transaction or of a message. -/
def approvals : History → Nat
  | [] => 0
  | (e, _) :: h => approvals h + (e.approves && (onScreen h).any Review.signs).toNat

/-- What a step answers and signs, and what it leaves on the screen. -/
structure Responds (e : Event) (screen : Option Review) (w : List Observation) (screen' : Option Review) : Prop where
  command_of_review : (w.findSome? Observation.reviewed).isSome = true → e.isCommand = true
  screen_eq : screen' = e.leaves screen w
  answers_eq : e.isCommand.toNat + (e.isChoice && screen.isSome).toNat =
    w.countP Observation.isAnswer + (w.findSome? Observation.reviewed).isSome.toNat
  signed_eq : w.countP Observation.isSign = (e.approves && screen.any Review.signs).toNat

attribute [simp] Observation.isAnswer Observation.isSign Observation.reviewed

/-- What is on the screen after a step was there before, unless the step is a choice or shows it. -/
theorem Event.leaves_isSome (e : Event) (screen : Option Review) (w : List Observation) :
    (e.leaves screen w).isSome = ((w.findSome? Observation.reviewed).isSome || (!e.isChoice && screen.isSome)) := by
  rw [leaves]
  cases e.isChoice <;> simp

theorem Event.isCommand_isChoice (e : Event) : (e.isCommand && e.isChoice) = false := by
  cases e <;> rfl

section
variable [BufferSdk] [CryptoSdk] [FormatSdk] {cfg : Config} {e : Event} {w : List Observation}
  {screen screen' : Option Review} {c c' : Context} {s t : App} {h : History}

omit [BufferSdk] [CryptoSdk] [FormatSdk] in
theorem Event.isCommand_of_opens {reqType : RequestType} (h : e.opens = some reqType) :
    e.isCommand = true ∧ e.isChoice = false ∧ e.approves = false := by
  cases e <;> simp_all [Event.opens, Event.isCommand, Event.isChoice, Event.approves]

omit [BufferSdk] [CryptoSdk] [FormatSdk] in
theorem Event.isCommand_of_continues {reqType : RequestType} (h : e.continues = some reqType) :
    e.isCommand = true ∧ e.isChoice = false ∧ e.approves = false := by
  cases e <;> simp_all [Event.continues, Event.isCommand, Event.isChoice, Event.approves]

omit [BufferSdk] [CryptoSdk] [FormatSdk] in
/-- A command that is answered leaves the screen as it is. -/
theorem Responds.answered {data : List UInt8} {sw : StatusWord}
    (h : e.isCommand = true ∧ e.isChoice = false ∧ e.approves = false) :
    Responds e screen [.answer data sw] screen := by
  obtain ⟨hcommand, hchoice, happroves⟩ := h
  constructor <;> simp [Event.leaves, List.findSome?_cons, hcommand, hchoice, happroves]

omit [BufferSdk] [CryptoSdk] [FormatSdk] in
/-- A review that is built is shown, or an error answered. -/
theorem Responds.builds {review : Review} (h : e.isCommand = true ∧ e.isChoice = false ∧ e.approves = false)
    (hb : Builds review c screen w screen') : Responds e screen w screen' ∧
      Responds e screen (.display c :: w) screen' := by
  obtain ⟨hcommand, hchoice, happroves⟩ := h
  cases hb <;> constructor <;> constructor <;> simp [Event.leaves, List.findSome?_cons, hcommand, hchoice, happroves]

omit [BufferSdk] [CryptoSdk] [FormatSdk] in
/-- A choice that signs nothing: it rejects, or approves an address. -/
theorem Responds.chosen {confirm : Bool} {review : Review} {data : List UInt8} {sw : StatusWord}
    (h : confirm = false ∨ review.signs = false) :
    Responds (.choice confirm) (some review) [.answer data sw] none := by
  constructor <;> rcases h with h | h <;>
    simp [Event.leaves, Event.isCommand, Event.isChoice, Event.approves, h]

omit [BufferSdk] [CryptoSdk] [FormatSdk] in
theorem Responds.signed {review : Review} {digest data : List UInt8} {sw : StatusWord} (h : review.signs = true) :
    Responds (.choice true) (some review) [.sign c digest, .answer data sw] none := by
  constructor <;>
    simp [Event.leaves, Event.isCommand, Event.isChoice, Event.approves, List.findSome?_cons, List.countP_cons, h]

/-- Every effect but that of an event by which nothing happens. -/
theorem Effect.responds (hstep : Effect cfg c screen e w c' screen')
    (hkeep : e.opens = none → e.continues = none → (w = [] ∨ ∃ data sw, w = [.answer data sw]) →
      (∀ confirm, e = .choice confirm → screen = none) → screen' = screen → Responds e screen w screen) :
    Responds e screen w screen' := by
  cases hstep with
  | keep hopens hw hchunk hchoice =>
    cases hcontinues : e.continues with
    | none => exact hkeep hopens hcontinues hw hchoice rfl
    | some reqType =>
      have hrefused := hchunk reqType hcontinues
      rcases hw with rfl | ⟨data, sw, rfl⟩
      · cases hrefused
      · exact .answered (Event.isCommand_of_continues hcontinues)
  | pathRefused hopens => exact .answered (Event.isCommand_of_opens hopens)
  | opened hopens => exact .answered (Event.isCommand_of_opens hopens)
  | pubkey hopens hreq hstate hpath htake hcount hw =>
    rcases hw with ⟨data, sw, rfl, rfl, -⟩ | hb
    · exact .answered (Event.isCommand_of_opens hopens)
    · exact (Responds.builds (Event.isCommand_of_opens hopens) hb).1
  | storedTx hchunk | txParsingFail hchunk | txHashFail hchunk | storedMsg hchunk | msgHashFail hchunk =>
    exact .answered (Event.isCommand_of_continues hchunk)
  | txDisplay hchunk hreq hfits hmore hparse hstatus hdigest hc' hlen hw =>
    exact (Responds.builds (Event.isCommand_of_continues hchunk) hw).2
  | msgDisplay hchunk hreq hfits hmore hdigest hc' hlen hw =>
    exact (Responds.builds (Event.isCommand_of_continues hchunk) hw).2
  | rejected hscreen =>
    subst hscreen
    exact .chosen (.inl rfl)
  | approvedAddress hscreen =>
    subst hscreen
    exact .chosen (.inr rfl)
  | signatureFail hscreen hdigest =>
    subst hscreen
    refine .signed ?_
    rcases hdigest with ⟨raw, path, rfl, -⟩ | ⟨msg, path, rfl, -⟩ <;> rfl
  | signedTx hscreen | signedMsg hscreen =>
    subst hscreen
    exact .signed rfl

variable [CommandSdk] {beyond : Context → Nat → Except Fault TxParameter}

/-- A command that no handler takes is answered by the dispatcher. -/
theorem apduDispatcher_answers {cmd : Command} (hnone : cmd.handler = none) :
    Yields (apduDispatcher cfg beyond cmd) s fun _ t => t.shown ≠ s.shown := by
  rw [apduDispatcher]
  refine yields_ite.mpr ⟨fun _ => by simp, fun hcla => ?_⟩
  have hdata (h : cmd.data ≠ []) : ¬ (cmd.cla ≠ AppOnt.cla ∨ cmd.data = []) := by simp_all
  cases hins : Ins.ofByte cmd.ins with
  | none => simp
  | some ins =>
    cases ins with
    | getVersion | getAppName => simp
    | getPublicKey =>
      refine yields_ite.mpr ⟨fun _ => by simp, fun hp => yields_ite.mpr ⟨fun _ => by simp, fun h => ?_⟩⟩
      rw [Command.handler, if_neg (hdata h), hins] at hnone
      simp [hp] at hnone
    | signTx | signMessage =>
      refine yields_ite.mpr ⟨fun _ => by simp, fun hp => yields_ite.mpr ⟨fun _ => by simp, fun h => ?_⟩⟩
      rw [Command.handler, if_neg (hdata h), hins] at hnone
      exact absurd hnone (by simp [hp])

omit [BufferSdk] [CryptoSdk] [FormatSdk] [CommandSdk] in
theorem Command.handler_eq_none {cmd : Command} (hopens : (Event.apdu cmd).opens = none)
    (hcontinues : (Event.apdu cmd).continues = none) : cmd.handler = none := by
  rw [Event.opens] at hopens
  rw [Event.continues] at hcontinues
  rw [handler] at *
  grind

theorem step_responds (hnext : (app cfg beyond).step e s = some (w, t)) : Responds e s.screen w t.screen := by
  obtain ⟨hstep, hshown⟩ := step_effect cfg beyond hnext
  refine hstep.responds fun hopens hcontinues hw hchoice hscreen => ?_
  obtain ⟨u, hrun⟩ : ∃ u, (handle cfg beyond e).run { s with shown := [] } = .ok (u, t) := by
    simp only [app] at hnext
    split at hnext
    · cases hnext
      exact ⟨_, ‹_›⟩
    · cases hnext
  cases e with
  | apdu cmd =>
    have hanswered : t.shown ≠ [] := apduDispatcher_answers (Command.handler_eq_none hopens hcontinues) u t hrun
    rcases hw with rfl | ⟨data, sw, rfl⟩
    · exact absurd hshown hanswered
    · exact .answered ⟨rfl, rfl, rfl⟩
  | badLength =>
    cases hrun
    cases hshown
    exact .answered ⟨rfl, rfl, rfl⟩
  | choice confirm =>
    have hnone := hchoice confirm rfl
    have hquiet : (reviewChoice cfg confirm).run { s with shown := [] } = .ok (⟨⟩, { s with shown := [] }) := by
      simp [reviewChoice, hnone]
      rfl
    cases hquiet.symm.trans hrun
    cases hshown
    rw [hnone]
    constructor <;> simp [Event.leaves, Event.isCommand, Event.isChoice]
  | blindSigning allowed =>
    cases hrun
    cases hshown
    constructor <;> simp [Event.leaves, Event.isCommand, Event.isChoice, Event.approves]

variable (cfg beyond) in
/-- Every command has one answer, unless its review is on the screen or another one took its place;
and every approval of a transaction or of a message signs once. -/
theorem commands_answered (hrun : (app cfg beyond).Run anyStep h s) :
    s.screen = onScreen h ∧ commands h = answers h + replaced h + (onScreen h).isSome.toNat ∧
      signed h = approvals h := by
  refine hrun.induct (I := fun h s => s.screen = onScreen h ∧
    commands h = answers h + replaced h + (onScreen h).isSome.toNat ∧ signed h = approvals h) ⟨rfl, rfl, rfl⟩ ?_
  intro h s t e w hrun ih _ hnext
  obtain ⟨hscreen, hcommands, hsigned⟩ := ih
  obtain ⟨hcommand, hscreen', hanswers, hsigned'⟩ := step_responds hnext
  rw [hscreen] at hscreen' hanswers hsigned'
  refine ⟨hscreen', ?_, ?_⟩
  · simp only [commands, answers, replaced, onScreen, Event.leaves_isSome]
    have hexclusive := e.isCommand_isChoice
    -- a review that is shown is the command's, and takes the place of what was on the screen
    generalize (w.findSome? Observation.reviewed).isSome = shown at *
    cases shown <;> cases hchoice : e.isChoice <;> cases hbefore : (onScreen h).isSome <;> grind
  · simp only [signed, approvals]
    omega

end

/-- An address is reviewed over another one, and a transaction signed after it. -/
theorem commands_answered_sample :
    ∃ h s, referenceApp.Run anyStep h s ∧ commands h = 4 ∧ replaced h = 1 ∧ signed h = 1 ∧ answers h = 3 := by
  let := BufferSdk.reference
  let := CommandSdk.reference
  let := CryptoSdk.reference
  let := FormatSdk.reference
  obtain ⟨h, s, hrun, hcommands, happroved, hreplaced, hempty⟩ := Run.exists_of_exec (M := referenceApp)
    (C := anyStep) (P := fun h _ => commands h = 4 ∧ approvals h = 1 ∧ replaced h = 1 ∧ onScreen h = none)
    [.command 4 1 0 samplePath, .command 4 1 0 samplePath, .choice true, .command 2 0 0x80 samplePath,
      .command 2 1 0 sampleTransfer.encode, .choice true] (by decide +kernel)
  obtain ⟨-, hanswered, hsigned⟩ := commands_answered ⟨.nano, .w32⟩ _ hrun
  rw [hempty] at hanswered
  refine ⟨h, s, hrun, hcommands, hreplaced, hsigned.trans happroved, ?_⟩
  rw [hcommands, hreplaced] at hanswered
  exact (Nat.succ.inj hanswered).symm

end AppOnt
