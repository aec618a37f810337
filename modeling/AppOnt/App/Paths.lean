import AppOnt.App.Steps
import AppOnt.Transaction.Correctness

/-!
# Paths

A command with a path opens a session; its path is accepted if it can be read and
begins as it must. A review belongs to the session in which it was shown. Where the
path of the session was accepted, and no other path was sent before the review was
approved, it is the one that an address is derived and a digest is signed with. That
a path was refused does not end the session, and that another session was opened
does not take the review from the screen, which is why these are conditions.
-/
namespace AppOnt

open CryptoSdk Prog

/-- The command that opened the session: its request and its data. -/
def openedBy : History → Option (RequestType × List UInt8)
  | [] => none
  | (e, _) :: h => (e.opens.map fun reqType => (reqType, e.data)).or (openedBy h)

/-- The path of the session, if it was accepted. -/
def sessionPath (h : History) : Option (List UInt32) := (openedBy h).bind fun s => acceptedPath s.2

def Observation.isReview : Observation → Bool
  | .review .. => true
  | _ => false

/-- The command that opened the session in which the last review was shown. -/
def reviewOpenedBy : History → Option (RequestType × List UInt8)
  | [] => none
  | (e, w) :: h => if w.any Observation.isReview then openedBy ((e, w) :: h) else reviewOpenedBy h

/-- What opened the session that an event belongs to: for a choice, the one of the review. -/
def Event.session (e : Event) (h : History) : Option (RequestType × List UInt8) :=
  match e with
  | .choice _ => reviewOpenedBy h
  | _ => openedBy h

/-- The context that a path is taken from, to derive an address or to sign. -/
def Observation.pathUse : Observation → Option Context
  | .display c => some c
  | .sign c _ => some c
  | _ => none

/-- The event goes on to a review or to a signature: a last chunk, or the approval of a review. -/
def UsesPath (s : App) (e : Event) : Prop :=
  (e.continues = some s.context.reqType ∧ e.more = false) ∨
    (e.approves = true ∧ s.screen.any Review.signs = true)

instance (s : App) (e : Event) : Decidable (UsesPath s e) :=
  inferInstanceAs (Decidable (_ ∨ _))

/-- The last path that was sent was accepted, and it is the one of the session of the event. -/
def PathKept (h : History) (e : Event) : Prop :=
  (sessionPath h).isSome ∧ ((e.session h).bind fun s => acceptedPath s.2) = sessionPath h

instance (h : History) (e : Event) : Decidable (PathKept h e) := inferInstanceAs (Decidable (_ ∧ _))

/-- The path in the context is the one that was read from the command that opened the session of the
event, which was to sign, and it was accepted. -/
structure PathChecked (h : History) (e : Event) (c : Context) : Prop where
  read : ∃ reqType data, e.session h = some (reqType, data) ∧ reqType ≠ .confirmAddress ∧
    acceptedPath data = some c.path
  count : c.path.length = c.bip32PathLen.toNat
  two_le : 2 ≤ c.bip32PathLen.toNat
  le_max : c.bip32PathLen.toNat ≤ maxBip32Path
  valid : isValidBip44Prefix c.bip32Path c.bip32PathLen.toNat = true

/-- A path that was accepted is the one in the context. -/
def Opened (h : History) (c : Context) : Prop :=
  ∀ path, sessionPath h = some path → c.path = path ∧ c.bip32PathLen.toNat = path.length

/-- The request of the context is the one of the last command with a path. -/
def Requested (h : History) (c : Context) : Prop :=
  c.reqType ≠ .confirmAddress → ∃ data, openedBy h = some (c.reqType, data)

/-- A review that is signed when it is approved was shown in a session that signs. -/
def Shown (h : History) (screen : Option Review) : Prop :=
  screen.any Review.signs = true → ∃ reqType data, reviewOpenedBy h = some (reqType, data) ∧
    reqType ≠ .confirmAddress

theorem openedBy_of_opens {e : Event} {reqType : RequestType} (hopens : e.opens = some reqType)
    (w : List Observation) (h : History) : openedBy ((e, w) :: h) = some (reqType, e.data) := by
  rw [openedBy, hopens]
  rfl

theorem openedBy_of_keep {e : Event} (hopens : e.opens = none) (w : List Observation) (h : History) :
    openedBy ((e, w) :: h) = openedBy h := by
  rw [openedBy, hopens]
  rfl

theorem reviewOpenedBy_of_keep {w : List Observation} (hw : w.any Observation.isReview = false) (e : Event)
    (h : History) : reviewOpenedBy ((e, w) :: h) = reviewOpenedBy h := by
  rw [reviewOpenedBy, hw]
  rfl

theorem reviewOpenedBy_of_review {w : List Observation} (hw : w.any Observation.isReview = true) (e : Event)
    (h : History) : reviewOpenedBy ((e, w) :: h) = openedBy ((e, w) :: h) := if_pos hw

theorem Event.continues_ne {e : Event} {reqType : RequestType} (h : e.continues = some reqType) :
    reqType ≠ .confirmAddress := by
  cases e with
  | apdu cmd =>
    rw [continues] at h
    cases hins : cmd.handler with
    | none => simp [hins] at h
    | some ins => cases ins <;> grind
  | _ => cases h

theorem Event.session_of_continues {e : Event} {reqType : RequestType} (h : e.continues = some reqType)
    (g : History) : e.session g = openedBy g := by
  cases e with
  | choice _ => cases h
  | _ => rfl

theorem Event.session_of_approves {e : Event} (h : e.approves = true) (g : History) :
    e.session g = reviewOpenedBy g := by
  cases e with
  | choice _ => rfl
  | _ => cases h

/-- An accepted path has at least two entries and at most ten, and begins as it must. -/
theorem acceptedPath_eq_some {data : List UInt8} {path : List UInt32}
    (h : acceptedPath data = some path) :
    2 ≤ path.length ∧ path.length ≤ maxBip32Path ∧ isValidBip44Prefix path path.length = true := by
  cases data with
  | nil => cases h
  | cons len bs =>
    rw [acceptedPath] at h
    split at h
    · rename_i hvalid
      obtain ⟨-, hmax, -, hprefix⟩ := hvalid
      cases h
      rw [length_beWords]
      have htwo : 2 ≤ len.toNat := by
        by_contra hlt
        simp [isValidBip44Prefix] at hprefix
        omega
      exact ⟨htwo, hmax, hprefix⟩
    · cases h

section
variable [BufferSdk] [CryptoSdk] [FormatSdk] {cfg : Config} {c c' : Context} {screen screen' : Option Review}
  {e : Event} {w : List Observation} {h : History}

omit [BufferSdk] [CryptoSdk] [FormatSdk] in
/-- Where the path was kept, it is the one in the context. -/
theorem Opened.checked (ho : Opened h c) (hkept : PathKept h e) {reqType : RequestType} {data : List UInt8}
    (hsession : e.session h = some (reqType, data)) (hreq : reqType ≠ .confirmAddress) :
    PathChecked h e c := by
  obtain ⟨path, hpath⟩ := Option.isSome_iff_exists.mp hkept.1
  have haccept : acceptedPath data = some path := by
    have hsame := hkept.2
    rw [hsession, hpath] at hsame
    exact hsame
  obtain ⟨htwo, hmax, hvalid⟩ := acceptedPath_eq_some haccept
  obtain ⟨htake, hlen⟩ := ho path hpath
  rw [← hlen] at htwo hmax hvalid
  refine ⟨⟨reqType, data, hsession, hreq, by rw [htake, haccept]⟩, by rw [htake, hlen], htwo, hmax, ?_⟩
  rw [← List.take_append_drop c.bip32PathLen.toNat c.bip32Path, isValidBip44Prefix_append]
  · rw [← Context.path, htake]
    exact hvalid
  · rw [← Context.path, htake, hlen]

/-- Only a command with a path changes the request and the path. -/
theorem Effect.path_frame (hstep : Effect cfg c screen e w c' screen') (hopens : e.opens = none) :
    c'.reqType = c.reqType ∧ c'.bip32Path = c.bip32Path ∧ c'.bip32PathLen = c.bip32PathLen := by
  cases hstep with
  | pathRefused hsome _ _ _ => rw [hopens] at hsome; cases hsome
  | opened hsome _ _ _ _ _ => rw [hopens] at hsome; cases hsome
  | pubkey hsome _ _ _ _ _ _ => rw [hopens] at hsome; cases hsome
  | txDisplay _ _ _ _ _ _ _ hc' _ _ => subst hc'; exact ⟨rfl, rfl, rfl⟩
  | msgDisplay _ _ _ _ _ hc' _ _ _ => subst hc'; exact ⟨rfl, rfl, rfl⟩
  | rejected _ hc' => rcases hc' with rfl | rfl <;> exact ⟨rfl, rfl, rfl⟩
  | _ => exact ⟨rfl, rfl, rfl⟩

/-- A command with a path sets the request, and the path where it accepts it. -/
theorem Effect.of_opens (hstep : Effect cfg c screen e w c' screen') {reqType : RequestType}
    (hopens : e.opens = some reqType) : c'.reqType = reqType ∧ ∀ path, acceptedPath e.data = some path →
      c'.path = path ∧ c'.bip32PathLen.toNat = path.length := by
  cases hstep with
  | pathRefused hopens' hrefused =>
    cases hopens.symm.trans hopens'
    refine ⟨rfl, ?_⟩
    intro path haccept
    cases hrefused.symm.trans haccept
  | opened hopens' _ haccept _ htake hcount =>
    cases hopens.symm.trans hopens'
    refine ⟨rfl, ?_⟩
    intro path haccept'
    cases haccept.symm.trans haccept'
    exact ⟨htake, hcount⟩
  | pubkey hopens' hreq _ haccept htake hcount =>
    cases hopens.symm.trans hopens'
    refine ⟨hreq, ?_⟩
    intro path haccept'
    cases haccept.symm.trans haccept'
    exact ⟨htake, hcount⟩
  | keep hnone => simp [hnone] at hopens
  | storedTx hchunk | txParsingFail hchunk | txHashFail hchunk | txDisplay hchunk
  | storedMsg hchunk | msgHashFail hchunk | msgDisplay hchunk =>
    simp [Event.opens_of_continues hchunk] at hopens
  | rejected | approvedAddress | signatureFail | signedTx | signedMsg => cases hopens

theorem Opened.step (hstep : Effect cfg c screen e w c' screen') (ho : Opened h c) :
    Opened ((e, w) :: h) c' := by
  intro path hpath
  cases hopens : e.opens with
  | none =>
    obtain ⟨-, hpath', hlen'⟩ := hstep.path_frame hopens
    rw [sessionPath, openedBy_of_keep hopens] at hpath
    rw [Context.path, hpath', hlen']
    exact ho path hpath
  | some reqType =>
    rw [sessionPath, openedBy_of_opens hopens] at hpath
    exact (hstep.of_opens hopens).2 path hpath

theorem Requested.step (hstep : Effect cfg c screen e w c' screen') (hr : Requested h c) :
    Requested ((e, w) :: h) c' := by
  intro hreq
  cases hopens : e.opens with
  | none =>
    obtain ⟨hsame, -, -⟩ := hstep.path_frame hopens
    rw [hsame] at hreq ⊢
    rw [openedBy_of_keep hopens]
    exact hr hreq
  | some reqType =>
    rw [openedBy_of_opens hopens, (hstep.of_opens hopens).1]
    exact ⟨_, rfl⟩

omit [BufferSdk] [CryptoSdk] [FormatSdk] in
theorem Shown.none : Shown h none := by
  intro hsigns
  cases hsigns

omit [BufferSdk] [CryptoSdk] [FormatSdk] in
/-- A step that shows no review leaves the one that is on the screen. -/
theorem Shown.keep (hs : Shown h screen) (hw : w.any Observation.isReview = false) :
    Shown ((e, w) :: h) screen := by
  intro hsigns
  rw [reviewOpenedBy_of_keep hw]
  exact hs hsigns

omit [BufferSdk] [CryptoSdk] [FormatSdk] in
/-- A review is shown by a last chunk. -/
theorem Shown.builds (hs : Shown h screen) (hr : Requested h c) {reqType : RequestType}
    (hchunk : e.continues = some reqType) (hreq : c.reqType = reqType) {c₀ : Context} {review : Review}
    (hb : Builds review c₀ screen w screen') : Shown ((e, .display c₀ :: w) :: h) screen' := by
  cases hb with
  | failed => exact hs.keep rfl
  | drawn =>
    intro _
    have hne := Event.continues_ne hchunk
    obtain ⟨data, hopened⟩ := hr (hreq ▸ hne)
    rw [reviewOpenedBy_of_review rfl, openedBy_of_keep (Event.opens_of_continues hchunk)]
    exact ⟨_, data, hopened, hreq ▸ hne⟩

theorem Shown.step (hstep : Effect cfg c screen e w c' screen') (hr : Requested h c) (hs : Shown h screen) :
    Shown ((e, w) :: h) screen' := by
  cases hstep with
  | keep _ hans => rcases hans with rfl | ⟨data, sw, rfl⟩ <;> exact hs.keep rfl
  | pubkey _ _ _ _ _ _ hans =>
    rcases hans with ⟨data, sw, rfl, rfl, -⟩ | hb
    · exact hs.keep rfl
    · cases hb with
      | failed => exact hs.keep rfl
      | drawn => exact fun hsigns => by cases hsigns
  | txDisplay hchunk hreq _ _ _ _ _ _ _ hb => exact hs.builds hr hchunk hreq hb
  | msgDisplay hchunk hreq _ _ _ _ _ hb => exact hs.builds hr hchunk hreq hb
  | rejected | approvedAddress | signatureFail | signedTx | signedMsg => exact .none
  | _ => exact hs.keep rfl

omit [BufferSdk] [CryptoSdk] [FormatSdk] in
theorem Builds.pathUse {review : Review} {o : Observation} (hb : Builds review c screen w screen')
    (ho : o ∈ w) : o.pathUse = none := by
  cases hb with
  | failed | drawn =>
    rw [List.mem_singleton] at ho
    rw [ho]
    rfl

/-- A path is used by a last chunk, and by an approval, and it is the one in the context. -/
theorem Effect.pathUse {s : App} {o : Observation} {c₀ : Context}
    (hstep : Effect cfg s.context s.screen e w c' screen') (ho : o ∈ w) (hc : o.pathUse = some c₀) :
    UsesPath s e ∧ c₀.bip32Path = s.context.bip32Path ∧ c₀.bip32PathLen = s.context.bip32PathLen := by
  cases hstep with
  | keep _ hans =>
    rcases hans with rfl | ⟨data, sw, rfl⟩
    · simp at ho
    · rw [List.mem_singleton.mp ho] at hc
      cases hc
  | pubkey _ _ _ _ _ _ hans =>
    rcases hans with ⟨data, sw, rfl, -⟩ | hb
    · rw [List.mem_singleton.mp ho] at hc
      cases hc
    · rw [hb.pathUse ho] at hc
      cases hc
  | txDisplay hchunk hreq _ hmore _ _ _ hc' _ hb =>
    rcases List.mem_cons.mp ho with rfl | ho
    · cases hc
      rw [hc']
      exact ⟨.inl ⟨hreq ▸ hchunk, hmore⟩, rfl, rfl⟩
    · rw [hb.pathUse ho] at hc
      cases hc
  | msgDisplay hchunk hreq _ hmore _ hc' _ hb _ =>
    rcases List.mem_cons.mp ho with rfl | ho
    · cases hc
      rw [hc']
      exact ⟨.inl ⟨hreq ▸ hchunk, hmore⟩, rfl, rfl⟩
    · rw [hb.pathUse ho] at hc
      cases hc
  | signatureFail hscreen hdigest =>
    have hsigns : s.screen.any Review.signs = true := by
      rw [hscreen]
      rcases hdigest with ⟨raw, path, rfl, -⟩ | ⟨msg, path, rfl, -⟩ <;> rfl
    simp only [List.mem_cons, List.not_mem_nil, or_false] at ho
    rcases ho with rfl | rfl
    · cases hc
      exact ⟨.inr ⟨rfl, hsigns⟩, rfl, rfl⟩
    · cases hc
  | signedTx hscreen | signedMsg hscreen =>
    simp only [List.mem_cons, List.not_mem_nil, or_false] at ho
    rcases ho with rfl | rfl
    · cases hc
      exact ⟨.inr ⟨rfl, by rw [hscreen]; rfl⟩, rfl, rfl⟩
    · cases hc
  | _ =>
    rw [List.mem_singleton.mp ho] at hc
    cases hc

end

section
variable [BufferSdk] [CommandSdk] [CryptoSdk] [FormatSdk]

/-- Along a run that goes on to a review or a signature only while the path of its session is the last
one that was sent, and was accepted, every path that is used was checked. -/
theorem path_checked (cfg : Config) (beyond : Context → Nat → Except Fault TxParameter) {h : History}
    {s : App} (hrun : (app cfg beyond).Run (fun h s e => UsesPath s e → PathKept h e) h s) :
    ∀ e w h₀, (e, w) :: h₀ <:+ h → ∀ o ∈ w, ∀ c, o.pathUse = some c → PathChecked h₀ e c := by
  intro e w h₀ hsuffix o ho c hc
  obtain ⟨s₀, t₀, hrun₀, hcond, hnext⟩ := hrun.of_suffix hsuffix
  obtain ⟨hopened, hrequested, hshown⟩ :
      Opened h₀ s₀.context ∧ Requested h₀ s₀.context ∧ Shown h₀ s₀.screen := by
    refine hrun₀.induct (I := fun h s => Opened h s.context ∧ Requested h s.context ∧ Shown h s.screen) ?_ ?_
    · refine ⟨?_, ?_, .none⟩
      · intro path hpath
        cases hpath
      · intro hreq
        exact absurd rfl hreq
    · rintro h s t e w _ ⟨ho, hr, hs⟩ _ hnext
      have heffect := (step_effect cfg beyond hnext).1
      exact ⟨ho.step heffect, hr.step heffect, hs.step heffect hr⟩
  obtain ⟨huses, hpath, hlen⟩ := (step_effect cfg beyond hnext).1.pathUse ho hc
  have hkept := hcond huses
  have hchecked : PathChecked h₀ e s₀.context := by
    rcases huses with ⟨hchunk, -⟩ | ⟨happroves, hsigns⟩
    · have hne := Event.continues_ne hchunk
      obtain ⟨data, hopenedBy⟩ := hrequested hne
      exact hopened.checked hkept ((Event.session_of_continues hchunk h₀).trans hopenedBy) hne
    · obtain ⟨reqType, data, hreview, hne⟩ := hshown hsigns
      exact hopened.checked hkept ((Event.session_of_approves happroves h₀).trans hreview) hne
  obtain ⟨hread, hcount, htwo, hmax, hvalid⟩ := hchecked
  constructor <;> simp_all [Context.path]

end

theorem path_checked_sample :
    ∃ h s, referenceApp.Run (fun h s e => UsesPath s e → PathKept h e) h s ∧
      (∃ ew ∈ h, ∃ o ∈ ew.2, ∃ c, o.pathUse = some c) ∧
      ∀ e w h₀, (e, w) :: h₀ <:+ h → ∀ o ∈ w, ∀ c, o.pathUse = some c → PathChecked h₀ e c := by
  let := BufferSdk.reference
  let := CommandSdk.reference
  let := CryptoSdk.reference
  let := FormatSdk.reference
  obtain ⟨h, s, hrun, huse⟩ := Machine.Run.exists_of_exec (M := referenceApp)
    (C := fun h s e => UsesPath s e → PathKept h e)
    (P := fun h _ => h.any fun ew => ew.2.any fun o => o.pathUse.isSome)
    [.command 2 0 0x80 samplePath, .command 2 1 0 sampleTransfer.encode, .choice true] (by decide +kernel)
  simp only [List.any_eq_true, Option.isSome_iff_exists] at huse
  exact ⟨h, s, hrun, huse, path_checked ⟨.nano, .w32⟩ _ hrun⟩

/-- Of the path that is announced with three entries two are sent. -/
def shortPath : List UInt8 := [3, 0x80, 0, 0, 0x2c, 0x80, 0, 4, 0]

/-- The session is opened with a path that cannot be read, and a transaction is signed in it. -/
theorem refusedPath_used :
    ∃ h s w t, referenceApp.Run Machine.anyStep h s ∧ referenceApp.step (.choice true) s = some (w, t) ∧
      ∃ o ∈ w, ∃ c, o.pathUse = some c ∧ ¬ PathChecked h (.choice true) c := by
  obtain ⟨h, s, w, t, hrun, hnext, huse, hsession⟩ := Machine.Run.exists_step_of_exec (M := referenceApp)
    (C := Machine.anyStep) (P := fun h _ w => w.any (fun o => o.pathUse.isSome) ∧
      reviewOpenedBy h = some (.confirmTransaction, shortPath))
    [.command 2 0 0x80 shortPath, .command 2 1 0 sampleTransfer.encode] (.choice true) (by decide +kernel)
  simp only [List.any_eq_true, Option.isSome_iff_exists] at huse
  obtain ⟨o, ho, c, hc⟩ := huse
  refine ⟨h, s, w, t, hrun, hnext, o, ho, c, hc, ?_⟩
  rintro ⟨⟨reqType, data, hsession', -, haccept⟩, -⟩
  cases hsession.symm.trans hsession'
  exact absurd haccept (by rw [show acceptedPath shortPath = none by decide]; simp)

end AppOnt
