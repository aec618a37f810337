import AppOnt.Host.Agreement

/-!
# Progress of the sender

A call goes on until it has ended or its review is open: after one exchange for each
piece of its data at most. Which of the two it comes to depends on the call and on the
settings only, not on what was done before. The user's choice then ends the call.
-/
namespace AppOnt

open CryptoSdk Machine

/-- The pieces that are left to send. -/
def Sender.remaining : Sender → Nat
  | .ready _ _ _ msgs => msgs.length + 1
  | _ => 0

/-- The exchanges that a call takes after its first command. -/
def Invocation.exchanges (call : Invocation) : Nat :=
  match call.payload with
  | none => 0
  | some (_, data) => (data.length + maxApduLen - 1) / maxApduLen

section
variable [CryptoSdk] [FormatSdk]

/-- What a call needs to be reviewed. -/
def Invocation.Reviewable (cfg : Config) (blindSignedAllowed : Bool) (call : Invocation) : Prop :=
  ∃ path, readPath call.path = .ok path ∧ signerText maxBufferLen path ≠ none ∧
    match call with
    | signTx _ transaction => transaction.length ≤ cfg.maxTransactionLen ∧ (transactionDigest transaction).isSome ∧
        (Showable cfg transaction ∨ (blindSignedAllowed = true ∧ Unregistered cfg transaction))
    | signPersonalMsg _ personalmsg => personalmsg ≠ [] ∧ personalmsg.length ≤ maxMessageLen ∧
        (messageDigest personalmsg).isSome
    | getPublicKeyWithConfirmation _ => ∃ key, bip32DeriveGetPubkey256 path = .ok key
    | _ => False

variable {cfg : Config} {allowed : Bool} {path : List UInt32} {call : Invocation}

theorem transactionOffer_isOk {raw : List UInt8} :
    (∃ offer, transactionOffer cfg allowed path raw = .ok offer) ↔ signerText maxBufferLen path ≠ none ∧
      (transactionDigest raw).isSome ∧ (Showable cfg raw ∨ (allowed = true ∧ Unregistered cfg raw)) := by
  have hshowable (h : Showable cfg raw) : Accepted cfg raw := by
    obtain ⟨x, hx, hencode, -⟩ := h
    exact ⟨x, hx, hencode⟩
  have hunregistered (h : Unregistered cfg raw) : ¬ Accepted cfg raw := fun ha => ha.not_unregistered h
  rw [transactionOffer, parsedOffer]
  cases transactionDigest raw with
  | none => split <;> simp
  | some digest =>
    split_ifs with hparsed hsigner hshown
    · simp [hsigner]
    · have hnot : ¬ Unregistered cfg raw := fun hu => hunregistered hu hshown.1
      simp [hshown.2, hnot]
    · have hreview : Showable cfg raw ∨ (allowed = true ∧ Unregistered cfg raw) := by
        rcases hparsed with ha | hu
        · exact .inl (not_not.mp fun hn => hshown ⟨ha, hn⟩)
        · exact .inr hu
      exact ⟨fun _ => ⟨hsigner, rfl, hreview⟩, fun _ => ⟨_, rfl⟩⟩
    · have hreview : ¬ (Showable cfg raw ∨ (allowed = true ∧ Unregistered cfg raw)) := fun hreview =>
        hparsed (hreview.imp_left hshowable)
      simp [hreview]

theorem messageOffer_isOk {msg : List UInt8} :
    (∃ offer, messageOffer path msg = .ok offer) ↔ signerText maxBufferLen path ≠ none ∧ (messageDigest msg).isSome := by
  rw [messageOffer]
  cases messageDigest msg with
  | none => simp
  | some digest =>
    dsimp only
    split_ifs with hsigner <;> simp [hsigner]

/-- A call whose data are received whole is reviewable exactly if they make an offer. -/
theorem Invocation.reviewable_iff {reqType : RequestType} {data : List UInt8}
    (hpayload : call.payload = some (reqType, data)) (hpath : readPath call.path = .ok path) (hne : data ≠ []) :
    call.Reviewable cfg allowed ↔ data.length ≤ reqType.capacity cfg ∧
      ∃ offer, Session.offer cfg allowed ⟨reqType, some path, data⟩ path = .ok offer := by
  cases call with
  | signTx packed transaction =>
    cases hpayload
    simp only [Reviewable, hpath, Except.ok.injEq, exists_eq_left', Session.offer, transactionOffer_isOk,
      RequestType.capacity]
    tauto
  | signPersonalMsg packed personalmsg =>
    cases hpayload
    simp only [Reviewable, hpath, Except.ok.injEq, exists_eq_left', Session.offer, messageOffer_isOk,
      RequestType.capacity]
    tauto
  | getVersion | getAppName | getPublicKey | getPublicKeyWithConfirmation => cases hpayload

/-- The review of a call is open, or the call is over without one. -/
inductive Settled (cfg : Config) (allowed : Bool) (call : Invocation) : Sender → Option Review → Prop where
  | reviewed {review : Review} (reviewable : call.Reviewable cfg allowed) :
      Settled cfg allowed call (.awaiting call .finish) (some review)
  | over (unreviewable : ¬ call.Reviewable cfg allowed) : Settled cfg allowed call .idle none

variable {i : Input} {p p' : Protocol} {e : Event} {sender sender' : Sender} {w : List Visible}

theorem addressOffer_isOk {key : PublicKey} :
    (∃ offer, addressOffer path key = .ok offer) ↔ signerText maxBufferLen path ≠ none := by
  rw [addressOffer]
  split_ifs with hsigner <;> simp [hsigner]

/-- What an offer comes to settles a call. -/
theorem Settled.propose {x : Except StatusWord Offer} (hclosed : p.offer = none)
    (herror : ∀ sw, x = .error sw → sw ≠ swOk) (hx : (∃ offer, x = .ok offer) ↔ call.Reviewable cfg allowed) :
    Settled cfg allowed call ((Sender.awaiting call .finish).receive (p.propose x).1).1
      ((p.propose x).2.offer.map Offer.review) := by
  cases x with
  | error sw =>
    have hreceive : ((Sender.awaiting call .finish).receive (p.propose (.error sw)).1).1 = .idle := by
      rw [Protocol.propose, Sender.receive_awaiting_answer, Sender.answered_raised (herror sw rfl)]
    rw [hreceive, Protocol.propose, hclosed]
    exact .over fun hr => by simpa using hx.mpr hr
  | ok offer => exact .reviewed (hx.mp ⟨offer, rfl⟩)

/-- An answer with an error ends a call. -/
theorem Settled.raised {next : Continuation} {sw : StatusWord} (hsw : sw ≠ swOk) (hclosed : p.offer = none)
    (hr : ¬ call.Reviewable cfg allowed) :
    Settled cfg allowed call ((Sender.awaiting call next).receive [.answer [] sw]).1 (p.offer.map Offer.review) := by
  rw [Sender.receive_awaiting_answer, Sender.answered_raised hsw, hclosed]
  exact .over hr

/-- So does an answer that a call does not wait any longer for. -/
theorem Settled.told {data : List UInt8} (hclosed : p.offer = none) (hr : ¬ call.Reviewable cfg allowed) :
    Settled cfg allowed call ((Sender.awaiting call .finish).receive [.answer data swOk]).1
      (p.offer.map Offer.review) := by
  rw [Sender.receive_awaiting_answer, Sender.answered_finish, hclosed]
  exact .over hr

/-- A step of the sender and the protocol. -/
theorem Sender.drive_step {r : List Visible × Protocol} (hissue : sender.issue i = some (e, sender'))
    (hstep : Protocol.step cfg e p = some r) : (commandSender.drive (protocol cfg)).step i (sender, p) =
      some ((r.1, (sender'.receive r.1).2), ((sender'.receive r.1).1, r.2)) :=
  Client.drive_step.mpr ⟨e, sender', hissue, hstep, rfl⟩

/-- The pieces that are left are sent until the call is settled. -/
theorem Sender.Matches.settles {idx : Nat} {msg : List UInt8} {msgs : List (List UInt8)}
    (hmatches : (Sender.ready call idx msg msgs).Matches cfg p) :
    ∃ g sender p' k, ((commandSender.drive (protocol cfg)).startAt (.ready call idx msg msgs, p)).Run anyStep g
        (sender, p') ∧ k ≤ msgs.length + 1 ∧ g.map Prod.fst = List.replicate k .exchange ∧
      Settled cfg p.blindSignedAllowed call sender (p'.offer.map Offer.review) := by
  induction msgs generalizing idx msg p with
  | nil =>
    obtain ⟨e, reqType, data, path, hpiece, hpayload, hpath, hne, hclosed, hstep⟩ := hmatches.step_last
    have hissue : (Sender.ready call idx msg []).issue .exchange = some (e, _) := hpiece
    have hiff : call.Reviewable cfg p.blindSignedAllowed ↔ _ := Invocation.reviewable_iff hpayload hpath hne
    have hnext := Sender.drive_step hissue hstep
    refine ⟨_, _, _, 1, .step .init trivial hnext, le_rfl, rfl, ?_⟩
    by_cases hcap : reqType.capacity cfg < data.length
    · rw [if_pos hcap]
      exact Settled.raised reqType.overflow_ne hclosed fun hr => (hiff.mp hr).1.not_gt hcap
    · rw [if_neg hcap]
      refine Settled.propose hclosed (fun sw h => offer_error h) ?_
      rw [hiff]
      exact ⟨fun hoffer => ⟨Nat.le_of_not_lt hcap, hoffer⟩, fun hr => hr.2⟩
  | cons next msgs ih =>
    obtain ⟨e, hpiece, hmore⟩ := hmatches.step_more
    have hissue : (Sender.ready call idx msg (next :: msgs)).issue .exchange = some (e, _) := hpiece
    rcases hmore with ⟨reqType, data, path, hpayload, hpath, hne, hcap, hclosed, hstep⟩ | ⟨p', hstep, hallowed, hready⟩
    · have hnext := Sender.drive_step hissue hstep
      refine ⟨_, _, _, 1, .step .init trivial hnext, Nat.succ_pos _, rfl, ?_⟩
      refine Settled.raised reqType.overflow_ne hclosed fun hr => ?_
      exact ((Invocation.reviewable_iff hpayload hpath hne).mp hr).1.not_gt hcap
    · obtain ⟨g, sender, p'', k, hrun, hk, hg, hsettled⟩ := ih hready
      have hnext := Sender.drive_step hissue hstep
      refine ⟨_, sender, p'', k + 1, hrun.cons hnext, by simpa using hk, ?_, hallowed ▸ hsettled⟩
      rw [List.map_append, hg, List.replicate_succ']
      rfl

/-- Where the path is refused, nothing is reviewable. -/
theorem Invocation.not_reviewable_of_path {sw : StatusWord} (hpath : readPath call.path = .error sw) :
    ¬ call.Reviewable cfg allowed := by
  rintro ⟨path, hpath', -⟩
  cases hpath.symm.trans hpath'

/-- The first command settles a call, or its pieces are still to be sent. -/
def Commanded (cfg : Config) (p : Protocol) (call : Invocation) (r : List Visible × Protocol) : Prop :=
  Settled cfg p.blindSignedAllowed call ((Sender.awaiting call call.next).receive r.1).1 (r.2.offer.map Offer.review) ∨
    ∃ msg msgs, ((Sender.awaiting call call.next).receive r.1).1 = .ready call 1 msg msgs ∧
      msgs.length + 1 = call.exchanges ∧ r.2.blindSignedAllowed = p.blindSignedAllowed

theorem Commanded.opened {reqType : RequestType} {data : List UInt8} (hpayload : call.payload = some (reqType, data))
    (hclosed : p'.offer = none) (hallowed : p'.blindSignedAllowed = p.blindSignedAllowed) :
    Commanded cfg p call ([.answer [] swOk], p') := by
  rw [Commanded, Sender.receive_awaiting_answer, Invocation.next_of_payload hpayload]
  have hlen := length_splitMessage data maxApduLen
  cases hsplit : splitMessage data maxApduLen with
  | nil =>
    have hnil : data = [] := by
      rw [← flatten_splitMessage data maxApduLen_pos, hsplit]
      rfl
    rw [hclosed]
    refine .inl (.over ?_)
    rintro ⟨path, -, -, hr⟩
    cases call with
    | signTx packed transaction =>
      cases hpayload
      subst hnil
      rcases hr.2.2 with ⟨x, hx, hencode, -⟩ | ⟨-, hu⟩
      · exact (verdict_nil cfg).1 ⟨x, hx, hencode⟩
      · exact (verdict_nil cfg).2 hu
    | signPersonalMsg packed personalmsg =>
      cases hpayload
      exact hr.1 hnil
    | getVersion | getAppName | getPublicKey | getPublicKeyWithConfirmation => cases hpayload
  | cons msg msgs =>
    refine .inr ⟨msg, msgs, rfl, ?_, hallowed⟩
    rw [Invocation.exchanges, hpayload, ← List.length_cons, ← hsplit]
    exact hlen

theorem Commanded.publicKey [CryptoSdk.Documented] (confirm : Bool) (hnext : call.next = .finish)
    (hclosed : p'.offer = none) (hr : call.Reviewable cfg p.blindSignedAllowed ↔
      confirm = true ∧ signerText maxBufferLen path ≠ none ∧ ∃ key, bip32DeriveGetPubkey256 path = .ok key) :
    Commanded cfg p call (p'.publicKey confirm path) := by
  rw [Commanded, hnext, Protocol.publicKey]
  refine .inl ?_
  cases hkey : bip32DeriveGetPubkey256 path with
  | error code =>
    refine Settled.raised (pubkey_error_ne hkey) hclosed fun h => ?_
    obtain ⟨-, -, key, hkey'⟩ := hr.mp h
    cases hkey.symm.trans hkey'
  | ok key =>
    cases confirm with
    | true =>
      refine Settled.propose hclosed (fun sw h => addressOffer_error h) ?_
      rw [addressOffer_isOk, hr]
      exact ⟨fun hsigner => ⟨rfl, hsigner, key, hkey⟩, fun h => h.2.1⟩
    | false =>
      have hnot : ¬ call.Reviewable cfg p.blindSignedAllowed := fun h => Bool.noConfusion (hr.mp h).1
      exact Settled.told hclosed hnot

/-- The first command of a call. -/
theorem Protocol.command_settles [CryptoSdk.Documented] (cfg : Config) (hclosed : p.offer = none) (call : Invocation) :
    ∃ r, Protocol.step cfg call.command p = some r ∧ Commanded cfg p call r := by
  have hrefused {sw : StatusWord} {p' : Protocol} (hpath : readPath call.path = .error sw) (hclosed' : p'.offer = none) :
      Commanded cfg p call ([.answer [] sw], p') :=
    .inl (Settled.raised (readPath_error hpath) hclosed' (Invocation.not_reviewable_of_path hpath))
  cases call with
  | getVersion => exact ⟨_, rfl, .inl (Settled.told hclosed fun hr => hr.choose_spec.2.2)⟩
  | getAppName => exact ⟨_, rfl, .inl (Settled.told hclosed fun hr => hr.choose_spec.2.2)⟩
  | getPublicKey packed =>
    have hcommand : (Invocation.getPublicKey packed).command = .apdu ⟨cla, 4, 0, 0, packed, packed.2⟩ := dif_pos packed.2
    rw [hcommand]
    rcases Protocol.step_opening ⟨cla, 4, 0, 0, packed, packed.2⟩ hclosed rfl with
      ⟨sw, p', hpath, hstep, hclosed'⟩ | ⟨path, hpath, hstep⟩
    · exact ⟨_, hstep, hrefused hpath hclosed'⟩
    · refine ⟨_, hstep, ?_⟩
      rw [if_pos rfl]
      refine Commanded.publicKey false rfl hclosed ⟨fun hr => hr.choose_spec.2.2.elim, fun hr => ?_⟩
      cases hr.1
  | getPublicKeyWithConfirmation packed =>
    have hcommand : (Invocation.getPublicKeyWithConfirmation packed).command =
        .apdu ⟨cla, 4, 1, 0, packed, packed.2⟩ := dif_pos packed.2
    rw [hcommand]
    rcases Protocol.step_opening ⟨cla, 4, 1, 0, packed, packed.2⟩ hclosed rfl with
      ⟨sw, p', hpath, hstep, hclosed'⟩ | ⟨path, hpath, hstep⟩
    · exact ⟨_, hstep, hrefused hpath hclosed'⟩
    · refine ⟨_, hstep, ?_⟩
      rw [if_pos rfl]
      refine Commanded.publicKey true rfl hclosed ⟨?_, fun hr => ⟨path, hpath, hr.2⟩⟩
      rintro ⟨path', hpath', hr⟩
      cases hpath.symm.trans hpath'
      exact ⟨rfl, hr⟩
  | signTx packed transaction =>
    obtain ⟨hcommand, hrequest⟩ := Invocation.request_command (.signTx packed transaction) rfl packed.2
    rw [hcommand]
    rcases Protocol.step_opening _ hclosed hrequest with ⟨sw, p', hpath, hstep, hclosed'⟩ | ⟨path, hpath, hstep⟩
    · exact ⟨_, hstep, hrefused hpath hclosed'⟩
    · exact ⟨_, hstep, Commanded.opened rfl hclosed rfl⟩
  | signPersonalMsg packed personalmsg =>
    obtain ⟨hcommand, hrequest⟩ := Invocation.request_command (.signPersonalMsg packed personalmsg) rfl packed.2
    rw [hcommand]
    rcases Protocol.step_opening _ hclosed hrequest with ⟨sw, p', hpath, hstep, hclosed'⟩ | ⟨path, hpath, hstep⟩
    · exact ⟨_, hstep, hrefused hpath hclosed'⟩
    · exact ⟨_, hstep, Commanded.opened rfl hclosed rfl⟩

/-- A call is settled after its command and the exchanges of its pieces. -/
theorem Protocol.call_settles [CryptoSdk.Documented] (cfg : Config) (hclosed : p.offer = none) (call : Invocation) :
    ∃ g sender p' k, ((commandSender.drive (protocol cfg)).startAt (.idle, p)).Run anyStep g (sender, p') ∧
      k ≤ call.exchanges ∧ g.map Prod.fst = List.replicate k .exchange ++ [.call call] ∧
      Settled cfg p.blindSignedAllowed call sender (p'.offer.map Offer.review) := by
  obtain ⟨r, hstep, hcommanded⟩ := Protocol.command_settles cfg hclosed call
  have hissue : Sender.idle.issue (.call call) = some (call.command, .awaiting call call.next) := rfl
  have hnext := Sender.drive_step hissue hstep
  rcases hcommanded with hsettled | ⟨msg, msgs, hready, hlen, hallowed⟩
  · exact ⟨_, _, _, 0, Run.cons hnext .init, Nat.zero_le _, rfl, hsettled⟩
  · have hidle : Sender.idle.Matches cfg p := .idle hclosed
    obtain ⟨r', hstep', hmatches, -⟩ := hidle.step hissue
    obtain rfl : r' = r := Option.some.inj (hstep'.symm.trans hstep)
    rw [hready] at hnext hmatches
    obtain ⟨g, sender, p', k, hrun, hk, hg, hsettled⟩ := hmatches.settles
    refine ⟨_, sender, p', k, hrun.cons hnext, hlen ▸ hk, ?_, hallowed ▸ hsettled⟩
    rw [List.map_append, hg]
    rfl

variable [BufferSdk] [CommandSdk] {rest : Context → Nat → TxParameter}
  {h : List (Input × (List Observation × Option (Invocation × Outcome)))} {s : App}
  [CryptoSdk.Total] [CryptoSdk.Documented] [FormatSdk.StandardHex]

/-- What the sender and the protocol come to, the sender and the device come to as well. -/
theorem settles_device (hrun : (hostAndDevice cfg rest).Run anyStep h (sender, s)) (hr : p.Represents cfg s)
    {g : List (Input × (List Visible × Option (Invocation × Outcome)))} {k n : Nat} {is : List Input}
    (hg : ((commandSender.drive (protocol cfg)).startAt (sender, p)).Run anyStep g (sender', p')) (hk : k ≤ n)
    (hinputs : g.map Prod.fst = List.replicate k .exchange ++ is)
    (hsettled : Settled cfg p.blindSignedAllowed call sender' (p'.offer.map Offer.review)) :
    ∃ g sender' s' k, (hostAndDevice cfg rest).Run anyStep (g ++ h) (sender', s') ∧ k ≤ n ∧
      g.map Prod.fst = List.replicate k .exchange ++ is ∧ Settled cfg s.blindSignedAllowed call sender' s'.screen := by
  obtain ⟨g', ⟨sender'', s'⟩, hrun', hseen, rfl, hr'⟩ :=
    (commandSender.simulates (protocol_simulates cfg rest)).extend ⟨rfl, hr⟩ hrun hg
  refine ⟨g', _, s', k, hrun', hk, ?_, ?_⟩
  · rw [← hinputs, ← hseen, seen, List.map_map]
    rfl
  · rw [hr.blindSignedAllowed_eq, hr'.screen_eq]
    exact hsettled

/-- From every state that the sender and the device come to, whatever the user did meanwhile: a call that
is made, or whose pieces are being sent, is settled after its exchanges, with a review exactly if it is
reviewable with the settings as they are; and a call that awaits the user has its own review on the screen,
and ends by the choice. -/
theorem calls_settle (cfg : Config) (rest : Context → Nat → TxParameter)
    {h : List (Input × (List Observation × Option (Invocation × Outcome)))} {sender : Sender} {s : App}
    (hrun : (hostAndDevice cfg rest).Run anyStep h (sender, s)) :
    match sender with
    | .idle => ∀ call : Invocation, ∃ g sender' s' k, (hostAndDevice cfg rest).Run anyStep (g ++ h) (sender', s') ∧
        k ≤ call.exchanges ∧ g.map Prod.fst = List.replicate k .exchange ++ [.call call] ∧
        Settled cfg s.blindSignedAllowed call sender' s'.screen
    | .ready call _ _ msgs => ∃ g sender' s' k, (hostAndDevice cfg rest).Run anyStep (g ++ h) (sender', s') ∧
        k ≤ msgs.length + 1 ∧ g.map Prod.fst = List.replicate k .exchange ∧
        Settled cfg s.blindSignedAllowed call sender' s'.screen
    | .awaiting call next => ∃ review, s.screen = some review ∧ call.Reviewed review ∧ ∀ confirm,
        ∃ w outcome s', (hostAndDevice cfg rest).step (.choice confirm) (.awaiting call next, s) =
            some ((w, some (call, outcome)), (.idle, s')) ∧ s'.screen = none ∧
          (if confirm then (∃ data, outcome = .returned data) ∨ outcome = .raised swSignatureFail
          else outcome = .raised swDeny) := by
  obtain ⟨p, hmatches, hr⟩ := Sender.matches_device hrun
  cases hmatches with
  | idle closed =>
    intro call
    obtain ⟨g, sender', p', k, hg, hk, hinputs, hsettled⟩ := Protocol.call_settles cfg closed call
    exact settles_device hrun hr hg hk hinputs hsettled
  | @ready _ call idx msg done msgs _ _ _ closed payload accepted session fits split index =>
    have hready : (Sender.ready call idx msg msgs).Matches cfg p :=
      .ready closed payload accepted session fits split index
    obtain ⟨g, sender', p', k, hg, hk, hinputs, hsettled⟩ := hready.settles
    obtain ⟨g', sender'', s', k', hrun', hk', hinputs', hsettled'⟩ :=
      settles_device hrun hr hg hk (hinputs.trans (List.append_nil _).symm) hsettled
    exact ⟨g', sender'', s', k', hrun', hk', hinputs'.trans (List.append_nil _), hsettled'⟩
  | @awaiting _ call offer opened offers =>
    have hscreen := hr.screen_eq
    rw [opened] at hscreen
    refine ⟨offer.review, hscreen, offers.reviewed, fun confirm => ?_⟩
    have hchoice (w : List Visible) (outcome : Outcome)
        (hw : (if confirm then offer.release else [.answer [] swDeny]) = w)
        (hreceive : (Sender.awaiting call .finish).receive w = (.idle, some (call, outcome))) :
        ∃ w s', (hostAndDevice cfg rest).step (.choice confirm) (.awaiting call .finish, s) =
          some ((w, some (call, outcome)), (.idle, s')) ∧ s'.screen = none := by
      have hstep : (protocol cfg).step (.choice confirm) p = some (w, { p with offer := none }) := by
        change some (p.choice confirm) = _
        rw [Protocol.choice, opened, ← hw]
      obtain ⟨v, s', hnext, rfl, hr'⟩ := (protocol_simulates cfg rest).step hr hstep
      exact ⟨v, s', Client.drive_step.mpr ⟨_, _, rfl, hnext, hreceive⟩, hr'.screen_eq⟩
    cases confirm with
    | true =>
      obtain ⟨outcome, hreceive, houtcome⟩ := offers.released
      obtain ⟨w, s', hnext, hnone⟩ := hchoice offer.release outcome rfl hreceive
      exact ⟨w, outcome, s', hnext, hnone, houtcome⟩
    | false =>
      obtain ⟨w, s', hnext, hnone⟩ := hchoice [.answer [] swDeny] (.raised swDeny) rfl rfl
      exact ⟨w, _, s', hnext, hnone, rfl⟩

end

theorem calls_settle_sample :
    let := BufferSdk.reference
    let := CommandSdk.reference
    let := CryptoSdk.reference
    let := FormatSdk.reference
    ∃ g sender s k, (hostAndDevice ⟨.nano, .w32⟩ fun _ _ => .zero).Run anyStep g (sender, s) ∧ k ≤ 1 ∧
      g.map Prod.fst = List.replicate k .exchange ++ [.call sampleCall] ∧
      Settled ⟨.nano, .w32⟩ false sampleCall sender s.screen := by
  let := BufferSdk.reference
  let := CommandSdk.reference
  let := CryptoSdk.reference
  let := FormatSdk.reference
  have := CryptoSdk.reference_total
  have := CryptoSdk.reference_documented
  have := FormatSdk.reference_standardHex
  obtain ⟨g, sender, s, k, hrun, hk, hinputs, hsettled⟩ :=
    calls_settle ⟨.nano, .w32⟩ (fun _ _ => .zero) (.init) sampleCall
  have hone : sampleCall.exchanges = 1 := by decide +kernel
  rw [List.append_nil] at hrun
  exact ⟨g, sender, s, k, hrun, hone ▸ hk, hinputs, hsettled⟩

end AppOnt
