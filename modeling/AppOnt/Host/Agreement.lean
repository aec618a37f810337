import AppOnt.App.Covered
import AppOnt.Host.Responses
import AppOnt.Host.Sender

/-!
# Agreement of the sender and the device

The sender opens a session only once the last one is over, and goes on only where it
was answered that all is well, so it stays within what the protocol covers, whatever
the user does meanwhile. What a call returns is what the device has of its own path
and data, and nothing else is signed.
-/
namespace AppOnt

open CryptoSdk Machine

section
variable [CryptoSdk]

namespace Invocation

/-- The signature that a call is for. -/
def Signs (call : Invocation) (path : List UInt32) (digest : List UInt8) : Prop :=
  readPath call.path = .ok path ∧
    match call with
    | signTx _ transaction => transactionDigest transaction = some digest
    | signPersonalMsg _ personalmsg => messageDigest personalmsg = some digest
    | _ => False

/-- The review that a call is confirmed by. -/
def Reviewed (call : Invocation) (review : Review) : Prop :=
  ∃ path, readPath call.path = .ok path ∧
    match call with
    | signTx _ transaction => review = .transaction transaction path
    | signPersonalMsg _ personalmsg => review = .message personalmsg path
    | getPublicKeyWithConfirmation _ =>
      ∃ key, bip32DeriveGetPubkey256 path = .ok key ∧ review = .address key.rawPublicKey
    | _ => False

/-- The public key of the path of a call. -/
def Derives (call : Invocation) (data : List UInt8) : Prop :=
  ∃ path key, readPath call.path = .ok path ∧ bip32DeriveGetPubkey256 path = .ok key ∧
    unpackGetPublicKeyResponse data = some (65, key.rawPublicKey, 32, key.chainCode)

/-- What a call returns, as it is unpacked. -/
def Delivers (call : Invocation) (data : List UInt8) : Prop :=
  match call with
  | getVersion => unpackGetVersionResponse data = some (2, 0, 1)
  | getAppName => unpackGetAppNameResponse data = some "ONT"
  | getPublicKey _ | getPublicKeyWithConfirmation _ => call.Derives data
  | signTx .. => ∃ path digest sig, call.Signs path digest ∧ bip32DeriveEcdsaSignHash256 path digest = .ok sig ∧
      unpackSignTxResponse data = some (sig.der.length, sig.der, sig.parity.toNat)
  | signPersonalMsg .. => ∃ path digest sig, call.Signs path digest ∧
      bip32DeriveEcdsaSignHash256 path digest = .ok sig ∧
      unpackSignPersonalMsgResponse data = some (sig.der.length, sig.der, sig.parity.toNat)

/-- A call that returns only after a review. -/
def confirmed : Invocation → Bool
  | getPublicKeyWithConfirmation _ | signTx .. | signPersonalMsg .. => true
  | _ => false

variable [FormatSdk]

/-- The offer that a call leads to. -/
def Offers (cfg : Config) (call : Invocation) (offer : Offer) : Prop :=
  ∃ path, readPath call.path = .ok path ∧
    match call with
    | signTx _ transaction => ∃ allowed, transactionOffer cfg allowed path transaction = .ok offer
    | signPersonalMsg _ personalmsg => messageOffer path personalmsg = .ok offer
    | getPublicKeyWithConfirmation _ =>
      ∃ key, bip32DeriveGetPubkey256 path = .ok key ∧ addressOffer path key = .ok offer
    | _ => False

end Invocation

variable [FormatSdk]

/-- What the sender and the device know of each other between two steps. -/
inductive Sender.Matches (cfg : Config) : Sender → Protocol → Prop where
  | idle {p : Protocol} (closed : p.offer = none) : Matches cfg .idle p
  | ready {p : Protocol} {call : Invocation} {idx : Nat} {msg : List UInt8} {done msgs : List (List UInt8)}
      {reqType : RequestType} {data : List UInt8} {path : List UInt32} (closed : p.offer = none)
      (payload : call.payload = some (reqType, data)) (accepted : readPath call.path = .ok path)
      (session : p.session = ⟨reqType, some path, done.flatten⟩) (fits : done.flatten.length ≤ reqType.capacity cfg)
      (split : splitMessage data maxApduLen = done ++ msg :: msgs) (index : idx = done.length + 1) :
      Matches cfg (.ready call idx msg msgs) p
  | awaiting {p : Protocol} {call : Invocation} {offer : Offer} (opened : p.offer = some offer)
      (offers : call.Offers cfg offer) : Matches cfg (.awaiting call .finish) p

/-- The path and the digest of a signature. -/
def Visible.signature : Visible → Option (List UInt32 × List UInt8)
  | .signed path digest => some (path, digest)
  | _ => none

/-- The user has approved what a call is confirmed by. -/
def Approved (i : Input) (screen : Option Review) (call : Invocation) : Prop :=
  i = .choice true ∧ ∃ review, screen = some review ∧ call.Reviewed review

/-- A step releases at most one signature, the one that the call ending by the step is for, and returns
what that call asked for. -/
structure Agrees (i : Input) (screen : Option Review) (w : List Visible) (r : Option (Invocation × Outcome)) :
    Prop where
  signed : w.filterMap Visible.signature = [] ∨ ∃ call outcome path digest, r = some (call, outcome) ∧
    w.filterMap Visible.signature = [(path, digest)] ∧ call.Signs path digest ∧ Approved i screen call
  returned {call : Invocation} {data : List UInt8} : r = some (call, .returned data) →
    call.Delivers data ∧ (call.confirmed = true → Approved i screen call)

/-- The sender goes on from what a step of the protocol shows, and nothing wrong is released. -/
def Sender.Advances (cfg : Config) (i : Input) (p : Protocol) (sender : Sender) (r : List Visible × Protocol) :
    Prop :=
  (sender.receive r.1).1.Matches cfg r.2 ∧ Agrees i (p.offer.map Offer.review) r.1 (sender.receive r.1).2

section
variable {cfg : Config} {i : Input} {p p' : Protocol} {call : Invocation} {next : Continuation}
  {path : List UInt32}

omit [CryptoSdk] [FormatSdk] in
theorem readPath_error {data : List UInt8} {sw : StatusWord} (h : readPath data = .error sw) : sw ≠ swOk := by
  cases data with
  | nil =>
    cases h
    decide
  | cons len bs =>
    rw [readPath] at h
    split at h
    · split at h
      · cases h
      · cases h
        decide
    · cases h
      decide

omit [FormatSdk] in
theorem pubkey_error_ne [CryptoSdk.Documented] {code : Nat} (h : bip32DeriveGetPubkey256 path = .error code) :
    code % 2 ^ 16 ≠ swOk := by
  intro heq
  have hnot := CryptoSdk.Documented.cxErr_not_mem h
  rw [heq] at hnot
  exact hnot List.mem_cons_self

theorem transactionOffer_error {allowed : Bool} {raw : List UInt8} {sw : StatusWord}
    (h : transactionOffer cfg allowed path raw = .error sw) : sw ≠ swOk := by
  rw [transactionOffer] at h
  split at h
  · rw [parsedOffer] at h
    split at h
    · cases h
      decide
    · split at h
      · cases h
        decide
      · split at h
        · cases h
          decide
        · cases h
  · cases h
    decide

theorem messageOffer_error {msg : List UInt8} {sw : StatusWord} (h : messageOffer path msg = .error sw) :
    sw ≠ swOk := by
  rw [messageOffer] at h
  split at h
  · cases h
    decide
  · split at h
    · cases h
      decide
    · cases h

theorem offer_error {session : Session} {allowed : Bool} {sw : StatusWord}
    (h : session.offer cfg allowed path = .error sw) : sw ≠ swOk := by
  rw [Session.offer] at h
  split at h
  · exact messageOffer_error h
  · exact transactionOffer_error h

theorem addressOffer_error {key : PublicKey} {sw : StatusWord} (h : addressOffer path key = .error sw) :
    sw ≠ swOk := by
  rw [addressOffer] at h
  split at h
  · cases h
    decide
  · cases h

omit [FormatSdk] in
/-- Where nothing is signed and nothing returned, there is nothing to agree on. -/
theorem Agrees.nothing {screen : Option Review} {w : List Visible} {r : Option (Invocation × Outcome)}
    (hw : w.filterMap Visible.signature = []) (hr : ∀ call data, r ≠ some (call, .returned data)) :
    Agrees i screen w r :=
  ⟨.inl hw, fun h => absurd h (hr _ _)⟩

/-- The device refuses. -/
theorem Sender.advances_raised {sw : StatusWord} (hsw : sw ≠ swOk) (hclosed : p'.offer = none) :
    Sender.Advances cfg i p (.awaiting call next) ([.answer [] sw], p') := by
  rw [Sender.Advances, Sender.receive_awaiting_answer, Sender.answered_raised hsw]
  exact ⟨.idle hclosed, .nothing rfl fun call data h => by cases h⟩

/-- The device makes an offer, or says why not. -/
theorem Sender.advances_propose {x : Except StatusWord Offer} (hclosed : p'.offer = none)
    (herror : ∀ sw, x = .error sw → sw ≠ swOk) (hoffers : ∀ offer, x = .ok offer → call.Offers cfg offer) :
    Sender.Advances cfg i p (.awaiting call .finish) (p'.propose x) := by
  cases x with
  | error sw => exact Sender.advances_raised (herror sw rfl) hclosed
  | ok offer =>
    exact ⟨.awaiting rfl (hoffers offer rfl), .nothing rfl fun call data h => by cases h⟩

/-- The device returns something that needs no confirmation. -/
theorem Sender.advances_returned {data : List UInt8} (hclosed : p'.offer = none) (hdelivers : call.Delivers data)
    (hconfirmed : call.confirmed = false) :
    Sender.Advances cfg i p (.awaiting call .finish) ([.answer data swOk], p') := by
  refine ⟨.idle hclosed, .inl rfl, ?_⟩
  rintro _ _ ⟨⟩
  refine ⟨hdelivers, fun h => ?_⟩
  rw [hconfirmed] at h
  cases h

/-- A public key is derived for a call. -/
theorem Sender.advances_publicKey [CryptoSdk.Documented] (hclosed : p'.offer = none) (confirm : Bool)
    (hcall : (∃ packed, call = .getPublicKey packed ∧ confirm = false) ∨
      ∃ packed, call = .getPublicKeyWithConfirmation packed ∧ confirm = true)
    (hpath : readPath call.path = .ok path) :
    Sender.Advances cfg i p (.awaiting call .finish) (p'.publicKey confirm path) := by
  rw [Protocol.publicKey]
  cases hkey : bip32DeriveGetPubkey256 path with
  | error code => exact Sender.advances_raised (pubkey_error_ne hkey) hclosed
  | ok key =>
    rcases hcall with ⟨packed, rfl, rfl⟩ | ⟨packed, rfl, rfl⟩
    · obtain ⟨hraw, hchain⟩ := CryptoSdk.pubkey_length hkey
      exact Sender.advances_returned hclosed ⟨path, key, hpath, hkey, unpack_pubkeyResponse hraw hchain⟩ rfl
    · refine Sender.advances_propose hclosed (fun sw h => addressOffer_error h) fun offer h => ?_
      exact ⟨path, hpath, key, hkey, h⟩

/-- A command with a path is refused, or it opens its session. -/
theorem Protocol.step_opening (cmd : Command) {reqType : RequestType} {confirm : Bool} (hclosed : p.offer = none)
    (hrequest : cmd.request = if cmd.data = [] then .refused swWrongDataLength else .opens reqType confirm) :
    (∃ sw p', readPath cmd.data = .error sw ∧ Protocol.step cfg (.apdu cmd) p = some ([.answer [] sw], p') ∧
        p'.offer = none) ∨
      ∃ path, readPath cmd.data = .ok path ∧ Protocol.step cfg (.apdu cmd) p = some
        (if reqType = .confirmAddress then
          Protocol.publicKey { p with session := ⟨reqType, some path, []⟩ } confirm path
        else ([.answer [] swOk], { p with session := ⟨reqType, some path, []⟩ })) := by
  rw [Protocol.step, hrequest]
  by_cases hdata : cmd.data = []
  · rw [if_pos hdata, hdata]
    exact .inl ⟨_, _, rfl, rfl, hclosed⟩
  · rw [if_neg hdata]
    simp only [hclosed, Option.isSome_none, Bool.false_eq_true, if_false, Protocol.opening]
    cases hpath : readPath cmd.data with
    | error sw => exact .inl ⟨sw, _, rfl, rfl, rfl⟩
    | ok path => exact .inr ⟨path, rfl, rfl⟩

theorem Sender.advances_opens {cmd : Command} {reqType : RequestType} {confirm : Bool} (hclosed : p.offer = none)
    (hrequest : cmd.request = if cmd.data = [] then .refused swWrongDataLength else .opens reqType confirm)
    (haccepted : ∀ path, readPath cmd.data = .ok path → Sender.Advances cfg i p (.awaiting call next)
      (if reqType = .confirmAddress then
        Protocol.publicKey { p with session := ⟨reqType, some path, []⟩ } confirm path
      else ([.answer [] swOk], { p with session := ⟨reqType, some path, []⟩ }))) :
    ∃ r, Protocol.step cfg (.apdu cmd) p = some r ∧ Sender.Advances cfg i p (.awaiting call next) r := by
  rcases Protocol.step_opening cmd hclosed hrequest with ⟨sw, p', hpath, hstep, hclosed'⟩ | ⟨path, hpath, hstep⟩
  · exact ⟨_, hstep, Sender.advances_raised (readPath_error hpath) hclosed'⟩
  · exact ⟨_, hstep, haccepted path hpath⟩

/-- A call that signs has its first command answered. -/
theorem Sender.advances_opened {reqType : RequestType} {data : List UInt8} (hclosed : p'.offer = none)
    (hpayload : call.payload = some (reqType, data)) (hpath : readPath call.path = .ok path)
    (hsession : p'.session = ⟨reqType, some path, []⟩) :
    Sender.Advances cfg i p (.awaiting call call.next) ([.answer [] swOk], p') := by
  rw [Sender.Advances, Sender.receive_awaiting_answer, Invocation.next_of_payload hpayload]
  cases hsplit : splitMessage data maxApduLen with
  | nil => exact ⟨.idle hclosed, .nothing rfl fun call data h => by cases h⟩
  | cons msg msgs =>
    have hsession' : p'.session = ⟨reqType, some path, ([] : List (List UInt8)).flatten⟩ := hsession
    have hready : Sender.Matches cfg (.ready call 1 msg msgs) p' :=
      .ready hclosed hpayload hpath hsession' (Nat.zero_le _) hsplit rfl
    exact ⟨hready, .nothing rfl fun call data h => by cases h⟩

/-- The first command of a call. -/
theorem Sender.advances_call [CryptoSdk.Documented] (hclosed : p.offer = none) (call : Invocation) :
    ∃ r, Protocol.step cfg call.command p = some r ∧ Sender.Advances cfg i p (.awaiting call call.next) r := by
  cases call with
  | getVersion => exact ⟨_, rfl, Sender.advances_returned hclosed rfl rfl⟩
  | getAppName => exact ⟨_, rfl, Sender.advances_returned hclosed rfl rfl⟩
  | getPublicKey packed =>
    have hcommand : (Invocation.getPublicKey packed).command = .apdu ⟨cla, 4, 0, 0, packed, packed.2⟩ := dif_pos packed.2
    rw [hcommand]
    refine Sender.advances_opens hclosed rfl fun path hpath => ?_
    rw [if_pos rfl]
    refine Sender.advances_publicKey ?_ false (.inl ⟨packed, rfl, rfl⟩) hpath
    exact hclosed
  | getPublicKeyWithConfirmation packed =>
    have hcommand : (Invocation.getPublicKeyWithConfirmation packed).command =
        .apdu ⟨cla, 4, 1, 0, packed, packed.2⟩ := dif_pos packed.2
    rw [hcommand]
    refine Sender.advances_opens hclosed rfl fun path hpath => ?_
    rw [if_pos rfl]
    refine Sender.advances_publicKey ?_ true (.inr ⟨packed, rfl, rfl⟩) hpath
    exact hclosed
  | signTx packed transaction =>
    obtain ⟨hcommand, hrequest⟩ := Invocation.request_command (.signTx packed transaction) rfl packed.2
    rw [hcommand]
    exact Sender.advances_opens hclosed hrequest fun path hpath => Sender.advances_opened hclosed rfl hpath rfl
  | signPersonalMsg packed personalmsg =>
    obtain ⟨hcommand, hrequest⟩ := Invocation.request_command (.signPersonalMsg packed personalmsg) rfl packed.2
    rw [hcommand]
    exact Sender.advances_opens hclosed hrequest fun path hpath => Sender.advances_opened hclosed rfl hpath rfl

/-- What the last piece makes is an offer of the call. -/
theorem Invocation.offers_of_session {session : Session} {allowed : Bool} {offer : Offer} {data : List UInt8}
    (hpayload : call.payload = some (session.reqType, data)) (hpath : readPath call.path = .ok path)
    (hbytes : session.bytes = data) (h : session.offer cfg allowed path = .ok offer) : call.Offers cfg offer := by
  rw [Session.offer, hbytes] at h
  cases call with
  | signTx packed transaction =>
    obtain ⟨hreq, rfl⟩ := Prod.mk.inj (Option.some.inj hpayload)
    rw [← hreq] at h
    exact ⟨path, hpath, allowed, h⟩
  | signPersonalMsg packed personalmsg =>
    obtain ⟨hreq, rfl⟩ := Prod.mk.inj (Option.some.inj hpayload)
    rw [← hreq] at h
    exact ⟨path, hpath, h⟩
  | getVersion | getAppName | getPublicKey | getPublicKeyWithConfirmation => cases hpayload

theorem messageOffer_ok {msg : List UInt8} {offer : Offer} (h : messageOffer path msg = .ok offer) :
    ∃ digest, messageDigest msg = some digest ∧ offer = ⟨.message msg path, signatureRelease path digest⟩ := by
  rw [messageOffer] at h
  split at h
  · cases h
  · rename_i digest hdigest
    split at h
    · cases h
    · cases h
      exact ⟨digest, hdigest, rfl⟩

theorem transactionOffer_ok {allowed : Bool} {raw : List UInt8} {offer : Offer}
    (h : transactionOffer cfg allowed path raw = .ok offer) :
    ∃ digest, transactionDigest raw = some digest ∧ offer = ⟨.transaction raw path, signatureRelease path digest⟩ := by
  rw [transactionOffer] at h
  split at h
  · rw [parsedOffer] at h
    split at h
    · cases h
    · rename_i digest hdigest
      split at h
      · cases h
      · split at h
        · cases h
        · cases h
          exact ⟨digest, hdigest, rfl⟩
  · cases h

omit [CryptoSdk] [FormatSdk] in
theorem RequestType.overflow_ne (reqType : RequestType) : reqType.overflow ≠ swOk := by
  cases reqType <;> decide

/-- A piece is too long for its session, or it is received, and the last one makes the offer. -/
theorem Protocol.step_piece {cmd : Command} {reqType : RequestType} {more : Bool} {sent : List UInt8}
    (hrequest : cmd.request = .chunk reqType more) (hsession : p.session = ⟨reqType, some path, sent⟩) :
    Protocol.step cfg (.apdu cmd) p = some
      (if reqType.capacity cfg < sent.length + cmd.data.length then ([.answer [] reqType.overflow], p)
      else if more then ([.answer [] swOk], { p with session := ⟨reqType, some path, sent ++ cmd.data⟩ })
      else Protocol.propose { p with session := ⟨reqType, some path, sent ++ cmd.data⟩ }
        (Session.offer cfg p.blindSignedAllowed ⟨reqType, some path, sent ++ cmd.data⟩ path)) := by
  rw [Protocol.step, hrequest]
  simp only [Protocol.chunk, hsession, ne_eq, not_true_eq_false, if_false]
  split
  · rfl
  · split <;> rfl

omit [CryptoSdk] [FormatSdk] in
/-- The pieces of what a session may receive are few enough for their indices. -/
theorem Invocation.index_le {reqType : RequestType} {data msg : List UInt8} {done msgs : List (List UInt8)}
    (hfits : done.flatten.length ≤ reqType.capacity cfg) (hsplit : splitMessage data maxApduLen = done ++ msg :: msgs) :
    done.length + 1 ≤ 27 := by
  have hlen := length_flatten_done hsplit
  have hcap : reqType.capacity cfg ≤ 6844 := by
    have hcfg := cfg.target_cases
    cases reqType with
    | confirmAddress => exact Nat.zero_le _
    | confirmTransaction =>
      change cfg.maxTransactionLen ≤ 6844
      omega
    | confirmMessage =>
      change maxMessageLen ≤ 6844
      decide
  rw [maxApduLen] at hlen
  omega

/-- The exchange of the last piece. -/
theorem Sender.Matches.step_last {idx : Nat} {msg : List UInt8} (hmatches : (Sender.ready call idx msg []).Matches cfg p) :
    ∃ e reqType data path, Sender.piece call idx msg [] = some (e, .awaiting call .finish) ∧
      call.payload = some (reqType, data) ∧ readPath call.path = .ok path ∧ data ≠ [] ∧ p.offer = none ∧
      Protocol.step cfg e p = some
        (if reqType.capacity cfg < data.length then ([.answer [] reqType.overflow], p)
        else Protocol.propose { p with session := ⟨reqType, some path, data⟩ }
          (Session.offer cfg p.blindSignedAllowed ⟨reqType, some path, data⟩ path)) := by
  cases hmatches with
  | @ready _ _ _ _ done _ reqType data path closed payload accepted session fits split index =>
  have hpos : 1 ≤ idx := index ▸ Nat.succ_pos _
  have hle : idx ≤ 27 := index ▸ Invocation.index_le fits split
  have hmem : msg ∈ splitMessage data maxApduLen := split ▸ List.mem_append_right done (List.mem_cons_self ..)
  obtain ⟨hne, hlen⟩ := mem_splitMessage maxApduLen_pos hmem
  have hlt : msg.length < 256 := hlen.trans_lt (by decide)
  have hdata : data = done.flatten ++ msg := by
    rw [← flatten_splitMessage data maxApduLen_pos, split, List.flatten_append]
    exact congrArg _ (List.append_nil msg)
  obtain ⟨hcommand, hrequest⟩ := Invocation.request_piece payload hne hlt hpos hle (.inl rfl)
  refine ⟨_, reqType, data, path, if_pos (hle.trans_lt (by decide)), payload, accepted, ?_, closed, ?_⟩
  · rw [hdata]
    exact List.append_ne_nil_of_right_ne_nil _ hne
  · rw [hcommand, Protocol.step_piece hrequest session, ← List.length_append, ← hdata]
    rfl

/-- The exchange of any other piece. -/
theorem Sender.Matches.step_more {idx : Nat} {msg next : List UInt8} {msgs : List (List UInt8)}
    (hmatches : (Sender.ready call idx msg (next :: msgs)).Matches cfg p) :
    ∃ e, Sender.piece call idx msg (next :: msgs) = some (e, .awaiting call (.send (idx + 1) next msgs)) ∧
      ((∃ reqType data path, call.payload = some (reqType, data) ∧ readPath call.path = .ok path ∧ data ≠ [] ∧
          reqType.capacity cfg < data.length ∧ p.offer = none ∧
          Protocol.step cfg e p = some ([.answer [] reqType.overflow], p)) ∨
        ∃ p', Protocol.step cfg e p = some ([.answer [] swOk], p') ∧
          p'.blindSignedAllowed = p.blindSignedAllowed ∧ (Sender.ready call (idx + 1) next msgs).Matches cfg p') := by
  cases hmatches with
  | @ready _ _ _ _ done _ reqType data path closed payload accepted session fits split index =>
  have hpos : 1 ≤ idx := index ▸ Nat.succ_pos _
  have hle : idx ≤ 27 := index ▸ Invocation.index_le fits split
  have hmem : msg ∈ splitMessage data maxApduLen := split ▸ List.mem_append_right done (List.mem_cons_self ..)
  obtain ⟨hne, hlen⟩ := mem_splitMessage maxApduLen_pos hmem
  have hlt : msg.length < 256 := hlen.trans_lt (by decide)
  have hflatten : (done ++ [msg]).flatten = done.flatten ++ msg := by
    rw [List.flatten_append]
    exact congrArg _ (List.append_nil msg)
  have hsplit : splitMessage data maxApduLen = (done ++ [msg]) ++ next :: msgs := by
    rw [split, List.append_assoc]
    rfl
  obtain ⟨hcommand, hrequest⟩ := Invocation.request_piece payload hne hlt hpos hle (.inr rfl)
  refine ⟨_, if_pos (hle.trans_lt (by decide)), ?_⟩
  rw [hcommand, Protocol.step_piece hrequest session]
  by_cases hcap : reqType.capacity cfg < done.flatten.length + msg.length
  · have hdata : data = (done.flatten ++ msg) ++ (next :: msgs).flatten := by
      rw [← hflatten, ← List.flatten_append, ← hsplit, flatten_splitMessage data maxApduLen_pos]
    refine .inl ⟨reqType, data, path, payload, accepted, ?_, hcap.trans_le ?_, closed, ?_⟩
    · rw [hdata]
      exact List.append_ne_nil_of_left_ne_nil (List.append_ne_nil_of_right_ne_nil _ hne) _
    · rw [hdata, List.length_append, List.length_append]
      exact Nat.le_add_right _ _
    · rw [if_pos hcap]
  · rw [if_neg hcap]
    refine .inr ⟨_, rfl, rfl, .ready closed payload accepted ?_ ?_ hsplit ?_⟩
    · rw [hflatten]
    · rw [hflatten, List.length_append]
      exact Nat.le_of_not_lt hcap
    · rw [index, List.length_append]
      rfl

/-- The next piece of a call. -/
theorem Sender.advances_exchange {idx : Nat} {msg : List UInt8} {msgs : List (List UInt8)}
    (hmatches : (Sender.ready call idx msg msgs).Matches cfg p) :
    ∃ e sender, Sender.piece call idx msg msgs = some (e, sender) ∧
      ∃ r, Protocol.step cfg e p = some r ∧ Sender.Advances cfg i p sender r := by
  cases msgs with
  | nil =>
    obtain ⟨e, reqType, data, path, hpiece, hpayload, hpath, -, hclosed, hstep⟩ := hmatches.step_last
    refine ⟨e, _, hpiece, _, hstep, ?_⟩
    split
    · exact Sender.advances_raised reqType.overflow_ne hclosed
    · exact Sender.advances_propose hclosed (fun sw h => offer_error h) fun offer h =>
        Invocation.offers_of_session hpayload hpath rfl h
  | cons next msgs =>
    obtain ⟨e, hpiece, ⟨reqType, -, -, -, -, -, -, hclosed, hstep⟩ | ⟨p', hstep, -, hready⟩⟩ := hmatches.step_more
    · exact ⟨e, _, hpiece, _, hstep, Sender.advances_raised reqType.overflow_ne hclosed⟩
    · exact ⟨e, _, hpiece, _, hstep, hready, .nothing rfl fun call data h => by cases h⟩

/-- An approval releases the signature that the call is for. -/
theorem Sender.advances_signature {review : Review} {digest : List UInt8} (hsigns : call.Signs path digest)
    (hdelivers : ∀ sig, bip32DeriveEcdsaSignHash256 path digest = .ok sig →
      call.Delivers (UInt8.ofNat sig.der.length :: sig.der ++ [sig.parity]))
    (hreview : p.offer.map Offer.review = some review) (hreviewed : call.Reviewed review) (hclosed : p'.offer = none) :
    Sender.Advances cfg (.choice true) p (.awaiting call .finish) (signatureRelease path digest, p') := by
  have happroved : Approved (.choice true) (p.offer.map Offer.review) call := ⟨rfl, review, hreview, hreviewed⟩
  rw [signatureRelease]
  cases hsig : bip32DeriveEcdsaSignHash256 path digest with
  | error code =>
    rw [Sender.Advances, Sender.receive_awaiting_signed, Sender.receive_awaiting_answer,
      Sender.answered_raised (by decide)]
    refine ⟨.idle hclosed, .inr ⟨call, _, path, digest, rfl, rfl, hsigns, happroved⟩, ?_⟩
    rintro _ _ ⟨⟩
  | ok sig =>
    rw [Sender.Advances, Sender.receive_awaiting_signed, Sender.receive_awaiting_answer, Sender.answered_finish]
    refine ⟨.idle hclosed, .inr ⟨call, _, path, digest, rfl, rfl, hsigns, happroved⟩, ?_⟩
    rintro _ _ ⟨⟩
    exact ⟨hdelivers sig hsig, fun _ => happroved⟩

/-- The review of an offer is the one that its call is confirmed by. -/
theorem Invocation.Offers.reviewed {offer : Offer} (hoffers : call.Offers cfg offer) : call.Reviewed offer.review := by
  obtain ⟨path, hpath, hoffer⟩ := hoffers
  refine ⟨path, hpath, ?_⟩
  cases call with
  | getVersion | getAppName | getPublicKey => exact hoffer.elim
  | getPublicKeyWithConfirmation packed =>
    obtain ⟨key, hkey, h⟩ := hoffer
    rw [addressOffer] at h
    split at h
    · cases h
    · cases h
      exact ⟨key, hkey, rfl⟩
  | signTx packed transaction =>
    obtain ⟨allowed, h⟩ := hoffer
    obtain ⟨digest, -, rfl⟩ := transactionOffer_ok h
    rfl
  | signPersonalMsg packed personalmsg =>
    obtain ⟨digest, -, rfl⟩ := messageOffer_ok hoffer
    rfl

/-- The approval of an offer ends its call. -/
theorem Invocation.Offers.released {offer : Offer} (hoffers : call.Offers cfg offer) :
    ∃ outcome, (Sender.awaiting call .finish).receive offer.release = (.idle, some (call, outcome)) ∧
      ((∃ data, outcome = .returned data) ∨ outcome = .raised swSignatureFail) := by
  have hsignature (path : List UInt32) (digest : List UInt8) :
      ∃ outcome, (Sender.awaiting call .finish).receive (signatureRelease path digest) = (.idle, some (call, outcome)) ∧
        ((∃ data, outcome = .returned data) ∨ outcome = .raised swSignatureFail) := by
    rw [signatureRelease]
    cases bip32DeriveEcdsaSignHash256 path digest with
    | error code => exact ⟨_, rfl, .inr rfl⟩
    | ok sig => exact ⟨_, rfl, .inl ⟨_, rfl⟩⟩
  obtain ⟨path, hpath, hoffer⟩ := hoffers
  cases call with
  | getVersion | getAppName | getPublicKey => exact hoffer.elim
  | getPublicKeyWithConfirmation packed =>
    obtain ⟨key, hkey, h⟩ := hoffer
    rw [addressOffer] at h
    split at h
    · cases h
    · cases h
      exact ⟨_, rfl, .inl ⟨_, rfl⟩⟩
  | signTx packed transaction =>
    obtain ⟨allowed, h⟩ := hoffer
    obtain ⟨digest, -, rfl⟩ := transactionOffer_ok h
    exact hsignature path digest
  | signPersonalMsg packed personalmsg =>
    obtain ⟨digest, -, rfl⟩ := messageOffer_ok hoffer
    exact hsignature path digest

/-- The user approves what is offered. -/
theorem Sender.advances_approved [CryptoSdk.Documented] {offer : Offer} (hopened : p.offer = some offer)
    (hoffers : call.Offers cfg offer) (hclosed : p'.offer = none) :
    Sender.Advances cfg (.choice true) p (.awaiting call .finish) (offer.release, p') := by
  have hreviewed := hoffers.reviewed
  obtain ⟨path, hpath, hoffer⟩ := hoffers
  have hreview : p.offer.map Offer.review = some offer.review := congrArg _ hopened
  have hlen {digest : List UInt8} {sig : Signature} (hsig : bip32DeriveEcdsaSignHash256 path digest = .ok sig) :
      sig.der.length < 256 := (CryptoSdk.Documented.der_length hsig).trans_lt (by decide)
  cases call with
  | getVersion | getAppName | getPublicKey => exact hoffer.elim
  | getPublicKeyWithConfirmation packed =>
    obtain ⟨key, hkey, h⟩ := hoffer
    rw [addressOffer] at h
    split at h
    · cases h
    · cases h
      obtain ⟨hraw, hchain⟩ := CryptoSdk.pubkey_length hkey
      refine ⟨.idle hclosed, .inl rfl, ?_⟩
      rintro _ _ ⟨⟩
      exact ⟨⟨path, key, hpath, hkey, unpack_pubkeyResponse hraw hchain⟩, fun _ => ⟨rfl, _, hreview, hreviewed⟩⟩
  | signTx packed transaction =>
    obtain ⟨allowed, h⟩ := hoffer
    obtain ⟨digest, hdigest, rfl⟩ := transactionOffer_ok h
    have hsigns : (Invocation.signTx packed transaction).Signs path digest := ⟨hpath, hdigest⟩
    refine Sender.advances_signature hsigns (fun sig hsig => ?_) hreview hreviewed hclosed
    exact ⟨path, digest, sig, hsigns, hsig, (unpack_signature (hlen hsig)).1⟩
  | signPersonalMsg packed personalmsg =>
    obtain ⟨digest, hdigest, rfl⟩ := messageOffer_ok hoffer
    have hsigns : (Invocation.signPersonalMsg packed personalmsg).Signs path digest := ⟨hpath, hdigest⟩
    refine Sender.advances_signature hsigns (fun sig hsig => ?_) hreview hreviewed hclosed
    exact ⟨path, digest, sig, hsigns, hsig, (unpack_signature (hlen hsig)).2⟩

/-- What the user does reaches a sender that awaits it only. -/
theorem Sender.advances_choice [CryptoSdk.Documented] {sender : Sender} (hmatches : sender.Matches cfg p)
    (confirm : Bool) : Sender.Advances cfg (.choice confirm) p sender (p.choice confirm) := by
  have hnone (hclosed : p.offer = none) : p.choice confirm = ([], p) := by rw [Protocol.choice, hclosed]
  have hagrees : Agrees (.choice confirm) (p.offer.map Offer.review) [] none :=
    .nothing rfl fun call data h => by cases h
  cases hmatches with
  | idle closed =>
    rw [hnone closed]
    exact ⟨.idle closed, hagrees⟩
  | ready closed payload accepted session fits split index =>
    rw [hnone closed]
    exact ⟨.ready closed payload accepted session fits split index, hagrees⟩
  | awaiting opened offers =>
    rw [Protocol.choice, opened]
    cases confirm with
    | true => exact Sender.advances_approved opened offers rfl
    | false => exact Sender.advances_raised (by decide) rfl

/-- The settings are no matter of the two. -/
theorem Sender.advances_blindSigning {sender : Sender} (hmatches : sender.Matches cfg p) (allowed : Bool) :
    Sender.Advances cfg i p sender ([], { p with blindSignedAllowed := allowed }) := by
  have hagrees : Agrees i (p.offer.map Offer.review) [] none := .nothing rfl fun call data h => by cases h
  cases hmatches with
  | idle closed => exact ⟨.idle closed, hagrees⟩
  | ready closed payload accepted session fits split index =>
    exact ⟨.ready closed payload accepted session fits split index, hagrees⟩
  | awaiting opened offers => exact ⟨.awaiting opened offers, hagrees⟩

/-- The protocol has a step on whatever the sender makes of an input, and the sender goes on from it. -/
theorem Sender.Matches.step [CryptoSdk.Documented] {sender sender' : Sender} {e : Event}
    (hmatches : sender.Matches cfg p) (hissue : sender.issue i = some (e, sender')) :
    ∃ r, Protocol.step cfg e p = some r ∧ Sender.Advances cfg i p sender' r := by
  cases i with
  | call call =>
    cases hmatches with
    | idle closed =>
      cases hissue
      exact Sender.advances_call closed call
    | ready | awaiting => cases hissue
  | exchange =>
    cases hmatches with
    | idle | awaiting => cases hissue
    | ready closed payload accepted session fits split index =>
      obtain ⟨e', sender'', hpiece, hstep⟩ :=
        Sender.advances_exchange (.ready closed payload accepted session fits split index)
      obtain ⟨rfl, rfl⟩ := Prod.mk.inj (Option.some.inj (hpiece.symm.trans hissue))
      exact hstep
  | choice confirm =>
    have hsome : sender.issue (.choice confirm) = some (.choice confirm, sender) := by cases sender <;> rfl
    rw [hsome] at hissue
    cases hissue
    exact ⟨_, rfl, Sender.advances_choice hmatches confirm⟩
  | blindSigning allowed =>
    have hsome : sender.issue (.blindSigning allowed) = some (.blindSigning allowed, sender) := by cases sender <;> rfl
    rw [hsome] at hissue
    cases hissue
    exact ⟨_, rfl, Sender.advances_blindSigning hmatches allowed⟩

/-- What they know of each other holds along every run. -/
theorem Sender.matches_of_run [CryptoSdk.Documented] {sender : Sender} {g : List (Input × (List Visible × Option (Invocation × Outcome)))}
    (hrun : (commandSender.drive (protocol cfg)).Run anyStep g (sender, p)) : sender.Matches cfg p := by
  refine hrun.induct (I := fun _ ks => ks.1.Matches cfg ks.2) (.idle rfl) ?_
  rintro g ⟨sender, p⟩ ⟨sender', p'⟩ i ⟨w, r⟩ - hmatches - hnext
  obtain ⟨e, sender₁, hissue, hstep, hreceive⟩ := Client.drive_step.mp hnext
  obtain ⟨r', hstep', hadvances, -⟩ := hmatches.step hissue
  obtain rfl : r' = (w, p') := Option.some.inj (hstep'.symm.trans hstep)
  have hsender : (sender₁.receive w).1 = sender' := congrArg Prod.fst hreceive
  rwa [hsender] at hadvances

variable [BufferSdk] [CommandSdk]

/-- The sender with the device, where anything lies behind the parameter array. -/
def hostAndDevice (cfg : Config) (rest : Context → Nat → TxParameter) :
    Machine (Sender × App) Input (List Observation × Option (Invocation × Outcome)) :=
  (commandSender.comap visible).drive (app cfg fun c j => .ok (rest c j))

variable {rest : Context → Nat → TxParameter}
  {h : List (Input × (List Observation × Option (Invocation × Outcome)))} {sender sender' : Sender} {s s' : App}
  {w : List Observation} {r : Option (Invocation × Outcome)}
  [CryptoSdk.Total] [CryptoSdk.Documented] [FormatSdk.StandardHex]

/-- The device is where the sender takes it to be. -/
theorem Sender.matches_device (hrun : (hostAndDevice cfg rest).Run anyStep h (sender, s)) :
    ∃ p, sender.Matches cfg p ∧ p.Represents cfg s := by
  obtain ⟨p, hrun', hr⟩ := Client.run_of_defined (protocol_simulates cfg rest) (fun hrun' hissue => by
    obtain ⟨⟨w, p'⟩, hstep, -⟩ := (Sender.matches_of_run hrun').step hissue
    exact ⟨w, p', hstep⟩) hrun
  exact ⟨p, Sender.matches_of_run hrun', hr⟩

/-- Every step of the two is one of the sender and the protocol. -/
theorem Sender.agrees_device (hrun : (hostAndDevice cfg rest).Run anyStep h (sender, s))
    (hnext : (hostAndDevice cfg rest).step i (sender, s) = some ((w, r), (sender', s'))) :
    Agrees i s.screen (visible w) r := by
  obtain ⟨p, hmatches, hr⟩ := Sender.matches_device hrun
  obtain ⟨e, sender₁, hissue, hstep, hreceive⟩ := Client.drive_step.mp hnext
  obtain ⟨⟨w', p'⟩, hstep', hadvances⟩ := hmatches.step hissue
  obtain ⟨v, t, hstep'', rfl, -⟩ := (protocol_simulates cfg rest).step hr hstep'
  obtain rfl : v = w := congrArg Prod.fst (Option.some.inj (hstep''.symm.trans hstep))
  have hr' : (sender₁.receive (visible v)).2 = r := congrArg Prod.snd hreceive
  rw [hr.screen_eq, ← hr']
  exact hadvances.2

end

end

end AppOnt
