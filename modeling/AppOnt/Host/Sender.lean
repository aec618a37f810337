import AppOnt.App.Protocol
import AppOnt.Library.Client

/-!
# The command sender

`BoilerplateCommandSender` of the tests' application client, over a backend that
raises where the status word is not `0x9000`. A call is a sequence of exchanges: one
with a path or a query, and for the two calls that sign one for each piece of their
data. The last exchange of a call that a user has to confirm is an asynchronous one,
so the user's choices come between a command and its answer. What
`pack_derivation_path` makes of a path is any bytes that fit into a command.
-/
namespace AppOnt

def maxApduLen : Nat := 255

theorem maxApduLen_pos : 0 < maxApduLen := by decide

/-- `split_message`. -/
def splitMessage (message : List UInt8) (maxSize : Nat) : List (List UInt8) :=
  (List.range ((message.length + maxSize - 1) / maxSize)).map fun i =>
    (message.drop (i * maxSize)).take maxSize

section
variable {message : List UInt8} {maxSize : Nat}

theorem flatten_pieces (message : List UInt8) (maxSize n : Nat) :
    ((List.range n).map fun i => (message.drop (i * maxSize)).take maxSize).flatten =
      message.take (n * maxSize) := by
  induction n with
  | zero => simp
  | succ n ih =>
    rw [List.range_succ, List.map_append, List.flatten_append, ih, Nat.succ_mul, List.take_add]
    simp

/-- The pieces are the message. -/
theorem flatten_splitMessage (message : List UInt8) (hmax : 0 < maxSize) : (splitMessage message maxSize).flatten = message := by
  rw [splitMessage, flatten_pieces]
  refine List.take_of_length_le ?_
  have hdiv := Nat.div_add_mod (message.length + maxSize - 1) maxSize
  have hmod := Nat.mod_lt (message.length + maxSize - 1) hmax
  rw [Nat.mul_comm] at hdiv
  omega

theorem length_splitMessage (message : List UInt8) (maxSize : Nat) :
    (splitMessage message maxSize).length = (message.length + maxSize - 1) / maxSize := by
  rw [splitMessage, List.length_map, List.length_range]

theorem lt_of_lt_pieces {i : Nat} (h : i < (message.length + maxSize - 1) / maxSize) : i * maxSize < message.length := by
  have hmax : 0 < maxSize := by
    rcases Nat.eq_zero_or_pos maxSize with rfl | hpos
    · simp at h
    · exact hpos
  have hle := Nat.mul_le_of_le_div maxSize _ _ (Nat.succ_le_of_lt h)
  rw [Nat.succ_mul] at hle
  omega

/-- Every piece but the last has the size. -/
theorem length_flatten_done {done msgs : List (List UInt8)} {msg : List UInt8}
    (hsplit : splitMessage message maxSize = done ++ msg :: msgs) : done.flatten.length = done.length * maxSize := by
  have hlt : done.length < (message.length + maxSize - 1) / maxSize := by
    rw [← length_splitMessage, hsplit, List.length_append, List.length_cons]
    omega
  have hdone : done = (List.range done.length).map fun i => (message.drop (i * maxSize)).take maxSize := by
    have htake : (splitMessage message maxSize).take done.length = done := by rw [hsplit, List.take_left]
    rw [splitMessage, ← List.map_take, List.take_range, Nat.min_eq_left hlt.le] at htake
    exact htake.symm
  calc done.flatten.length = (message.take (done.length * maxSize)).length := by
        rw [← flatten_pieces, ← hdone]
    _ = done.length * maxSize := by
        rw [List.length_take]
        exact Nat.min_eq_left (lt_of_lt_pieces hlt).le

/-- No piece is empty, and none is longer than the size. -/
theorem mem_splitMessage (hmax : 0 < maxSize) {msg : List UInt8} (hmem : msg ∈ splitMessage message maxSize) :
    msg ≠ [] ∧ msg.length ≤ maxSize := by
  obtain ⟨i, hi, rfl⟩ := List.mem_map.mp hmem
  have hlt := lt_of_lt_pieces (List.mem_range.mp hi)
  constructor
  · refine List.ne_nil_of_length_pos ?_
    rw [List.length_take, List.length_drop]
    omega
  · exact List.length_take_le _ _

end

/-- What `pack_derivation_path` gives. -/
abbrev PackedPath := { bs : List UInt8 // bs.length < 256 }

/-- A call of the sender. -/
inductive Invocation where
  | getVersion
  | getAppName
  | getPublicKey (path : PackedPath)
  | getPublicKeyWithConfirmation (path : PackedPath)
  | signTx (path : PackedPath) (transaction : List UInt8)
  | signPersonalMsg (path : PackedPath) (personalmsg : List UInt8)

/-- What a call does once the exchange that is under way is answered. -/
inductive Continuation where
  | finish
  /-- `messages[-1]` where there are none. -/
  | fail
  | send (idx : Nat) (msg : List UInt8) (msgs : List (List UInt8))

/-- How a call ends. -/
inductive Outcome where
  | returned (data : List UInt8)
  | raised (sw : StatusWord)
  | indexError
  deriving DecidableEq

namespace Invocation

def ins : Invocation → UInt8
  | getVersion => 0x03
  | getAppName => 0x05
  | getPublicKey _ | getPublicKeyWithConfirmation _ => 0x04
  | signTx .. => 0x02
  | signPersonalMsg .. => 0x07

/-- The path of a call. -/
def path : Invocation → List UInt8
  | getVersion | getAppName => []
  | getPublicKey path | getPublicKeyWithConfirmation path => path
  | signTx path _ | signPersonalMsg path _ => path

/-- The first command of a call. -/
def command (call : Invocation) : Event :=
  match call with
  | getVersion | getAppName | getPublicKey _ => .command call.ins p1Start p2Last call.path
  | getPublicKeyWithConfirmation _ => .command call.ins 0x01 p2Last call.path
  | signTx .. | signPersonalMsg .. => .command call.ins p1Start p2More call.path

/-- What a call has signed, and by which request. -/
def payload : Invocation → Option (RequestType × List UInt8)
  | signTx _ transaction => some (.confirmTransaction, transaction)
  | signPersonalMsg _ personalmsg => some (.confirmMessage, personalmsg)
  | _ => none

/-- What follows the first command. -/
def next (call : Invocation) : Continuation :=
  match call.payload with
  | none => .finish
  | some (_, data) =>
    match splitMessage data maxApduLen with
    | [] => .fail
    | msg :: msgs => .send 1 msg msgs

section
variable {call : Invocation} {reqType : RequestType} {data : List UInt8}

theorem next_of_payload (hpayload : call.payload = some (reqType, data)) :
    call.next =
      match splitMessage data maxApduLen with
      | [] => .fail
      | msg :: msgs => .send 1 msg msgs := by
  rw [next, hpayload]

/-- A call that signs asks for its own session. -/
theorem request_command (call : Invocation) (hpayload : call.payload = some (reqType, data)) (hlen : call.path.length < 256) :
    call.command = .apdu ⟨cla, call.ins, p1Start, p2More, call.path, hlen⟩ ∧
      Command.request ⟨cla, call.ins, p1Start, p2More, call.path, hlen⟩ =
        if call.path = [] then .refused swWrongDataLength else .opens reqType false := by
  cases call with
  | signTx packed transaction =>
    cases hpayload
    exact ⟨dif_pos hlen, rfl⟩
  | signPersonalMsg packed personalmsg =>
    cases hpayload
    exact ⟨dif_pos hlen, rfl⟩
  | getVersion | getAppName | getPublicKey | getPublicKeyWithConfirmation => cases hpayload

/-- A piece is a chunk of the session of its call. -/
theorem request_piece {msg : List UInt8} {idx : Nat} {p2 : UInt8}
    (hpayload : call.payload = some (reqType, data)) (hne : msg ≠ []) (hlen : msg.length < 256) (hpos : 1 ≤ idx)
    (hle : idx ≤ 27) (hp2 : p2 = p2Last ∨ p2 = p2More) :
    Event.command call.ins (UInt8.ofNat idx) p2 msg = .apdu ⟨cla, call.ins, UInt8.ofNat idx, p2, msg, hlen⟩ ∧
      Command.request ⟨cla, call.ins, UInt8.ofNat idx, p2, msg, hlen⟩ = .chunk reqType (p2 &&& p2More != 0) := by
  refine ⟨dif_pos hlen, ?_⟩
  have hidx : (UInt8.ofNat idx).toNat = idx := UInt8.toNat_ofNat_of_lt (hle.trans_lt (by decide))
  have hmax : ¬ UInt8.ofNat idx > p1Max := by
    rw [gt_iff_lt, UInt8.lt_iff_toNat_lt, hidx]
    exact hle.not_gt
  have hzero : UInt8.ofNat idx ≠ 0 := by
    intro h
    rw [h] at hidx
    exact absurd (hpos.trans_eq hidx.symm) (by decide)
  have hsign (rt : RequestType) : Command.signRequest ⟨cla, call.ins, UInt8.ofNat idx, p2, msg, hlen⟩ rt =
      .chunk rt (p2 &&& p2More != 0) := by
    have hother : ¬ (p2 ≠ p2Last ∧ p2 ≠ p2More) := by grind
    simp only [Command.signRequest, hmax, hother, or_false, hzero, hne, if_false, p1Start, false_and]
  cases call with
  | signTx packed transaction =>
    cases hpayload
    exact hsign .confirmTransaction
  | signPersonalMsg packed personalmsg =>
    cases hpayload
    exact hsign .confirmMessage
  | getVersion | getAppName | getPublicKey | getPublicKeyWithConfirmation => cases hpayload

end

end Invocation

/-- The state of the sender: a piece is to be sent, or the answer to a command awaited. -/
inductive Sender where
  | idle
  | ready (call : Invocation) (idx : Nat) (msg : List UInt8) (msgs : List (List UInt8))
  | awaiting (call : Invocation) (next : Continuation)

/-- What happens at the host and at the device. -/
inductive Input where
  | call (call : Invocation)
  | exchange
  | choice (confirm : Bool)
  | blindSigning (allowed : Bool)

namespace Sender

/-- The command of a piece, and what follows it. An index that is no byte cannot be sent. -/
def piece (call : Invocation) (idx : Nat) (msg : List UInt8) : List (List UInt8) → Option (Event × Sender)
  | [] => if idx < 256 then some (.command call.ins (UInt8.ofNat idx) p2Last msg, awaiting call .finish) else none
  | next :: msgs =>
    if idx < 256 then some (.command call.ins (UInt8.ofNat idx) p2More msg, awaiting call (.send (idx + 1) next msgs))
    else none

def issue : Sender → Input → Option (Event × Sender)
  | idle, .call call => some (call.command, awaiting call call.next)
  | ready call idx msg msgs, .exchange => piece call idx msg msgs
  | sender, .choice confirm => some (.choice confirm, sender)
  | sender, .blindSigning allowed => some (.blindSigning allowed, sender)
  | _, _ => none

/-- The end of an exchange. -/
def answered (call : Invocation) (next : Continuation) (data : List UInt8) (sw : StatusWord) :
    Sender × Option (Invocation × Outcome) :=
  if sw ≠ swOk then (idle, some (call, .raised sw))
  else
    match next with
    | .finish => (idle, some (call, .returned data))
    | .fail => (idle, some (call, .indexError))
    | .send idx msg msgs => (ready call idx msg msgs, none)

end Sender

/-- The answer that a step shows. -/
def Visible.answered : Visible → Option (List UInt8 × StatusWord)
  | .answer data sw => some (data, sw)
  | _ => none

namespace Sender

def receive : Sender → List Visible → Sender × Option (Invocation × Outcome)
  | awaiting call next, w =>
    match w.findSome? Visible.answered with
    | some (data, sw) => answered call next data sw
    | none => (awaiting call next, none)
  | sender, _ => (sender, none)

section
variable {call : Invocation} {next : Continuation} {data : List UInt8} {sw : StatusWord}

@[simp] theorem receive_idle (w : List Visible) : receive idle w = (idle, none) := rfl

@[simp] theorem receive_ready {idx : Nat} {msg : List UInt8} {msgs : List (List UInt8)} (w : List Visible) :
    receive (ready call idx msg msgs) w = (ready call idx msg msgs, none) := rfl

@[simp] theorem receive_awaiting_nil : receive (awaiting call next) [] = (awaiting call next, none) := rfl

@[simp] theorem receive_awaiting_answer {w : List Visible} :
    receive (awaiting call next) (.answer data sw :: w) = answered call next data sw := rfl

@[simp] theorem receive_awaiting_review {review : Review} {w : List Visible} :
    receive (awaiting call next) (.review review :: w) = receive (awaiting call next) w := rfl

@[simp] theorem receive_awaiting_signed {path : List UInt32} {digest : List UInt8} {w : List Visible} :
    receive (awaiting call next) (.signed path digest :: w) = receive (awaiting call next) w := rfl

theorem answered_raised (hsw : sw ≠ swOk) : answered call next data sw = (idle, some (call, .raised sw)) :=
  if_pos hsw

@[simp] theorem answered_finish : answered call .finish data swOk = (idle, some (call, .returned data)) := rfl

@[simp] theorem answered_fail : answered call .fail data swOk = (idle, some (call, .indexError)) := rfl

@[simp] theorem answered_send {idx : Nat} {msg : List UInt8} {msgs : List (List UInt8)} :
    answered call (.send idx msg msgs) data swOk = (ready call idx msg msgs, none) := rfl

end

end Sender

def commandSender : Client Sender Input Event (List Visible) (Option (Invocation × Outcome)) where
  init := .idle
  issue := Sender.issue
  receive := Sender.receive

/-- The transfer is signed in one piece. -/
def sampleCall : Invocation := .signTx ⟨samplePath, by decide⟩ sampleTransfer.encode

end AppOnt
