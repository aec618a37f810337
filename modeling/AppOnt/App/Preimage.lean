import AppOnt.App.Fresh

/-!
# What is hashed for a message

The digest of a message is the digest of three pieces: the magic, the length of the
message in decimal digits and the message. There is nothing between the last two,
but a longer message has at least as many digits in front of it, so the pieces
together determine the message.
-/
namespace AppOnt

open CryptoSdk Prog

/-- The pieces that are fed to the digest of a message. -/
def messageParts (msg : List UInt8) : List (List UInt8) :=
  [signMagic, (numeral msg.length).take (msgLenMaxChars - 1), msg]

/-- The pieces are fed one after another, and the digest is `hash`. -/
def Feeds [CryptoSdk] (parts : List (List UInt8)) (hash : List UInt8) : Prop :=
  (parts.foldlM cxHashUpdate cxSha256Init).bind cxHashFinal = some hash

/-- The chunk completes a message: its review is started with the context `c`. -/
structure Completes (e : Event) (w : List Observation) (c : Context) : Prop where
  chunk : e.continues = some .confirmMessage
  started : .display c ∈ w

def Observation.isDisplay : Observation → Bool
  | .display _ => true
  | _ => false

theorem Observation.isDisplay_mem {w : List Observation} (h : w.any Observation.isDisplay = true) :
    ∃ c, .display c ∈ w := by
  obtain ⟨o, ho, hd⟩ := List.any_eq_true.mp h
  cases o with
  | display c => exact ⟨c, ho⟩
  | _ => cases hd

/-- A length of a message fits into its field. -/
theorem messageParts_flatten {msg : List UInt8} (hlen : msg.length ≤ maxMessageLen) :
    (messageParts msg).flatten = signMagic ++ (numeral msg.length ++ msg) := by
  have hdigits : (numeral msg.length).length ≤ 7 := by
    rw [length_numeral_le_iff (by decide)]
    have hmax : maxMessageLen = 1024 := rfl
    omega
  simp [messageParts, msgLenMaxChars, List.take_of_length_le hdigits]

theorem messageParts_flatten_inj {msg msg' : List UInt8} (hlen : msg.length ≤ maxMessageLen)
    (hlen' : msg'.length ≤ maxMessageLen) :
    (messageParts msg).flatten = (messageParts msg').flatten ↔ msg = msg' := by
  constructor
  · intro h
    rw [messageParts_flatten hlen, messageParts_flatten hlen'] at h
    exact numeral_length_append_inj (List.append_cancel_left h)
  · rintro rfl
    rfl

theorem messageDigest_eq [CryptoSdk] (msg : List UInt8) :
    messageDigest msg = ((messageParts msg).foldlM cxHashUpdate cxSha256Init).bind cxHashFinal := by
  simp [messageDigest, messageParts, Option.bind_assoc]

section
variable [BufferSdk] [CryptoSdk] [FormatSdk] [CryptoSdk.Documented]

theorem Effect.completes {cfg : Config} {c c' c₀ : Context} {screen screen' : Option Review} {e : Event}
    {w : List Observation} {h : History} (hstep : Effect cfg c screen e w c' screen')
    (hs : Stored .confirmMessage maxMessageLen (Context.msgBytes cfg) h c) (hc : Completes e w c₀) :
    let msg := received .confirmMessage ((e, w) :: h)
    msg ≠ [] ∧ msg.length ≤ maxMessageLen ∧ messageDigest msg = some (c₀.msgHash cfg) := by
  obtain ⟨hchunk, hstarted⟩ := hc
  cases hstep with
  | keep _ hans => rcases hans with rfl | ⟨data, sw, rfl⟩ <;> simp at hstarted
  | pubkey hopens => simp [Event.opens_of_continues hchunk] at hopens
  | txDisplay hchunk' => simp [hchunk] at hchunk'
  | @msgDisplay _ c' hash w screen' _ hreq hfits _ hdigest hc' _ hb =>
    have hrefusal : (Observation.display c' :: w).any Observation.isRefusal = false := hb.any_isRefusal
    rcases List.mem_cons.mp hstarted with heq | hmem
    · cases heq
      obtain ⟨hbytes, hhash⟩ := Context.hashedMsg_spec hfits hdigest hc'
      rw [hbytes, (hs hreq).2] at hhash
      rw [received_of_stored hchunk hrefusal]
      refine ⟨?_, ?_, hhash⟩
      · simp [Event.data_ne_nil hchunk]
      · rw [← (hs hreq).2, List.length_append, Context.msgBytes, Memory.length_read]
        exact hfits
    · exact absurd hmem hb.display_not_mem
  | _ => simp at hstarted

variable [CommandSdk]

/-- What is fed for a completed message, in every run: the pieces of what was received. -/
theorem Completes.feeds {cfg : Config} {beyond : Context → Nat → Except Fault TxParameter} {h : History}
    {s t : App} {e : Event} {w : List Observation} {c : Context}
    (hrun : (app cfg beyond).Run Machine.anyStep h s) (hnext : (app cfg beyond).step e s = some (w, t))
    (hc : Completes e w c) :
    let msg := received .confirmMessage ((e, w) :: h)
    msg ≠ [] ∧ msg.length ≤ maxMessageLen ∧ Feeds (messageParts msg) (c.msgHash cfg) := by
  have hstored : Stored .confirmMessage maxMessageLen (Context.msgBytes cfg) h s.context := by
    refine hrun.induct
      (I := fun h s => Stored .confirmMessage maxMessageLen (Context.msgBytes cfg) h s.context) ?_ ?_
    · intro hc
      cases hc
    · intro h s t e w _ hs _ hnext
      exact hs.msg_step (step_effect cfg beyond hnext).1
  obtain ⟨hne, hlen, hdigest⟩ := (step_effect cfg beyond hnext).1.completes hstored hc
  exact ⟨hne, hlen, (messageDigest_eq _).symm.trans hdigest⟩

/-- For any two messages that are completed, in any two runs, the digest is fed the pieces of the
message, however it came, and the fed bytes are the same exactly where the messages are. -/
theorem preimage_unambiguous (cfg cfg' : Config) (beyond beyond' : Context → Nat → Except Fault TxParameter)
    {h h' : History} {s s' t t' : App} {e e' : Event} {w w' : List Observation} {c c' : Context}
    (hrun : (app cfg beyond).Run Machine.anyStep h s) (hnext : (app cfg beyond).step e s = some (w, t))
    (hc : Completes e w c)
    (hrun' : (app cfg' beyond').Run Machine.anyStep h' s')
    (hnext' : (app cfg' beyond').step e' s' = some (w', t')) (hc' : Completes e' w' c') :
    let msg := received .confirmMessage ((e, w) :: h)
    let msg' := received .confirmMessage ((e', w') :: h')
    Feeds (messageParts msg) (c.msgHash cfg) ∧ Feeds (messageParts msg') (c'.msgHash cfg') ∧
      1 ≤ msg.length ∧ msg.length ≤ maxMessageLen ∧
      ((messageParts msg).flatten = (messageParts msg').flatten ↔ msg = msg') := by
  obtain ⟨hne, hlen, hfeeds⟩ := hc.feeds hrun hnext
  obtain ⟨-, hlen', hfeeds'⟩ := hc'.feeds hrun' hnext'
  exact ⟨hfeeds, hfeeds', List.length_pos_iff.mpr hne, hlen, messageParts_flatten_inj hlen hlen'⟩

end

theorem preimage_unambiguous_sample :
    let := CryptoSdk.reference
    ∃ (h h' : History) (e e' : Event) (w w' : List Observation) (c c' : Context),
      let msg := received .confirmMessage ((e, w) :: h)
      let msg' := received .confirmMessage ((e', w') :: h')
      msg = chars "11" ∧ msg' = chars "1" ∧ Completes e w c ∧ Completes e' w' c' ∧
      Feeds (messageParts msg) (c.msgHash ⟨.nano, .w32⟩) ∧ Feeds (messageParts msg') (c'.msgHash ⟨.nano, .w32⟩) ∧
      1 ≤ msg.length ∧ msg.length ≤ maxMessageLen ∧
      ((messageParts msg).flatten = (messageParts msg').flatten ↔ msg = msg') := by
  let := BufferSdk.reference
  let := CommandSdk.reference
  let := CryptoSdk.reference
  let := FormatSdk.reference
  have := CryptoSdk.reference_documented
  obtain ⟨h, s, w, t, hrun, hnext, hshown, hmsg⟩ := Machine.Run.exists_step_of_exec (M := referenceApp)
    (C := Machine.anyStep) (P := fun h _ w => w.any Observation.isDisplay = true ∧
      received .confirmMessage ((.command 7 2 0 (chars "1"), w) :: h) = chars "11")
    [.command 7 0 0x80 samplePath, .command 7 1 0x80 (chars "1")] (.command 7 2 0 (chars "1"))
    (by decide +kernel)
  obtain ⟨h', s', w', t', hrun', hnext', hshown', hmsg'⟩ := Machine.Run.exists_step_of_exec (M := referenceApp)
    (C := Machine.anyStep) (P := fun h _ w => w.any Observation.isDisplay = true ∧
      received .confirmMessage ((.command 7 1 0 (chars "1"), w) :: h) = chars "1")
    [.command 7 0 0x80 samplePath] (.command 7 1 0 (chars "1")) (by decide +kernel)
  obtain ⟨c, hc⟩ := Observation.isDisplay_mem hshown
  obtain ⟨c', hc'⟩ := Observation.isDisplay_mem hshown'
  have hc : Completes (.command 7 2 0 (chars "1")) w c := ⟨by decide, hc⟩
  have hc' : Completes (.command 7 1 0 (chars "1")) w' c' := ⟨by decide, hc'⟩
  exact ⟨h, h', _, _, w, w', c, c', hmsg, hmsg', hc, hc', preimage_unambiguous ⟨.nano, .w32⟩ ⟨.nano, .w32⟩ _ _
    hrun hnext hc hrun' hnext' hc'⟩

end AppOnt
