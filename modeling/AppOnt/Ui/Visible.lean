import AppOnt.Ui.Message
import AppOnt.Ui.Rows

/-!
# What is shown of a message

Every byte of a message is shown as one character or as an escape of four, and
twenty bytes that are not all printable as a number. The text fits into the
buffers in front of the signer, whatever the message. It determines the message
up to whitespace, unless a message spells out an escape or such a number.
-/
namespace AppOnt

open Prog

/-- What a byte of a message is shown as. -/
def renderByte (b : UInt8) : List UInt8 :=
  if isSpace b then [0x20]
  else if isPrint b then [b]
  else chars "\\x" ++ [hexDigit (b.toNat / 16), hexDigit (b.toNat % 16)]

def rendering (msg : List UInt8) : List UInt8 := msg.flatMap renderByte

/-- The messages that are shown as a number. -/
def ShownAsHex (msg : List UInt8) : Prop := msg.length = 20 ∧ msg.any (fun b => !isPrint b) = true

instance (msg : List UInt8) : Decidable (ShownAsHex msg) := inferInstanceAs (Decidable (_ ∧ _))

/-- The text of a message on the screen. -/
def messageText (msg : List UInt8) : List UInt8 :=
  if ShownAsHex msg then chars "0x" ++ hexText msg else rendering msg

/-- `format_hex` writes the digits of the bytes. -/
class FormatSdk.StandardHex [FormatSdk] : Prop where
  formatHex_eq {bs : List UInt8} {dstLen : Nat} : 2 * bs.length < dstLen →
    formatHex bs dstLen = some (hexText bs)

theorem FormatSdk.reference_standardHex : @FormatSdk.StandardHex FormatSdk.reference :=
  @FormatSdk.StandardHex.mk FormatSdk.reference fun h => if_pos h

@[simp] theorem rendering_nil : rendering [] = [] := rfl

@[simp] theorem rendering_cons (b : UInt8) (msg : List UInt8) :
    rendering (b :: msg) = renderByte b ++ rendering msg := rfl

theorem renderByte_escaped {b : UInt8} (hspace : isSpace b = false) (hprint : isPrint b = false) :
    renderByte b = chars "\\x" ++ [hexDigit (b.toNat / 16), hexDigit (b.toNat % 16)] := by
  simp [renderByte, hspace, hprint]

theorem renderByte_plain {b : UInt8} (hprint : isPrint (if isSpace b then 0x20 else b) = true) :
    renderByte b = [if isSpace b then 0x20 else b] := by
  unfold renderByte
  grind

theorem length_renderByte (b : UInt8) : 1 ≤ (renderByte b).length ∧ (renderByte b).length ≤ 4 := by
  have hchars : (chars "\\x").length = 2 := rfl
  unfold renderByte
  grind

theorem length_rendering_le (msg : List UInt8) : (rendering msg).length ≤ 4 * msg.length := by
  induction msg with
  | nil => simp
  | cons b msg ih =>
    have := (length_renderByte b).2
    rw [rendering_cons, List.length_append, List.length_cons]
    omega

/-- The loop stays in its room, and shows all of the message exactly where there is room. -/
theorem visibleFrom_spec {room : Nat} (msg out : List UInt8) (hout : out.length ≤ room) :
    (visibleFrom room msg out).2.length ≤ room + 1 ∧
      ((visibleFrom room msg out).1 = true ↔ (out ++ rendering msg).length ≤ room) ∧
      ((visibleFrom room msg out).1 = true → (visibleFrom room msg out).2 = out ++ rendering msg ++ [0]) := by
  induction msg generalizing out with
  | nil => simp [visibleFrom, hout]
  | cons b msg ih =>
    have hpos := (length_renderByte b).1
    unfold visibleFrom
    by_cases hroom : out.length < room
    · simp only [if_pos hroom]
      by_cases hprint : isPrint (if isSpace b then 0x20 else b) = true
      · rw [if_pos hprint, rendering_cons, renderByte_plain hprint, ← List.append_assoc]
        apply ih
        simpa using hroom
      · have hspace : isSpace b = false := by
          by_contra h
          exact hprint (by simp [h]; decide)
        have hescape := renderByte_escaped hspace (by simpa [hspace] using hprint)
        have hlen : (renderByte b).length = 4 := by rw [hescape]; rfl
        rw [if_neg hprint]
        by_cases hfour : room < out.length + 4
        · rw [if_pos hfour]
          grind [rendering_cons]
        · rw [if_neg hfour, rendering_cons, ← List.append_assoc]
          simp only [hspace, Bool.false_eq_true, if_false]
          rw [List.append_assoc out, ← hescape]
          apply ih
          rw [List.length_append]
          omega
    · rw [if_neg hroom]
      grind [rendering_cons]

section
variable [FormatSdk] [FormatSdk.StandardHex] {msg : List UInt8} {outLen : Nat}

theorem makeMessageVisible_hex (hhex : ShownAsHex msg) (hout : 43 ≤ outLen) :
    makeMessageVisible msg outLen = (true, chars "0x" ++ hexText msg ++ [0]) := by
  obtain ⟨hlen, hany⟩ := hhex
  have hempty : ¬ (msg = [] ∨ outLen = 0) := by
    rintro (rfl | hzero)
    · cases hlen
    · omega
  have hcount : (hexText msg).length + 1 = 41 := by rw [length_hexText, hlen]
  rw [makeMessageVisible, if_neg hempty, if_pos ⟨hlen, hout, hany⟩,
    FormatSdk.StandardHex.formatHex_eq (by omega)]
  simp only [hcount, decide_true]

omit [FormatSdk.StandardHex] in
theorem makeMessageVisible_loop (hne : msg ≠ []) (hout : 1 ≤ outLen)
    (hhex : ¬ (ShownAsHex msg ∧ 43 ≤ outLen)) :
    makeMessageVisible msg outLen = visibleFrom (outLen - 1) msg [] := by
  have hempty : ¬ (msg = [] ∨ outLen = 0) := by
    rintro (h | h)
    · exact hne h
    · omega
  rw [makeMessageVisible, if_neg hempty, if_neg]
  rintro ⟨hlen, hroom, hany⟩
  exact hhex ⟨⟨hlen, hany⟩, hroom⟩

theorem makeMessageVisible_length_le (hne : msg ≠ []) (hout : 1 ≤ outLen) :
    (makeMessageVisible msg outLen).2.length ≤ outLen := by
  by_cases hhex : ShownAsHex msg ∧ 43 ≤ outLen
  · have hchars : (chars "0x").length = 2 := rfl
    have hcount : (hexText msg).length = 40 := by rw [length_hexText, hhex.1.1]
    rw [makeMessageVisible_hex hhex.1 hhex.2]
    simp only [List.length_append, hchars, hcount, List.length_singleton]
    exact hhex.2
  · rw [makeMessageVisible_loop hne hout hhex]
    have hlen := (visibleFrom_spec msg [] (Nat.zero_le (outLen - 1))).1
    omega

omit [FormatSdk.StandardHex] in
theorem makeMessageVisible_rendering (hne : msg ≠ []) (hout : 1 ≤ outLen)
    (hhex : ¬ (ShownAsHex msg ∧ 43 ≤ outLen)) :
    ((makeMessageVisible msg outLen).1 = true ↔ (rendering msg).length ≤ outLen - 1) ∧
      ((makeMessageVisible msg outLen).1 = true →
        (makeMessageVisible msg outLen).2 = rendering msg ++ [0]) := by
  rw [makeMessageVisible_loop hne hout hhex]
  exact (visibleFrom_spec msg [] (Nat.zero_le (outLen - 1))).2

/-- A buffer of four bytes for each of the message, and of 43, holds what is shown. -/
theorem makeMessageVisible_eq (hne : msg ≠ []) (hroom : 4 * msg.length < outLen) (hout : 43 ≤ outLen) :
    makeMessageVisible msg outLen = (true, messageText msg ++ [0]) := by
  unfold messageText
  split
  · rename_i hhex
    exact makeMessageVisible_hex hhex hout
  · rename_i hhex
    have hpos : 1 ≤ outLen := by omega
    obtain ⟨hiff, htext⟩ := makeMessageVisible_rendering hne hpos fun h => hhex h.1
    have hle := length_rendering_le msg
    have hok := hiff.mpr (by omega)
    exact Prod.ext hok (htext hok)

end

/-- The digits are printable characters other than a backslash, and different from each other. -/
theorem hexDigit_spec : ∀ d < 16, hexDigit d ≠ 0 ∧ hexDigit d ≠ 0x5c ∧ isSpace (hexDigit d) = false ∧
    ∀ d' < 16, hexDigit d = hexDigit d' → d = d' := by
  decide

theorem byte_digits (b : UInt8) : b.toNat / 16 < 16 ∧ b.toNat % 16 < 16 := by
  have := b.toNat_lt
  omega

theorem zero_not_mem_hexText (msg : List UInt8) : (0 : UInt8) ∉ hexText msg := by
  intro hmem
  obtain ⟨b, -, hb⟩ := List.mem_flatMap.mp hmem
  obtain ⟨hhigh, hlow⟩ := byte_digits b
  simp only [List.mem_cons, List.not_mem_nil, or_false] at hb
  rcases hb with hb | hb
  · exact (hexDigit_spec _ hhigh).1 hb.symm
  · exact (hexDigit_spec _ hlow).1 hb.symm

theorem zero_not_mem_renderByte (b : UInt8) : (0 : UInt8) ∉ renderByte b := by
  unfold renderByte
  split
  · decide
  · split
    · rename_i hprint
      intro hmem
      rw [← List.mem_singleton.mp hmem] at hprint
      cases hprint
    · intro hmem
      rcases List.mem_append.mp hmem with hmem | hmem
      · revert hmem
        decide
      · have hdigits : hexText [b] = [hexDigit (b.toNat / 16), hexDigit (b.toNat % 16)] := rfl
        exact zero_not_mem_hexText [b] (hdigits ▸ hmem)

theorem zero_not_mem_messageText (msg : List UInt8) : (0 : UInt8) ∉ messageText msg := by
  unfold messageText
  split
  · intro hmem
    rcases List.mem_append.mp hmem with hmem | hmem
    · revert hmem
      decide
    · exact zero_not_mem_hexText msg hmem
  · intro hmem
    obtain ⟨b, -, hb⟩ := List.mem_flatMap.mp hmem
    exact zero_not_mem_renderByte b hb

/-- The review of a message: the whole of it, and the address of the signer. -/
structure ShowsMessage (cfg : Config) (msg signer : List UInt8) (d : Display) : Prop where
  nbPairs_eq : d.nbPairs = 2
  text_row : d.pairs 0 = ⟨.literal nbglMsg, .buffer 0⟩
  text : d.buffers.IsString 0 (messageText msg)
  signer_row : d.pairs 1 = ⟨.literal itemSigner, .buffer cfg.signerPos⟩
  signer : d.buffers.IsString cfg.signerPos signer

section
variable [CryptoSdk] [FormatSdk] [FormatSdk.StandardHex]

theorem displayMessage_ensures (cfg : Config) {msg : List UInt8} (hne : msg ≠ [])
    (hlen : msg.length ≤ maxMessageLen) (path : List UInt32) (d : Display) :
    Ensures (displayMessage cfg msg path) d fun drawn d' =>
      (∃ signer, signerText maxBufferLen path = some signer ∧ drawn = .review ∧
        ShowsMessage cfg msg signer d') ∨
      (signerText maxBufferLen path = none ∧ drawn = .sw swDisplayAddressFail) := by
  have hmax : maxMessageLen = 1024 := rfl
  have hbuffer : maxBufferLen = 67 := rfl
  have hparams : 90 ≤ cfg.parametersMaxNum := by
    have := cfg.target_cases
    omega
  have hsize : cfg.numPairs * maxBufferLen = (cfg.parametersMaxNum + 2) * 67 := rfl
  have hpos : cfg.numPairs * maxBufferLen - maxBufferLen = cfg.signerPos := by
    rw [hsize, hbuffer, Config.signerPos, hbuffer]
    omega
  have hroom : 4 * msg.length < cfg.signerPos := by
    rw [Config.signerPos, hbuffer]
    omega
  have hfit : cfg.signerPos + maxBufferLen = cfg.numPairs * maxBufferLen := by
    rw [hsize, Config.signerPos, hbuffer]
    omega
  have hlarge : 43 ≤ cfg.signerPos := by
    rw [Config.signerPos, hbuffer]
    omega
  rw [displayMessage, ensures_bind, ensures_modify]
  simp only [hpos, deriveAddress_eq (show base58AddressLen ≤ maxBufferLen by decide), ensures_bind,
    ensures_store]
  cases hsigner : signerText maxBufferLen path with
  | none =>
    simp only [Option.isSome_none, Option.getD_none, List.length_nil, Bool.false_eq_true, if_false,
      ensures_pure]
    exact ⟨by omega, by omega, .inr ⟨trivial, trivial⟩⟩
  | some signer =>
    obtain ⟨hsignerLen, hzero⟩ := signerText_spec (by decide) hsigner
    have htext := makeMessageVisible_eq hne hroom hlarge
    have hbound : (messageText msg ++ [0]).length ≤ cfg.signerPos := by
      have hle := makeMessageVisible_length_le hne (show 1 ≤ cfg.signerPos by omega)
      rwa [htext] at hle
    simp only [Option.isSome_some, Option.getD_some, if_true, htext, ensures_bind, ensures_store,
      ensures_appendPair, ensures_pure]
    have hpairs : 92 ≤ cfg.numPairs := by
      rw [Config.numPairs]
      omega
    have hzeros : Display.zero.nbPairs = 0 := rfl
    have hsignerText : (Display.zero.buffers.write cfg.signerPos signer).IsString cfg.signerPos signer :=
      Memory.isString_write hzero rfl
    refine ⟨by omega, by omega, hbound, by omega, by omega, by omega, by omega, by omega,
      .inl ⟨signer, rfl, trivial, rfl, rfl, ?_, rfl, ?_⟩⟩
    · exact (Memory.write_holds _ 0 (messageText msg)).isString (zero_not_mem_messageText msg)
    · -- the message ends before the signer starts
      exact hsignerText.of_agreeOff (Memory.write_agreeOff _ 0 _) (.inr (by omega))

/-- What `make_message_visible` writes stays in its buffer, is the digits of a message shown as a
number, and else all of the message or a failure; so every message is shown whole, and the signer
next to it. -/
theorem message_shown (cfg : Config) (msg : List UInt8) (hne : msg ≠ []) :
    (∀ outLen, 1 ≤ outLen → (makeMessageVisible msg outLen).2.length ≤ outLen ∧
      (ShownAsHex msg → 43 ≤ outLen →
        makeMessageVisible msg outLen = (true, chars "0x" ++ hexText msg ++ [0])) ∧
      (¬ (ShownAsHex msg ∧ 43 ≤ outLen) →
        ((makeMessageVisible msg outLen).1 = true ↔ (rendering msg).length ≤ outLen - 1) ∧
          ((makeMessageVisible msg outLen).1 = true →
            (makeMessageVisible msg outLen).2 = rendering msg ++ [0]))) ∧
    (msg.length ≤ maxMessageLen → ∀ path d, ∃ drawn d', (displayMessage cfg msg path).run d = .ok (drawn, d') ∧
      ((∃ signer, signerText maxBufferLen path = some signer ∧ drawn = .review ∧
          ShowsMessage cfg msg signer d') ∨
        (signerText maxBufferLen path = none ∧ drawn = .sw swDisplayAddressFail))) := by
  constructor
  · intro outLen hout
    refine ⟨makeMessageVisible_length_le hne hout, ?_, ?_⟩
    · intro hhex hroom
      exact makeMessageVisible_hex hhex hroom
    · intro hhex
      exact makeMessageVisible_rendering hne hout hhex
  · intro hlen path d
    exact displayMessage_ensures cfg hne hlen path d

end

/-- A tab and a byte that is not printable. -/
theorem message_shown_sample :
    let := CryptoSdk.reference
    let := FormatSdk.reference
    makeMessageVisible [0x41, 0x09, 0xff] 7 = (true, chars "A \\xFF" ++ [0]) ∧
      ∃ d signer, ShowsMessage ⟨.nano, .w32⟩ [0x41, 0x09, 0xff] signer d := by
  let := CryptoSdk.reference
  let := FormatSdk.reference
  have := FormatSdk.reference_standardHex
  obtain ⟨hvisible, hdisplay⟩ := message_shown ⟨.nano, .w32⟩ [0x41, 0x09, 0xff] (by simp)
  constructor
  · obtain ⟨-, -, hloop⟩ := hvisible 7 (by decide)
    obtain ⟨hiff, htext⟩ := hloop (by decide)
    have hok := hiff.mpr (by decide)
    exact Prod.ext hok (htext hok)
  · obtain ⟨drawn, d, -, hshown⟩ := hdisplay (by decide) [] .zero
    rcases hshown with ⟨signer, -, -, hshown⟩ | ⟨hnone, -⟩
    · exact ⟨d, signer, hshown⟩
    · have hsome := signerText_reference []
      rw [hnone] at hsome
      cases hsome

/-- A byte with whitespace replaced by a space. -/
def spaced (b : UInt8) : UInt8 := if isSpace b then 0x20 else b

/-- A message spells out an escape if it contains the four characters that a byte is shown as. -/
def SpellsEscape (msg : List UInt8) : Prop :=
  ∃ b, isSpace b = false ∧ isPrint b = false ∧ renderByte b <:+: msg

theorem SpellsEscape.cons {msg : List UInt8} (h : SpellsEscape msg) (b : UInt8) : SpellsEscape (b :: msg) := by
  obtain ⟨c, hspace, hprint, hin⟩ := h
  exact ⟨c, hspace, hprint, hin.trans (List.suffix_cons b msg).isInfix⟩

theorem renderByte_cases (b : UInt8) : renderByte b = [spaced b] ∨
    (isSpace b = false ∧ isPrint b = false ∧
      renderByte b = [0x5c, 0x78, hexDigit (b.toNat / 16), hexDigit (b.toNat % 16)]) := by
  have hchars : chars "\\x" = [0x5c, 0x78] := rfl
  unfold renderByte spaced
  grind

/-- A character that starts no escape and is no space comes from a byte that is shown as it is. -/
theorem rendering_uncons {c : UInt8} {v r : List UInt8} (hescape : c ≠ 0x5c) (hspace : isSpace c = false)
    (h : rendering v = c :: r) : ∃ v', v = c :: v' ∧ rendering v' = r := by
  cases v with
  | nil => cases h
  | cons b v =>
    rw [rendering_cons] at h
    rcases renderByte_cases b with hplain | ⟨-, -, hescaped⟩
    · rw [hplain] at h
      obtain ⟨hc, hr⟩ := List.cons.inj h
      have hb : b = c := by
        have htwenty : isSpace 0x20 = true := rfl
        unfold spaced at hc
        grind
      exact ⟨v, by rw [hb], hr⟩
    · rw [hescaped] at h
      exact absurd (List.cons.inj h).1.symm hescape

/-- A text that starts with an escape is of a message that starts with the byte, or spells it out. -/
theorem rendering_escape {b c : UInt8} {v r : List UInt8} (hspace : isSpace b = false)
    (hprint : isPrint b = false) (hspells : ¬ SpellsEscape (c :: v))
    (h : renderByte c ++ rendering v = renderByte b ++ r) : c = b ∧ rendering v = r := by
  have hescaped : renderByte b = [0x5c, 0x78, hexDigit (b.toNat / 16), hexDigit (b.toNat % 16)] :=
    renderByte_escaped hspace hprint
  obtain ⟨hhigh, hlow⟩ := byte_digits b
  obtain ⟨-, hh₁, hh₂, hinj⟩ := hexDigit_spec _ hhigh
  obtain ⟨-, hl₁, hl₂, hinj'⟩ := hexDigit_spec _ hlow
  rw [hescaped] at h
  rcases renderByte_cases c with hplain | ⟨-, -, hc⟩
  · exfalso
    rw [hplain] at h
    obtain ⟨hback, hrest⟩ := List.cons.inj h
    obtain ⟨v₁, hv₁, h₁⟩ := rendering_uncons (by decide) (by decide) hrest
    obtain ⟨v₂, hv₂, h₂⟩ := rendering_uncons hh₁ hh₂ h₁
    obtain ⟨v₃, hv₃, -⟩ := rendering_uncons hl₁ hl₂ h₂
    have hc : c = 0x5c := by
      unfold spaced at hback
      grind
    apply hspells
    refine ⟨b, hspace, hprint, [], v₃, ?_⟩
    rw [hescaped, hc, hv₁, hv₂, hv₃]
    rfl
  · rw [hc] at h
    simp only [List.cons_append, List.nil_append, List.cons.injEq, true_and] at h
    obtain ⟨heq, heq', hrest⟩ := h
    obtain ⟨hhigh', hlow'⟩ := byte_digits c
    have := hinj _ hhigh' heq.symm
    have := hinj' _ hlow' heq'.symm
    exact ⟨UInt8.toNat_inj.mp (by omega), hrest⟩

theorem rendering_inj {u v : List UInt8} (hu : ¬ SpellsEscape u) (hv : ¬ SpellsEscape v)
    (h : rendering u = rendering v) : u.map spaced = v.map spaced := by
  induction u generalizing v with
  | nil =>
    cases v with
    | nil => rfl
    | cons c v =>
      have hpos := (length_renderByte c).1
      have hlen := congrArg List.length h
      simp only [rendering_nil, rendering_cons, List.length_nil, List.length_append] at hlen
      omega
  | cons b u ih =>
    cases v with
    | nil =>
      have hpos := (length_renderByte b).1
      have hlen := congrArg List.length h
      simp only [rendering_nil, rendering_cons, List.length_nil, List.length_append] at hlen
      omega
    | cons c v =>
      have hu' : ¬ SpellsEscape u := fun hs => hu (hs.cons b)
      have hv' : ¬ SpellsEscape v := fun hs => hv (hs.cons c)
      rw [rendering_cons, rendering_cons] at h
      rcases renderByte_cases b with hb | ⟨hspace, hprint, -⟩
      · rcases renderByte_cases c with hc | ⟨hspace, hprint, -⟩
        · rw [hb, hc] at h
          obtain ⟨hhead, htail⟩ := List.cons.inj h
          rw [List.map_cons, List.map_cons, hhead, ih hu' hv' htail]
        · obtain ⟨heq, htail⟩ := rendering_escape hspace hprint hu h
          rw [List.map_cons, List.map_cons, heq, ih hu' hv' htail]
      · obtain ⟨heq, htail⟩ := rendering_escape hspace hprint hv h.symm
        rw [List.map_cons, List.map_cons, heq, ih hu' hv' htail.symm]

theorem hexText_inj {u v : List UInt8} (h : hexText u = hexText v) : u = v := by
  induction u generalizing v with
  | nil =>
    cases v with
    | nil => rfl
    | cons c v => cases h
  | cons b u ih =>
    cases v with
    | nil => cases h
    | cons c v =>
      obtain ⟨hb, hb'⟩ := byte_digits b
      obtain ⟨hc, hc'⟩ := byte_digits c
      change hexDigit _ :: hexDigit _ :: hexText u = hexDigit _ :: hexDigit _ :: hexText v at h
      simp only [List.cons.injEq] at h
      obtain ⟨hhigh, hlow, htail⟩ := h
      have := (hexDigit_spec _ hb).2.2.2 _ hc hhigh
      have := (hexDigit_spec _ hb').2.2.2 _ hc' hlow
      have heq : b = c := UInt8.toNat_inj.mp (by omega)
      rw [heq, ih htail]

section
variable [FormatSdk] [FormatSdk.StandardHex]

/-- What is shown determines the message up to whitespace, among the messages that are shown as a
number, and among the others that spell out no escape. -/
theorem shown_determines (msg msg' out : List UInt8) (outLen : Nat) (hroom : 43 ≤ outLen)
    (hshown : makeMessageVisible msg outLen = (true, out))
    (hshown' : makeMessageVisible msg' outLen = (true, out))
    (hform : (ShownAsHex msg ∧ ShownAsHex msg') ∨
      (¬ ShownAsHex msg ∧ ¬ ShownAsHex msg' ∧ ¬ SpellsEscape msg ∧ ¬ SpellsEscape msg')) :
    msg.length = msg'.length ∧ msg.map spaced = msg'.map spaced := by
  have hmap : msg.map spaced = msg'.map spaced := by
    have hnonempty {m : List UInt8} (h : makeMessageVisible m outLen = (true, out)) : m ≠ [] := by
      rintro rfl
      cases h
    rcases hform with ⟨hhex, hhex'⟩ | ⟨hhex, hhex', hspells, hspells'⟩
    · rw [makeMessageVisible_hex hhex hroom] at hshown
      rw [makeMessageVisible_hex hhex' hroom] at hshown'
      have htext := (Prod.mk.inj (hshown.trans hshown'.symm)).2
      rw [hexText_inj (List.append_cancel_left (List.append_cancel_right htext))]
    · have htext {m : List UInt8} (hm : ¬ ShownAsHex m) (h : makeMessageVisible m outLen = (true, out)) :
          out = rendering m ++ [0] := by
        have hloop := (makeMessageVisible_rendering (hnonempty h) (show 1 ≤ outLen by omega)
          fun hand => hm hand.1).2
        rw [h] at hloop
        exact hloop rfl
      apply rendering_inj hspells hspells'
      exact List.append_cancel_right ((htext hhex hshown).symm.trans (htext hhex' hshown'))
  constructor
  · have hlen := congrArg List.length hmap
    rwa [List.length_map, List.length_map] at hlen
  · exact hmap

end

theorem shown_determines_sample :
    let := FormatSdk.reference
    makeMessageVisible [0x61, 0x09] 6097 = makeMessageVisible [0x61, 0x20] 6097 ∧
      [0x61, 0x09].map spaced = [0x61, 0x20].map spaced := by
  let := FormatSdk.reference
  have := FormatSdk.reference_standardHex
  have hplain (msg : List UInt8) (hmsg : (0x5c : UInt8) ∉ msg) : ¬ SpellsEscape msg := by
    rintro ⟨b, hspace, hprint, hin⟩
    rw [renderByte_escaped hspace hprint] at hin
    exact hmsg (hin.subset List.mem_cons_self)
  exact ⟨rfl, (shown_determines [0x61, 0x09] [0x61, 0x20] (chars "a " ++ [0]) 6097 (by decide) rfl rfl
    (.inr ⟨by decide, by decide, hplain _ (by decide), hplain _ (by decide)⟩)).2⟩

/-- A byte that is not printable and the four characters of its escape, and twenty zeros and the
characters of their number. -/
theorem spelledOut_shownAlike :
    let := FormatSdk.reference
    (∃ out, makeMessageVisible [0x01] 6097 = (true, out) ∧
      makeMessageVisible (chars "\\x01") 6097 = (true, out)) ∧
    (∃ out, makeMessageVisible (List.replicate 20 0) 6097 = (true, out) ∧
      makeMessageVisible (chars "0x0000000000000000000000000000000000000000") 6097 = (true, out)) ∧
    [0x01].map spaced ≠ (chars "\\x01").map spaced ∧
    (List.replicate 20 0).map spaced ≠
      (chars "0x0000000000000000000000000000000000000000").map spaced := by
  refine ⟨⟨_, rfl, rfl⟩, ⟨_, rfl, rfl⟩, ?_, ?_⟩ <;> decide

end AppOnt
