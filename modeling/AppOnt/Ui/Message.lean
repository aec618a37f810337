import AppOnt.Ui.Display

/-!
# Building the review of a message

`make_message_visible` returns its result with the bytes that it writes to
`out`, the closing NUL included. The text is written in front of the signer's
address, which is at the end of the same buffers.
-/
namespace AppOnt

def maxMessageLen : Nat := 1024

/-- `isspace` and `isprint` of the C locale. -/
def isSpace (c : UInt8) : Bool := c == 0x20 || (0x09 ≤ c && c ≤ 0x0d)
def isPrint (c : UInt8) : Bool := 0x20 ≤ c && c ≤ 0x7e

/-- The loop over the message, with `room` bytes before the NUL and `out` already written. -/
def visibleFrom (room : Nat) : List UInt8 → List UInt8 → Bool × List UInt8
  | [], out => (true, out ++ [0])
  | b :: msg, out =>
    if out.length < room then
      let c := if isSpace b then 0x20 else b
      if isPrint c then
        visibleFrom room msg (out ++ [c])
      else if room < out.length + 4 then
        (false, out ++ [0])
      else
        visibleFrom room msg (out ++ chars "\\x" ++ [hexDigit (c.toNat / 16), hexDigit (c.toNat % 16)])
    else
      (false, out ++ [0])

variable [FormatSdk]

/-- Twenty bytes that are not all printable are shown as a number. -/
def makeMessageVisible (msg : List UInt8) (outLen : Nat) : Bool × List UInt8 :=
  if msg = [] ∨ outLen = 0 then (false, [])
  else if msg.length = 20 ∧ 43 ≤ outLen ∧ msg.any (fun b => !isPrint b) then
    match FormatSdk.formatHex msg 41 with
    | some text => (decide (text.length + 1 = 41), chars "0x" ++ text ++ [0])
    | none => (false, chars "0x")
  else visibleFrom (outLen - 1) msg []

variable [CryptoSdk] (cfg : Config)

/-- `ui_display_message` after the check of the state, with the message and the path of the global
context. -/
def displayMessage (msg : List UInt8) (bip32Path : List UInt32) : DisplayM Drawn := do
  modify fun _ => .zero
  let pos := cfg.numPairs * maxBufferLen - maxBufferLen
  let (ok, text) := deriveAddressFromBip32Path bip32Path maxBufferLen
  store cfg pos maxBufferLen text
  if ok then
    let (ok, text) := makeMessageVisible msg pos
    store cfg 0 pos text
    if ok then
      appendPair cfg ⟨.literal nbglMsg, .buffer 0⟩
      appendPair cfg ⟨.literal itemSigner, .buffer cfg.signerPos⟩
      return .review
    else
      return .sw swPersonalMsgParsingFail
  else
    return .sw swDisplayAddressFail

end AppOnt
