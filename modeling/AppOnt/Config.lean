import Mathlib

/-!
# Build configurations and status words

The sources are compiled for two families of devices, which differ in the size
of the parameter array, the longest transaction and some labels, and for two
widths of `size_t`. Arithmetic on `size_t` is on `Nat`, reduced explicitly. The
status words are the same in every build.
-/
namespace AppOnt

/-- `touch` is `TARGET_STAX` or `TARGET_FLEX`, `nano` every other target. -/
inductive Target where
  | nano | touch
  deriving DecidableEq, Repr

inductive SizeT where
  | w32 | w64
  deriving DecidableEq, Repr

structure Config where
  target : Target
  sizeT : SizeT
  deriving DecidableEq, Repr

namespace Config

/-- `PARAMETERS_MAX_NUM` of `tx_types.h`. -/
def parametersMaxNum (cfg : Config) : Nat :=
  match cfg.target with
  | .nano => 90
  | .touch => 150

/-- `MAX_TRANSACTION_LEN` of `constants.h`. -/
def maxTransactionLen (cfg : Config) : Nat :=
  match cfg.target with
  | .nano => 1024 * 4
  | .touch => 1024 * 6 + 700

/-- The number of values of `size_t`. -/
def sizeMod (cfg : Config) : Nat :=
  match cfg.sizeT with
  | .w32 => 2 ^ 32
  | .w64 => 2 ^ 64

/-- `a + b` on `size_t`. -/
def addSize (cfg : Config) (a b : Nat) : Nat := (a + b) % cfg.sizeMod

/-- `a - b` on `size_t`. -/
def subSize (cfg : Config) (a b : Nat) : Nat :=
  (a + (cfg.sizeMod - b % cfg.sizeMod)) % cfg.sizeMod

variable (cfg : Config)

theorem sizeMod_cases : cfg.sizeMod = 4294967296 ∨ cfg.sizeMod = 18446744073709551616 := by
  cases h : cfg.sizeT <;> simp [sizeMod, h]

theorem target_cases :
    (cfg.target = .nano ∧ cfg.parametersMaxNum = 90 ∧ cfg.maxTransactionLen = 4096) ∨
      (cfg.target = .touch ∧ cfg.parametersMaxNum = 150 ∧ cfg.maxTransactionLen = 6844) := by
  cases h : cfg.target <;> simp [parametersMaxNum, maxTransactionLen, h]

theorem addSize_of_lt {a b : Nat} (h : a + b < cfg.sizeMod) : cfg.addSize a b = a + b :=
  Nat.mod_eq_of_lt h

theorem addSize_addSize (a b c : Nat) :
    cfg.addSize (cfg.addSize a b) c = (a + b + c) % cfg.sizeMod := Nat.mod_add_mod ..

theorem subSize_of_le {a b : Nat} (hb : b ≤ a) (ha : a < cfg.sizeMod) :
    cfg.subSize a b = a - b := by
  have hlt : b < cfg.sizeMod := by omega
  rw [subSize, Nat.mod_eq_of_lt hlt, show a + (cfg.sizeMod - b) = a - b + cfg.sizeMod by omega,
    Nat.add_mod_right, Nat.mod_eq_of_lt (by omega)]

/-- A difference that goes below zero wraps around. -/
theorem subSize_of_lt {a b : Nat} (hb : a < b) (h : b < cfg.sizeMod) :
    cfg.subSize a b = cfg.sizeMod - (b - a) := by
  rw [subSize, Nat.mod_eq_of_lt h, Nat.mod_eq_of_lt (by omega)]
  omega

end Config

/-- A status word; those of `sw.h` and the SDK's error codes. -/
abbrev StatusWord := Nat

def swOk : StatusWord := 0x9000
def swDeny : StatusWord := 0x6985
def swWrongP1P2 : StatusWord := 0x6A86
def swWrongDataLength : StatusWord := 0x6A87
def swInsNotSupported : StatusWord := 0x6D00
def swClaNotSupported : StatusWord := 0x6E00
def swDisplayAddressFail : StatusWord := 0xB002
def swWrongTxLength : StatusWord := 0xB004
def swTxParsingFail : StatusWord := 0xB005
def swHashFail : StatusWord := 0xB006
def swBadState : StatusWord := 0xB007
def swSignatureFail : StatusWord := 0xB008
def swPersonalMsgParsingFail : StatusWord := 0xB009
def swInvalidTransaction : StatusWord := 0xB00A
def swInvalidPath : StatusWord := 0xB00B

/-- The status words of the application. -/
def statusWords : List StatusWord :=
  [swOk, swDeny, swWrongP1P2, swWrongDataLength, swInsNotSupported, swClaNotSupported, swDisplayAddressFail,
    swWrongTxLength, swTxParsingFail, swHashFail, swBadState, swSignatureFail, swPersonalMsgParsingFail,
    swInvalidTransaction, swInvalidPath]

end AppOnt
