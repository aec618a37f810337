import AppOnt.Transaction.Types

/-!
# Registered contracts

The table of `contract.c`. A signature is the list of the parameter types before
its terminator `PARAM_END`.
-/
namespace AppOnt

def ontTicker : String := "ONT"
def ongTicker : String := "ONG"
def ontDecimals : Nat := 0
def ongDecimals : Nat := 9

def ontAddr : List UInt8 := List.replicate 19 0 ++ [0x01]
def ongAddr : List UInt8 := List.replicate 19 0 ++ [0x02]
def govAddr : List UInt8 := List.replicate 19 0 ++ [0x07]
def wingAddr : List UInt8 :=
  [0x80, 0xef, 0x58, 0x6e, 0xf5, 0xff, 0xf2, 0xb1, 0xea, 0x83,
   0x78, 0x39, 0xd6, 0x62, 0xa5, 0x27, 0xcd, 0x9f, 0xc5, 0x00]
def stontAddr : List UInt8 :=
  [0xcd, 0x84, 0x1f, 0xf2, 0x17, 0xc6, 0x8d, 0xc2, 0xfa, 0xf8,
   0x10, 0x63, 0x68, 0xc5, 0x57, 0x7b, 0x12, 0x04, 0xec, 0xe9]
def mblAddr : List UInt8 :=
  [0x6d, 0x03, 0xa1, 0x68, 0x43, 0xe6, 0x1e, 0x5d, 0x96, 0xd3,
   0x89, 0xe1, 0x78, 0x71, 0x7e, 0xd5, 0x7f, 0x9d, 0xa4, 0xe5]

def methodTransfer : String := "transfer"
def methodTransferFrom : String := "transferFrom"
def methodApprove : String := "approve"
def methodTransferV2 : String := "transferV2"
def methodTransferFromV2 : String := "transferFromV2"
def methodApproveV2 : String := "approveV2"
def methodRegisterCandidate : String := "registerCandidate"
def methodQuitNode : String := "quitNode"
def methodAddInitPos : String := "addInitPos"
def methodReduceInitPos : String := "reduceInitPos"
def methodChangeMaxAuth : String := "changeMaxAuthorization"
def methodSetFeePercentage : String := "setFeePercentage"
def methodAuthorizeForPeer : String := "authorizeForPeer"
def methodUnauthorizeForPeer : String := "unAuthorizeForPeer"
def methodWithdraw : String := "withdraw"
def methodWithdrawFee : String := "withdrawFee"

structure TxMethodSignature where
  name : String
  parameters : List TxParameterType
  deriving DecidableEq, Repr

structure Payload where
  tokenDecimals : Nat
  ticker : String
  contractAddr : List UInt8
  methods : List TxMethodSignature
  deriving DecidableEq, Repr

def getNativeTokenMethods : List TxMethodSignature :=
  let transferParams := [.transferStateList]
  let transferFromParams := [.addr, .transferState]
  let approveParams := [.addr, .addr, .amount]
  [⟨methodTransfer, transferParams⟩,
   ⟨methodTransferFrom, transferFromParams⟩,
   ⟨methodApprove, approveParams⟩,
   ⟨methodTransferV2, transferParams⟩,
   ⟨methodTransferFromV2, transferFromParams⟩,
   ⟨methodApproveV2, approveParams⟩]

def getNeovmOep4TokenMethods : List TxMethodSignature :=
  let transferApproveParams := [.amount, .addr, .addr]
  let transferFromParams := [.amount, .addr, .addr, .addr]
  [⟨methodTransfer, transferApproveParams⟩,
   ⟨methodTransferFrom, transferFromParams⟩,
   ⟨methodApprove, transferApproveParams⟩]

def getWasmvmOep4TokenMethods : List TxMethodSignature :=
  let transferApproveParams := [.addr, .addr, .uint128]
  let transferFromParams := [.addr, .addr, .addr, .uint128]
  [⟨methodTransfer, transferApproveParams⟩,
   ⟨methodTransferFrom, transferFromParams⟩,
   ⟨methodApprove, transferApproveParams⟩]

def getNativeGovernanceMethods : List TxMethodSignature :=
  let registerParams := [.pubkey, .addr, .amount, .ontid, .amount]
  let quitParams := [.pubkey, .addr]
  let addInitParams := [.pubkey, .addr, .amount]
  let reduceInitParams := [.pubkey, .addr, .amount]
  let changeMaxParams := [.pubkey, .addr, .amount]
  let setFeeParams := [.pubkey, .addr, .amount, .amount]
  let authParams := [.addr, .pkAmountPairs]
  let withdrawParams := [.addr, .pkAmountPairs]
  let withdrawFeeParams := [.addr]
  [⟨methodRegisterCandidate, registerParams⟩,
   ⟨methodQuitNode, quitParams⟩,
   ⟨methodAddInitPos, addInitParams⟩,
   ⟨methodReduceInitPos, reduceInitParams⟩,
   ⟨methodChangeMaxAuth, changeMaxParams⟩,
   ⟨methodSetFeePercentage, setFeeParams⟩,
   ⟨methodAuthorizeForPeer, authParams⟩,
   ⟨methodUnauthorizeForPeer, authParams⟩,
   ⟨methodWithdraw, withdrawParams⟩,
   ⟨methodWithdrawFee, withdrawFeeParams⟩]

/-- The governance entry carries the ticker and decimals of the token it operates on. -/
def getTxPayload : List Payload :=
  [⟨ontDecimals, ontTicker, ontAddr, getNativeTokenMethods⟩,
   ⟨ongDecimals, ongTicker, ongAddr, getNativeTokenMethods⟩,
   ⟨ontDecimals, ontTicker, govAddr, getNativeGovernanceMethods⟩,
   ⟨9, "WING", wingAddr, getNeovmOep4TokenMethods⟩,
   ⟨9, "stONT", stontAddr, getWasmvmOep4TokenMethods⟩,
   ⟨8, "MBL", mblAddr, getNeovmOep4TokenMethods⟩]

/-- In a list without repetition of a key, the first entry with a key is the only one. -/
theorem find?_key_eq_some {α κ : Type} [DecidableEq κ] {key : α → κ} {l : List α}
    (hl : (l.map key).Nodup) {k : κ} {x : α} :
    (l.find? fun y => decide (key y = k)) = some x ↔ x ∈ l ∧ key x = k := by
  constructor
  · intro h
    exact ⟨List.mem_of_find?_eq_some h, by simpa using List.find?_some h⟩
  · rintro ⟨hx, hk⟩
    obtain ⟨y, hy⟩ : ∃ y, (l.find? fun y => decide (key y = k)) = some y := by
      rw [← Option.isSome_iff_exists, List.find?_isSome]
      exact ⟨x, hx, by simpa using hk⟩
    have hyk : key y = k := by simpa using List.find?_some hy
    have := List.inj_on_of_nodup_map hl (List.mem_of_find?_eq_some hy) hx (hyk.trans hk.symm)
    rw [hy, this]

theorem nodup_contractAddr : (getTxPayload.map (·.contractAddr)).Nodup := by decide

theorem nodup_methodName : ∀ p ∈ getTxPayload, (p.methods.map fun m => chars m.name).Nodup := by
  decide

end AppOnt
