import AppOnt.Transaction.Types
import AppOnt.Transaction.Contract
import AppOnt.Transaction.Utils

/-!
# Row configurations

The labels of `ui/types.h` and the table of `tx_init.c`: for each method the
titles of its review and, for its parameters in order, the label of the row and
the row's position. The table is independent of the signatures in `contract.c`.
-/
namespace AppOnt

def itemFrom : String := "From"
def itemTo : String := "To"
def itemAmount : String := "Amount"
def itemSpender : String := "Spender"
def itemGasFee : String := "Gas Fee"
def itemSigner : String := "Signer"
def itemContractAddress : String := "Contract Address"
def percentage : String := "%"
def nbglMsg : String := "Message"
def withdrawAmount : String := "Withdraw Amount"
def stakeAmount : String := "Stake Amount"
def unstakeAmount : String := "Unstake Amount"
def totalPlus : String := "Total "
def stakeFee : String := "Staking Fee"
def stakeFeeOng : String := "500 ONG"
def maxAuthorize : String := "Allowed User Stake"
def stakeAddress : String := "Stake Address"
def blindSignTx : String := "Blind Signing Transaction"
def blindSigning : String := "Transaction cannot be verified!"

namespace Config

variable (cfg : Config)

/-- The labels that are shorter without `SCREEN_SIZE_WALLET`. -/
def peerPubkey : String :=
  match cfg.target with
  | .touch => "Node Operation Public Key"
  | .nano => "Node OP. PK"

def peerIncentive : String :=
  match cfg.target with
  | .touch => "Incentive Sharing Ratio (Node)"
  | .nano => "Node INCTV. Ratio"

def userIncentive : String :=
  match cfg.target with
  | .touch => "Incentive Sharing Ratio (User)"
  | .nano => "User INCTV. Ratio"

def nodeAmount : String :=
  match cfg.target with
  | .touch => "Number of Remaining Nodes"
  | .nano => "Remaining Nodes"

end Config

/-- `param_config_t`. -/
structure ParamConfig where
  item : String
  pos : Nat
  deriving DecidableEq, Repr

/-- `method_display_t`; `config_count` is the length of `configs`. -/
structure MethodDisplay where
  title : String
  finishTitle : String
  configs : List ParamConfig
  deriving DecidableEq, Repr

/-- The rows of a transfer or an approval, which a NEOVM contract takes in the reverse order. -/
def transferConfigs (type : TxContractType) : List ParamConfig :=
  if type ≠ .neovm then [⟨itemFrom, 0⟩, ⟨itemTo, 2⟩, ⟨itemAmount, 1⟩]
  else [⟨itemAmount, 1⟩, ⟨itemTo, 2⟩, ⟨itemFrom, 0⟩]

def transferFromConfigs (type : TxContractType) : List ParamConfig :=
  if type ≠ .neovm then [⟨itemSpender, 0⟩, ⟨itemFrom, 1⟩, ⟨itemTo, 3⟩, ⟨itemAmount, 2⟩]
  else [⟨itemAmount, 2⟩, ⟨itemTo, 3⟩, ⟨itemFrom, 1⟩, ⟨itemSpender, 0⟩]

/-- A node and its owner, and what the method sets for it. -/
def nodeConfigs (cfg : Config) (more : List ParamConfig) : List ParamConfig :=
  ⟨cfg.peerPubkey, 1⟩ :: ⟨stakeAddress, 0⟩ :: more

/-- The branches of `init_dipslay_pos_and_item`, in their order. -/
def methodDisplays (cfg : Config) (type : TxContractType) : List (String × MethodDisplay) :=
  [(methodTransfer, ⟨"Review transaction to send token", "Sign transaction to send token?",
      transferConfigs type⟩),
   (methodTransferV2, ⟨"Review transaction to send token", "Sign transaction to send token?",
      [⟨itemFrom, 0⟩, ⟨itemTo, 2⟩, ⟨itemAmount, 1⟩]⟩),
   (methodTransferFrom, ⟨"Review transaction to transfer from others",
      "Sign transaction to transfer from others?", transferFromConfigs type⟩),
   (methodTransferFromV2, ⟨"Review transaction to transfer from others",
      "Sign transaction to transfer from others?",
      [⟨itemSpender, 0⟩, ⟨itemFrom, 1⟩, ⟨itemTo, 3⟩, ⟨itemAmount, 2⟩]⟩),
   (methodApprove, ⟨"Review transaction to approve", "Sign transaction to approve?",
      transferConfigs type⟩),
   (methodApproveV2, ⟨"Review transaction to approve", "Sign transaction to approve?",
      [⟨itemFrom, 0⟩, ⟨itemTo, 2⟩, ⟨itemAmount, 1⟩]⟩),
   (methodRegisterCandidate, ⟨"Review transaction to register a node",
      "Sign transaction to register a node?", nodeConfigs cfg [⟨stakeAmount, 2⟩]⟩),
   (methodQuitNode, ⟨"Review transaction to quit the node", "Sign transaction to quit the node?",
      nodeConfigs cfg []⟩),
   (methodAddInitPos, ⟨"Review transaction to increase node stake",
      "Sign transaction to increase node stake?", nodeConfigs cfg [⟨stakeAmount, 2⟩]⟩),
   (methodReduceInitPos, ⟨"Review transaction to reduce node stake",
      "Sign transaction to reduce node stake?", nodeConfigs cfg [⟨itemAmount, 2⟩]⟩),
   (methodChangeMaxAuth, ⟨"Review transaction to edit allowed user stake",
      "Sign transaction to edit allowed user stake?", nodeConfigs cfg [⟨maxAuthorize, 2⟩]⟩),
   (methodSetFeePercentage, ⟨"Review transaction to edit incentive sharing ratio",
      "Sign transaction to edit incentive sharing ratio?",
      nodeConfigs cfg [⟨cfg.peerIncentive, 2⟩, ⟨cfg.userIncentive, 3⟩]⟩),
   (methodAuthorizeForPeer, ⟨"Review transaction to stake nodes",
      "Sign transaction to stake nodes?", [⟨stakeAddress, 0⟩]⟩),
   (methodUnauthorizeForPeer, ⟨"Review transaction to unstake nodes",
      "Sign transaction to unstake nodes?", [⟨stakeAddress, 0⟩]⟩),
   (methodWithdraw, ⟨"Review transaction to withdraw unstaked token",
      "Sign transaction to withdraw unstaked token?", [⟨stakeAddress, 0⟩]⟩),
   (methodWithdrawFee, ⟨"Review transaction to claim incentives",
      "Sign transaction to claim incentives?", [⟨stakeAddress, 0⟩]⟩)]

/-- The first branch whose method name is that of the transaction. -/
def findDisplay (raw : List UInt8) (name : TxParameter) :
    List (String × MethodDisplay) → Except Fault (Option MethodDisplay)
  | [] => return none
  | (method, display) :: displays => do
    if ← methodcmp raw name method then return some display
    else findDisplay raw name displays

def initDipslayPosAndItem (cfg : Config) (raw : List UInt8) (tx : Transaction) :
    Except Fault (Option MethodDisplay) :=
  if tx.method.name.data = none ∨ tx.method.name.len = 0 then return none
  else findDisplay raw tx.method.name (methodDisplays cfg tx.contract.type)

/-- What a method is displayed as, by its name. -/
def displayOf (cfg : Config) (type : TxContractType) (name : List UInt8) : Option MethodDisplay :=
  ((methodDisplays cfg type).find? fun d => decide (chars d.1 = name)).map (·.2)

theorem findDisplay_eq {raw : List UInt8} {param : TxParameter} {name : List UInt8}
    (hread : readPtr raw param.data param.len = .ok name) (hlen : param.len = name.length)
    (ds : List (String × MethodDisplay)) :
    findDisplay raw param ds = .ok ((ds.find? fun d => decide (chars d.1 = name)).map (·.2)) := by
  induction ds with
  | nil => rfl
  | cons d ds ih =>
    rw [findDisplay, methodcmp_eq hread hlen]
    by_cases h : chars d.1 = name
    · simp [h, bind, Except.bind, pure, Except.pure]
    · simpa [h, bind, Except.bind] using ih

theorem initDipslay_eq {cfg : Config} {raw : List UInt8} {tx : Transaction} {name : List UInt8}
    (hread : readPtr raw tx.method.name.data tx.method.name.len = .ok name)
    (hlen : tx.method.name.len = name.length) (hne : name ≠ []) :
    initDipslayPosAndItem cfg raw tx = .ok (displayOf cfg tx.contract.type name) := by
  have hpos := List.length_pos_iff.mpr hne
  obtain ⟨k, hk, -⟩ := readPtr_eq_ok.mp hread
  rw [initDipslayPosAndItem, if_neg (by rw [hk, hlen]; simp; exact hne), findDisplay_eq hread hlen]
  rfl

end AppOnt
