import Tsc.Sdk.Math
import Tsc.Go.Time

/-!
# Data of the distro module (`x/distro/types`)

Parameters, messages and the keepers the module calls. Addresses and amounts
arrive as text; the SDK functions that read them are fields of `Texts`. Bank state
is a type `W` of its own, reached only through `Keepers`.
-/

namespace Tsc.Distro

open Go Sdk

abbrev AccAddress := Bytes

/-- `types.Params` (`genesis.pb.go`). -/
structure Params where
  mintingAddress : Bytes
  receivingAddress : Bytes
  denom : Bytes
  maxSupply : Bytes
  distributionStartDate : Bytes
  monthsInHalvingPeriod : UInt64
  deriving DecidableEq

/-- The SDK's readings of texts: bech32 addresses, and the integers
`math.NewIntFromString` accepts, which it refuses beyond 256 bits. -/
structure Texts where
  accAddressFromBech32 : Bytes → Out AccAddress
  accAddressString : AccAddress → Bytes
  newIntFromString : Bytes → Option ℤ
  newIntFromString_inRange : ∀ s x, newIntFromString s = some x → InRange x

/-- The calls of the module on bank and account state (`types/expected_keepers.go`). -/
structure Keepers (W : Type) extends Texts where
  getSupply : W → Bytes → Coin
  mintCoins : W → Bytes → Coins → Out W
  sendCoinsFromModuleToAccount : W → Bytes → AccAddress → Coins → Out W
  getModuleAddress : Bytes → Option AccAddress

/-! ### Parameters (`types/params.go`) -/

def moduleName : Bytes := ascii "distro"

def defaultMintingAddress : Bytes := ascii "tsc1cd3de90g8ktz20qtyc945chwg8pg8xn9trwpz4"

def defaultReceivingAddress : Bytes := ascii "tsc1grl8wuaj0yg6wvzvyxdtnnajp9em49m5fjz07v"

def defaultDenom : Bytes := ascii "aTSC"

def defaultMaxSupply : Bytes := ascii "21000000000000000000000000"

def defaultDistributionStartDate : Bytes := ascii "2025-07-22"

def defaultMonthsInHalvingPeriod : UInt64 := 48

def defaultParams : Params where
  mintingAddress := defaultMintingAddress
  receivingAddress := defaultReceivingAddress
  denom := defaultDenom
  maxSupply := defaultMaxSupply
  distributionStartDate := defaultDistributionStartDate
  monthsInHalvingPeriod := defaultMonthsInHalvingPeriod

section Validate

variable (x : Texts)

/-- The two address fields are checked alike, under their own messages. -/
def validateAddress (empty invalid : String) (v : Bytes) : Out Unit := do
  failIf (v = []) (fail .plain empty [])
  let _ ← wrapErr .plain invalid (x.accAddressFromBech32 v)

def validateMintingAddress : Bytes → Out Unit :=
  validateAddress x "minting address cannot be empty" "invalid minting address: %w"

def validateReceivingAddress : Bytes → Out Unit :=
  validateAddress x "receiving address cannot be empty" "invalid receiving address: %w"

def validateDenom (v : Bytes) : Out Unit := do
  failIf (v = []) (fail .plain "denom cannot be empty" [])
  failIf (defaultDenom ≠ v) (fail .plain "denom must be '%s'" [.str defaultDenom])

def validateMaxSupply (v : Bytes) : Out Unit := do
  failIf (v = []) (fail .plain "max supply cannot be empty" [])
  let maxSupply ← ofOption (fail .plain "max supply must be a valid integer" [])
    (x.newIntFromString v)
  failIf (¬ 0 < maxSupply) (fail .plain "max supply must be positive" [])

def validateDistributionStartDate (v : Bytes) : Out Unit := do
  failIf (v = []) (fail .plain "distribution start date cannot be empty" [])
  let _ ← ofOption
    (fail .plain "distribution start date must be in YYYY-MM-DD format: %w" [.parseError v])
    (parseDateOnly v)

def validateMonthsInHalvingPeriod (v : UInt64) : Out Unit :=
  failIf (v = 0) (fail .plain "months in halving period must be greater than zero" [])

def Params.validate (p : Params) : Out Unit := do
  validateMintingAddress x p.mintingAddress
  validateReceivingAddress x p.receivingAddress
  validateDenom p.denom
  validateMaxSupply x p.maxSupply
  validateDistributionStartDate p.distributionStartDate
  validateMonthsInHalvingPeriod p.monthsInHalvingPeriod

end Validate

theorem Params.validate_ok {x : Texts} {p : Params} (h : p.validate x = .ok ()) :
    p.denom = defaultDenom ∧
      (∃ maxSupply, x.newIntFromString p.maxSupply = some maxSupply ∧ 0 < maxSupply) ∧
      (∃ start, parseDateOnly p.distributionStartDate = some start) ∧
      p.monthsInHalvingPeriod ≠ 0 := by
  simp only [Params.validate, validateDenom, validateMaxSupply, validateDistributionStartDate,
    validateMonthsInHalvingPeriod, bind_eq_ok, failIf_eq_ok, ofOption_eq_ok, not_not] at h
  obtain ⟨_, _, _, _, _, ⟨_, _, hdenom⟩, _, ⟨_, _, s, hs, hpos⟩, _, ⟨_, _, t, ht, _⟩, hm⟩ := h
  exact ⟨hdenom.symm, ⟨s, hs, hpos⟩, ⟨t, ht⟩, hm⟩

theorem Params.mintingAddress_decodes {x : Texts} {p : Params} (h : p.validate x = .ok ()) :
    ∃ a, x.accAddressFromBech32 p.mintingAddress = .ok a := by
  simp only [Params.validate, validateMintingAddress, validateAddress, bind_eq_ok,
    wrapErr_eq_ok] at h
  obtain ⟨_, ⟨_, -, a, ha, -⟩, -⟩ := h
  exact ⟨a, ha⟩

/-! ### Messages -/

structure MsgMint where
  amount : Bytes
  minter : Bytes

/-- `MsgMint.GetSigners` (`types/msg_mint.go`): an address that does not decode is
the nil address. -/
def MsgMint.getSigners (x : Texts) (msg : MsgMint) : List AccAddress :=
  match x.accAddressFromBech32 msg.minter with
  | .ok addr => [addr]
  | .error _ => [[]]

def MsgMint.validate (x : Texts) (msg : MsgMint) : Out ℤ := do
  let amount ← ofOption (fail .errInvalidRequest "amount cannot be converted to int" [])
    (x.newIntFromString msg.amount)
  failIf (amount = 0) (fail .errInvalidRequest "amount cannot be zero" [])
  failIf (amount < 0) (fail .errInvalidRequest "amount cannot be negative" [])
  failIf (msg.minter = []) (fail .errInvalidRequest "minter cannot be empty" [])
  let _ ← orFail (fail .errInvalidRequest "minter is not a valid address" [])
    (x.accAddressFromBech32 msg.minter)
  .ok amount

theorem MsgMint.minter_decodes {x : Texts} {msg : MsgMint} {amount : ℤ}
    (h : msg.validate x = .ok amount) : ∃ a, x.accAddressFromBech32 msg.minter = .ok a := by
  simp only [MsgMint.validate, bind_eq_ok, orFail_eq_ok] at h
  obtain ⟨_, -, _, -, _, -, _, -, a, ha, -⟩ := h
  exact ⟨a, ha⟩

structure MsgUpdateParams where
  authority : Bytes
  params : Params

def MsgUpdateParams.validateBasic (x : Texts) (msg : MsgUpdateParams) : Out Unit := do
  let _ ← wrapErr .plain "invalid authority address" (x.accAddressFromBech32 msg.authority)
  msg.params.validate x

end Tsc.Distro
