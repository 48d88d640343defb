import Tsc.Distro.Schedule

/-!
# Messages of the distro module (`x/distro/keeper`)

`Mint` and `UpdateParams` as state transformers over the stored parameters and the
bank, and `InitGenesis`. A message that fails or panics leaves the state as it was:
the transaction it is part of is rolled back.
-/

namespace Tsc.Distro

open Go Sdk

variable {W : Type}

/-- The module's own store holds one item, the parameters; `world` is the state of
the other modules. -/
structure State (W : Type) where
  params : Option Params
  world : W

/-- `Params.Get` of the collections item. -/
def State.getParams (s : State W) : Out Params :=
  ofOption (fail .errNotFound "collections: not found" []) s.params

/-! ### Mint (`msg_server_mint.go`) -/

def isAuthorized (params : Params) (mintingAddress : Bytes) : Prop :=
  params.mintingAddress = mintingAddress

instance (params : Params) (a : Bytes) : Decidable (isAuthorized params a) :=
  inferInstanceAs (Decidable (_ = _))

def depositCoins (k : Keepers W) (w : W) (toAddress : Bytes) (amount : ℤ) (denom : Bytes) :
    Out W := do
  let acct ← orFail (fail .errInvalidAddress "invalid address '%s'" [.str toAddress])
    (k.accAddressFromBech32 toAddress)
  let _ ← ofOption (fail .errInvalidRequest "module account not found" [])
    (k.getModuleAddress moduleName)
  k.sendCoinsFromModuleToAccount w moduleName acct [⟨denom, amount⟩]

def validateMintingLimits (x : Texts) (blockTime : Time) (currentSupply amount : ℤ)
    (params : Params) : Out Unit := do
  let schedule ← newHalvingSchedule x params
  let targetDate := blockTime.truncateDay
  let totalDistributable ← schedule.totalDistributableAt targetDate
  let newSupply ← intAdd currentSupply amount
  failIf (totalDistributable < newSupply)
    (fail .errInvalidRequest "mint would exceed distributable limit: requested total %s, limit %s"
      [.int newSupply, .int totalDistributable])

def mint (k : Keepers W) (blockTime : Time) (msg : MsgMint) (s : State W) : Out (State W) := do
  let amount ← msg.validate k.toTexts
  let signers := msg.getSigners k.toTexts
  failIf (signers.length = 0) (fail .errInvalidRequest "signer is required" [])
  let params ← s.getParams
  failIf (¬ isAuthorized params (k.accAddressString (signers.headD [])))
    (fail .errUnauthorized "unauthorized sender" [])
  let currentSupply := (k.getSupply s.world params.denom).amount
  failIf (currentSupply < 0) (fail .errInvalidRequest "current supply is negative" [])
  let maxSupply ← ofOption (fail .errInvalidRequest "invalid max supply" [])
    (k.newIntFromString params.maxSupply)
  let newSupply ← intAdd currentSupply amount
  failIf (maxSupply < newSupply) (fail .errInvalidRequest "max supply exceeded" [])
  validateMintingLimits k.toTexts blockTime currentSupply amount params
  let _ ← ofOption (fail .errInvalidRequest "module account not found" [])
    (k.getModuleAddress moduleName)
  let minted ← k.mintCoins s.world moduleName [⟨params.denom, amount⟩]
  let world ← depositCoins k minted params.receivingAddress amount params.denom
  .ok { s with world := world }

/-! ### UpdateParams and InitGenesis (`msg_server.go`, `keeper.go`) -/

def updateParams (k : Keepers W) (authority : Bytes) (msg : MsgUpdateParams) (s : State W) :
    Out (State W) := do
  failIf (authority ≠ msg.authority)
    (fail .errInvalidSigner "invalid authority; expected %s, got %s"
      [.str authority, .str msg.authority])
  msg.params.validate k.toTexts
  .ok { s with params := some msg.params }

def initGenesis (k : Keepers W) (params : Params) (s : State W) : Out (State W) := do
  params.validate k.toTexts
  .ok { s with params := some params }

/-! ### Delivery -/

inductive Message where
  | mint (msg : MsgMint)
  | updateParams (msg : MsgUpdateParams)

def handle (k : Keepers W) (authority : Bytes) (blockTime : Time) (s : State W) :
    Message → Out (State W)
  | .mint msg => mint k blockTime msg s
  | .updateParams msg => updateParams k authority msg s

/-- A message in its transaction: committed, or rolled back. -/
def deliver (k : Keepers W) (authority : Bytes) (blockTime : Time) (s : State W)
    (msg : Message) : State W :=
  match handle k authority blockTime s msg with
  | .ok s' => s'
  | .error _ => s

theorem deliver_cases (k : Keepers W) (authority : Bytes) (t : Time) (s : State W)
    (msg : Message) :
    deliver k authority t s msg = s ∨
      handle k authority t s msg = .ok (deliver k authority t s msg) := by
  unfold deliver
  cases h : handle k authority t s msg with
  | ok s' => exact Or.inr rfl
  | error e => exact Or.inl rfl

theorem validate_positive {x : Texts} {msg : MsgMint} {amount : ℤ}
    (h : msg.validate x = .ok amount) : 0 < amount := by
  simp only [MsgMint.validate, bind_eq_ok, failIf_eq_ok, Except.ok.injEq] at h
  obtain ⟨a, -, -, hz, -, hneg, -, -, -, -, rfl⟩ := h
  omega

theorem mint_ok {k : Keepers W} {t : Time} {msg : MsgMint} {s s' : State W}
    (h : mint k t msg s = .ok s') :
    ∃ params amount schedule limit minted acct,
      s.params = some params ∧ s'.params = some params ∧ 0 < amount ∧
      newHalvingSchedule k.toTexts params = .ok schedule ∧
      schedule.totalDistributableAt t.truncateDay = .ok limit ∧
      (k.getSupply s.world params.denom).amount + amount ≤ limit ∧
      k.mintCoins s.world moduleName [⟨params.denom, amount⟩] = .ok minted ∧
      k.sendCoinsFromModuleToAccount minted moduleName acct [⟨params.denom, amount⟩] =
        .ok s'.world := by
  simp only [mint, validateMintingLimits, depositCoins, State.getParams, bind_eq_ok, failIf_eq_ok,
    ofOption_eq_ok, orFail_eq_ok, intAdd_eq_ok, Except.ok.injEq] at h
  obtain ⟨amount, hamount, _, -, params, hparams, _, -, _, -, _, -, _, -, _, -, _,
    ⟨schedule, hschedule, limit, hlimit, _, ⟨-, rfl⟩, hle⟩, _, -, minted, hminted, world,
    ⟨acct, -, _, -, hsend⟩, rfl⟩ := h
  exact ⟨params, amount, schedule, limit, minted, acct, hparams, hparams,
    validate_positive hamount, hschedule, hlimit, not_lt.mp hle, hminted, hsend⟩

end Tsc.Distro
