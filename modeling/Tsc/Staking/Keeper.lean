import Tsc.Lockup.Delegations
import Tsc.Kv.StoreTotal
import Tsc.Staking.Shares
import Mathlib.Data.Prod.Lex

/-!
# The staking keeper the lockup hooks are attached to

The part of the SDK's staking keeper that moves delegations, with the hooks
called where the SDK calls them (`app/app.go:551-561` registers them): `Unbond`
calls `AfterDelegationModified` once the reduced shares are stored, or
`BeforeDelegationRemoved` while the old record is still there, and takes the
tokens out of the validator afterwards; `Delegate` calls
`AfterDelegationModified` once the new shares are stored; a redelegation is the
one after the other. How shares are priced is the platform's matter.
-/

namespace Tsc.Staking

open Go Sdk Kv Lockup

/-- Delegations are stored by delegator and validator; `pool` is what the module
accounts of the staking module hold. -/
structure State where
  bondDenom : Bytes
  validators : Store ValAddress Validator
  delegations : Store (AccAddress ×ₗ ValAddress) ℚ
  balance : AccAddress → Bytes → ℤ
  pool : ℤ

def getValidator (w : State) (v : ValAddress) : Out Validator :=
  ofOption (fail .plain "validator does not exist" []) (w.validators.get v)

def getShares (w : State) (d : AccAddress) (v : ValAddress) : Out ℚ :=
  ofOption (fail .plain "no delegation for (address, validator) tuple" [])
    (w.delegations.get (toLex (d, v)))

def delegationsOf (w : State) (d : AccAddress) : List ((AccAddress ×ₗ ValAddress) × ℚ) :=
  w.delegations.entries.filter fun e => (ofLex e.1).1 = d

section Operations

variable (p : Platform)

/-- What the lockup module reads. Coin transfers and delegations of its own are
refused here; `keepers` below fills them in. -/
def readers : Keepers State where
  accAddressFromBech32 := p.acc
  valAddressFromBech32 := p.val
  getAccount _ _ := some ()
  getBalance w a denom := w.balance a denom
  sendCoins _ _ _ _ _ _ := .error (fail .errUnauthorized "no transfers" [])
  bondDenom w := .ok w.bondDenom
  getValidator := getValidator
  getDelegation w d v := do
    let shares ← getShares w d v
    .ok ⟨p.valText v, shares⟩
  getDelegatorDelegations w d maxRetrieve :=
    .ok (((delegationsOf w d).take maxRetrieve).map fun e => ⟨p.valText (ofLex e.1).2, e.2⟩)
  delegate _ _ _ _ _ _ := .error (fail .errUnauthorized "no delegations" [])
  tokensFromShares := p.tokensFromShares

/-- `RemoveValidatorTokensAndShares`: the tokens given out are rounded down, and
the last shares take everything. -/
def removeTokensAndShares (validator : Validator) (shares : ℚ) : Out (ℤ × Validator) :=
  let remaining := validator.delegatorShares - shares
  if remaining = 0 then
    .ok (validator.tokens, { validator with tokens := 0, delegatorShares := 0 })
  else do
    let tokens ← p.tokensFromShares validator shares
    let issued := ⌊tokens⌋
    failIf (validator.tokens - issued < 0) (.panic "attempting to remove more tokens than available")
    .ok (issued, { validator with
      tokens := validator.tokens - issued, delegatorShares := remaining })

/-- The delegation record and the hooks of `Unbond`. -/
def reduceDelegation (ctx : Ctx) (st : LockStore) (w : State) (d : AccAddress) (v : ValAddress)
    (rest : ℚ) : Out State :=
  if rest = 0 then do
    beforeDelegationRemoved (readers p) ctx st w d v
    .ok { w with delegations := w.delegations.delete (toLex (d, v)) }
  else do
    let w' := { w with delegations := w.delegations.set (toLex (d, v)) rest }
    afterDelegationModified (readers p) ctx st w' d v
    .ok w'

def unbond (ctx : Ctx) (st : LockStore) (w : State) (d : AccAddress) (v : ValAddress)
    (shares : ℚ) : Out (ℤ × State) := do
  let current ← getShares w d v
  failIf (current < shares) (fail .plain "not enough delegation shares" [])
  let validator ← getValidator w v
  let w₁ ← reduceDelegation p ctx st w d v (current - shares)
  let (issued, validator') ← removeTokensAndShares p validator shares
  .ok (issued, { w₁ with validators := w₁.validators.set v validator' })

/-- The shares `AddValidatorTokensAndShares` issues: the first delegation sets the rate to
one. -/
def newShares (validator : Validator) (amt : ℤ) : Out ℚ :=
  if validator.delegatorShares = 0 then .ok amt else p.sharesFromTokens validator amt

def addShares (w : State) (d : AccAddress) (v : ValAddress) (validator : Validator) (amt : ℤ)
    (shares : ℚ) : State :=
  { w with
    validators := w.validators.set v { validator with
      tokens := validator.tokens + amt, delegatorShares := validator.delegatorShares + shares }
    delegations := w.delegations.set (toLex (d, v))
      (((w.delegations.get (toLex (d, v))).getD 0) + shares) }

/-- `Delegate` up to its hook. -/
def storeDelegation (w : State) (d : AccAddress) (v : ValAddress) (amt : ℤ) : Out State := do
  let validator ← getValidator w v
  failIf (validator.tokens = 0 ∧ 0 < validator.delegatorShares)
    (fail .plain "cannot delegate to validators with invalid (zero) ex-rate" [])
  let shares ← newShares p validator amt
  .ok (addShares w d v validator amt shares)

def delegate (ctx : Ctx) (st : LockStore) (w : State) (d : AccAddress) (v : ValAddress)
    (amt : ℤ) : Out State := do
  let w' ← storeDelegation p w d v amt
  afterDelegationModified (readers p) ctx st w' d v
  .ok w'

def payPool (w : State) (d : AccAddress) (amt : ℤ) : Out State := do
  failIf (w.balance d w.bondDenom < amt) (fail .errInsufficientFunds "failed to delegate" [])
  let pool ← intAdd w.pool amt
  .ok { w with
    balance := Function.update w.balance d
      (Function.update (w.balance d) w.bondDenom (w.balance d w.bondDenom - amt))
    pool := pool }

/-- The shares of `amt` tokens. Rounding may take them above those of the record, which
then count. -/
def validateUnbondAmount (w : State) (d : AccAddress) (v : ValAddress) (amt : ℤ) : Out ℚ := do
  let validator ← getValidator w v
  let current ← getShares w d v
  let shares ← p.sharesFromTokens validator amt
  let sharesTruncated ← p.sharesFromTokensTruncated validator amt
  failIf (current < sharesTruncated) (fail .errInvalidRequest "invalid shares amount" [])
  .ok (if current < shares then current else shares)

def sendCoin (fromAddr toAddr : AccAddress) (w : State) (coin : Coin) : Out State := do
  failIf (w.balance fromAddr coin.denom < coin.amount)
    (fail .errInsufficientFunds "spendable balance is smaller than the amount sent" [])
  let debited := Function.update w.balance fromAddr
    (Function.update (w.balance fromAddr) coin.denom
      (w.balance fromAddr coin.denom - coin.amount))
  .ok { w with
    balance := Function.update debited toAddr
      (Function.update (debited toAddr) coin.denom (debited toAddr coin.denom + coin.amount)) }

/-- All calls of the lockup module: transfers pass its send restriction, its own
delegations pay the pools and run the hooks. -/
def keepers : Keepers State :=
  { readers p with
    sendCoins := fun ctx st w fromAddr toAddr amt => do
      let receiver ← sendRestrictionFn (readers p) ctx st w fromAddr toAddr amt
      forRange (sendCoin fromAddr receiver) w amt
    delegate := fun ctx st w d amt validator => do
      let w₁ ← payPool w d amt
      delegate p ctx st w₁ d validator.operator amt }

/-! ### Messages -/

inductive Msg where
  | delegate (delegator validator : Bytes) (amount : Coin)
  | undelegate (delegator validator : Bytes) (amount : Coin)
  | beginRedelegate (delegator validatorSrc validatorDst : Bytes) (amount : Coin)

def checkCoin (w : State) (amount : Coin) : Out Unit := do
  failIf (¬ 0 < amount.amount) (fail .errInvalidRequest "invalid delegation amount" [])
  failIf (amount.denom ≠ w.bondDenom) (fail .errInvalidRequest "invalid coin denomination" [])

def handleDelegate (ctx : Ctx) (st : LockStore) (w : State) (d : AccAddress) (v : ValAddress)
    (amt : ℤ) : Out State := do
  let w₁ ← payPool w d amt
  delegate p ctx st w₁ d v amt

def handleUndelegate (ctx : Ctx) (st : LockStore) (w : State) (d : AccAddress) (v : ValAddress)
    (amt : ℤ) : Out State := do
  let shares ← validateUnbondAmount p w d v amt
  let (_, w') ← unbond p ctx st w d v shares
  .ok w'

def handleBeginRedelegate (ctx : Ctx) (st : LockStore) (w : State) (d : AccAddress)
    (src dst : ValAddress) (amt : ℤ) : Out State := do
  let shares ← validateUnbondAmount p w d src amt
  failIf (src = dst) (fail .plain "cannot redelegate to the same validator" [])
  let _ ← getValidator w dst
  let (returned, w₁) ← unbond p ctx st w d src shares
  failIf (returned = 0) (fail .plain "too few tokens to redelegate (truncates to zero tokens)" [])
  delegate p ctx st w₁ d dst returned

def handle (ctx : Ctx) (st : LockStore) (w : State) : Msg → Out State
  | .delegate delegator validator amount => do
    let v ← p.val validator
    let d ← p.acc delegator
    checkCoin w amount
    handleDelegate p ctx st w d v amount.amount
  | .undelegate delegator validator amount => do
    let v ← p.val validator
    let d ← p.acc delegator
    checkCoin w amount
    handleUndelegate p ctx st w d v amount.amount
  | .beginRedelegate delegator validatorSrc validatorDst amount => do
    let src ← p.val validatorSrc
    let d ← p.acc delegator
    let dst ← p.val validatorDst
    checkCoin w amount
    handleBeginRedelegate p ctx st w d src dst amount.amount

end Operations

/-! ### Transactions -/

/-- `RedelegationMarkerDecorator.AnteHandle` (`app/ante/redelegate.go`). -/
def markRedelegation (c : AddressCodec) (ctx : Ctx) : Msg → Out Ctx
  | .beginRedelegate delegator validatorSrc _ _ => do
    let delAddr ← c.acc delegator
    let valSrcAddr ← c.val validatorSrc
    .ok (withRedelegating ctx delAddr valSrcAddr)
  | _ => .ok ctx

def anteHandle (c : AddressCodec) (ctx : Ctx) (msgs : List Msg) : Out Ctx :=
  forRange (markRedelegation c) ctx msgs

end Tsc.Staking
