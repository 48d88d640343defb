import Tsc.Lockup.Events
import Tsc.Lockup.TotalLocked
import Tsc.Precompiles.Queries

/-!
# The lockup contract (`precompiles/lockup/lockup.go`, `tx.go`, `events.go`, `query.go`)

`Execute` decodes the call data, refuses transactions in read-only calls and runs one of
five methods for the caller. `lock` and `sendDelegateAndLock` hand a message to the message
server and log what it did; `extend` is in `Precompiles.Lockup`, the `locks` query in
`Precompiles.Queries`. A call that fails, or that the EVM reverts later, leaves neither
state nor logs behind, so only the calls that last are followed here.
-/

namespace Tsc.Precompiles

open Go Sdk Kv Lockup Staking

/-- The decoded values the methods tell apart; a `*big.Int` may be nil. -/
inductive AbiValue where
  | address (a : Bytes)
  | string (s : Bytes)
  | bigInt (x : Option ℤ)
  | tuples (type : GoType) (value : List ExtensionInput)
  deriving DecidableEq

def AbiValue.arg : AbiValue → AbiArg
  | .address a => .address a
  | .tuples type value => .tuples type value
  | _ => .other

/-- `method.Name`. -/
inductive Method where
  | lock
  | extend
  | sendDelegateAndLock
  | locks
  | totalLockedAmount
  | other (name : Bytes)
  deriving DecidableEq

def isTransaction : Method → Bool
  | .lock | .extend | .sendDelegateAndLock => true
  | _ => false

def Uint256 (x : ℤ) : Prop := 0 ≤ x ∧ x < intBound

/-- Lengths in Go are of type `int`. -/
def GoString (s : Bytes) : Prop := s.length < 2 ^ 63

/-- What the decoder delivers for the inputs `abi.json` declares. -/
def Method.Typed : Method → List AbiValue → Prop
  | .lock, args => ∃ a d x, args = [.address a, .string d, .bigInt (some x)] ∧ a.length = 20 ∧
      GoString d ∧ Uint256 x
  | .extend, args => ∃ a exts, args = [.address a, .tuples abiExtensions exts]
  | .sendDelegateAndLock, args => ∃ a v d x,
      args = [.address a, .string v, .string d, .bigInt (some x)] ∧ a.length = 20 ∧
      (GoString v ∧ GoString d) ∧ Uint256 x
  | .locks, args => ∃ a, args = [.address a]
  | .totalLockedAmount, args => args = []
  | .other _, _ => True

structure EthLog where
  address : Bytes
  topics : List Bytes
  data : Bytes
  deriving DecidableEq

/-- Further calls into the EVM libraries: `SetupABI`, which finds the method of the call
data, refuses transactions in read-only calls and decodes the arguments by `abi.json`;
event signatures; and the packing of results and log data with its inverse. -/
structure Evm extends Host where
  setupABI : Bytes → Bool → Out (Method × List AbiValue)
  typed : ∀ input readOnly m args, setupABI input readOnly = .ok (m, args) → m.Typed args
  guarded : ∀ input m args, setupABI input true = .ok (m, args) → isTransaction m = false
  eventID : Bytes → Bytes
  readTopic : Bytes → Bytes
  readTopic_make : ∀ a topic, a.length = 20 → makeTopic a = .ok topic → readTopic topic = a
  packLock : Bytes → ℤ → Out Bytes
  unpackLock : Bytes → Out (Bytes × ℤ)
  unpackLock_pack : ∀ d x data, GoString d → Uint256 x → packLock d x = .ok data →
    unpackLock data = .ok (d, x)
  packSendDelegateAndLock : Bytes → Bytes → ℤ → Out Bytes
  unpackSendDelegateAndLock : Bytes → Out (Bytes × Bytes × ℤ)
  unpackSend_pack : ∀ v d x data, GoString v → GoString d → Uint256 x →
    packSendDelegateAndLock v d x = .ok data → unpackSendDelegateAndLock data = .ok (v, d, x)
  packLocks : List LockInfoOutput → Out Bytes
  packTotalLocked : Bytes → ℤ → Out Bytes

/-- `LockupPrecompileAddress`. -/
def lockupPrecompileAddress : Bytes := List.replicate 18 0 ++ [9, 0]

section Methods

variable {W : Type} (k : Keepers W) (H : Evm)

/-! ### Messages from arguments -/

def invalidNumberOfArgs (expected : ℤ) (args : List AbiValue) : Fault Err :=
  fail .plain "invalid number of arguments; expected %d; got: %d" [.int expected, .int args.length]

/-- The type assertions `args[i].(T)`, with the error of the one that fails. -/
def asAddress (format : String) : AbiValue → Out Bytes
  | .address a => .ok a
  | _ => .error (fail .plain format [])

def asString (format : String) : AbiValue → Out Bytes
  | .string s => .ok s
  | _ => .error (fail .plain format [])

def asBigInt : AbiValue → Out (Option ℤ)
  | .bigInt x => .ok x
  | _ => .error (fail .plain "invalid amount: %v" [])

def newMsgLock (args : List AbiValue) (bondDenom : Bytes) : Out (MsgLock × Bytes) :=
  match args with
  | [arg0, arg1, arg2] => do
    let lockAddress ← asAddress "invalid lock address: %v" arg0
    let unlockDate ← asString "invalid unlock date: %v" arg1
    let amount ← asBigInt arg2
    let amt ← newIntFromBigInt amount
    failIf (¬ 0 < amt) (fail .plain "lock amount must be positive" [])
    let bech32Addr := H.accString lockAddress
    let coin ← newCoin H.validDenom bondDenom amt
    .ok (⟨bech32Addr, unlockDate, coin⟩, lockAddress)
  | _ => .error (invalidNumberOfArgs 3 args)

def newMsgSendDelegateAndLock (args : List AbiValue) (caller bondDenom : Bytes) :
    Out (MsgSendDelegateAndLock × Bytes × Bytes) :=
  match args with
  | [arg0, arg1, arg2, arg3] => do
    let toAddress ← asAddress "invalid to address: %v" arg0
    let validatorAddress ← asString "invalid validator address: %v" arg1
    let unlockDate ← asString "invalid unlock date: %v" arg2
    let amount ← asBigInt arg3
    let amt ← newIntFromBigInt amount
    failIf (¬ 0 < amt) (fail .plain "send delegate and lock amount must be positive" [])
    let fromBech32 := H.accString caller
    let toBech32 := H.accString toAddress
    let coin ← newCoin H.validDenom bondDenom amt
    .ok (⟨fromBech32, toBech32, validatorAddress, unlockDate, coin⟩, caller, toAddress)
  | _ => .error (invalidNumberOfArgs 4 args)

/-! ### Logs -/

def emitLockEvent (msg : MsgLock) (lockAddr : Bytes) : Out EthLog := do
  let topic ← H.makeTopic lockAddr
  let packed ← H.packLock msg.unlockDate msg.amount.amount
  .ok ⟨lockupPrecompileAddress, [H.eventID (ascii "Lock"), topic], packed⟩

def emitSendDelegateAndLockEvent (msg : MsgSendDelegateAndLock) (fromAddr toAddr : Bytes) :
    Out EthLog := do
  let fromTopic ← H.makeTopic fromAddr
  let toTopic ← H.makeTopic toAddr
  let packed ← H.packSendDelegateAndLock msg.validatorAddress msg.unlockDate msg.amount.amount
  .ok ⟨lockupPrecompileAddress, [H.eventID (ascii "SendDelegateAndLock"), fromTopic, toTopic],
    packed⟩

/-- The logs of `extend`, with the signature as first topic. -/
def extendedLog (log : Log) : EthLog :=
  ⟨lockupPrecompileAddress, [H.eventID (ascii "LockExtended"), log.topic], log.data⟩

/-! ### Methods -/

variable (ctx : Ctx) (s : LockStore × W) (caller : Bytes) (args : List AbiValue)

/-- `Precompile.Lock`. -/
def precompileLock : Out ((LockStore × W) × List EthLog × Bytes) := do
  let bondDenom ← k.bondDenom s.2
  let (msg, lockHexAddr) ← newMsgLock H args bondDenom
  failIf (caller ≠ lockHexAddr)
    (fail .plain "msg.sender address %s does not match the requester address %s"
      [.str caller, .str lockHexAddr])
  let st' ← lock k ctx s.1 s.2 msg
  let log ← emitLockEvent H msg lockHexAddr
  let result ← H.packSuccess
  .ok ((st', s.2), [log], result)

/-- `Precompile.SendDelegateAndLock`. -/
def precompileSendDelegateAndLock : Out ((LockStore × W) × List EthLog × Bytes) := do
  let bondDenom ← k.bondDenom s.2
  let (msg, fromHexAddr, toHexAddr) ← newMsgSendDelegateAndLock H args caller bondDenom
  let s' ← sendDelegateAndLock k ctx s.1 s.2 msg
  let log ← emitSendDelegateAndLockEvent H msg fromHexAddr toHexAddr
  let result ← H.packSuccess
  .ok (s', [log], result)

/-- `Precompile.TotalLockedAmount`. -/
def precompileTotalLockedAmount : Out Bytes :=
  match args with
  | [] => do
    let res ← totalLockedAmount k H.validDenom ctx s.1 s.2 (some ())
    H.packTotalLocked res.denom res.amount
  | _ => .error (invalidNumberOfArgs 0 args)

/-- The switch of `Execute` on the method's name. -/
def runMethod (method : Method) : Out ((LockStore × W) × List EthLog × Bytes) :=
  match method with
  | .lock => precompileLock k H ctx s caller args
  | .extend => do
    let (st', logs, bz) ← precompileExtend k H.toHost ctx s.1 s.2 caller (args.map AbiValue.arg)
    .ok ((st', s.2), logs.map (extendedLog H), bz)
  | .sendDelegateAndLock => precompileSendDelegateAndLock k H ctx s caller args
  | .locks => do
    let bz ← precompileLocks k H.toHost H.packLocks ctx s.1 s.2 (args.map AbiValue.arg)
    .ok (s, [], bz)
  | .totalLockedAmount => do
    let bz ← precompileTotalLockedAmount k H ctx s args
    .ok (s, [], bz)
  | .other name => .error (fail .plain "unknown method: %s" [.str name])

def execute (input : Bytes) (readOnly : Bool) :
    Out ((LockStore × W) × List EthLog × Bytes) := do
  let (method, args) ← H.setupABI input readOnly
  runMethod k H ctx s caller args method

end Methods

end Tsc.Precompiles
