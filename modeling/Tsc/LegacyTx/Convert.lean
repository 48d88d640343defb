import Tsc.LegacyTx.Decoder

/-!
# Conversion to Ethereum transactions (`app/legacy_ethtx.go:456-595,1160-1197`)

A decoded legacy message becomes a go-ethereum transaction and its sender. The
transaction is kept as the fields of its inner data, as `ethtypes.NewTx` copies
them: a nil integer is copied as 0.
-/

namespace Tsc.LegacyTx

open Go Sdk

/-- `common.Address`. -/
abbrev Address := Vector Byte 20

/-- `common.Hash`. -/
abbrev Hash := Vector Byte 32

def zeroAddress : Address := Vector.replicate 20 0

structure AccessTuple where
  address : Address
  storageKeys : List Hash
  deriving DecidableEq

/-- `ethtypes.LegacyTx`; here and below `To` is `recipient`. -/
structure EthLegacyTx where
  nonce : ℕ
  gasPrice : ℤ
  gas : ℕ
  recipient : Option Address
  value : ℤ
  data : Bytes
  v : ℤ
  r : ℤ
  s : ℤ
  deriving DecidableEq

structure EthAccessListTx where
  chainID : ℤ
  nonce : ℕ
  gasPrice : ℤ
  gas : ℕ
  recipient : Option Address
  value : ℤ
  data : Bytes
  accessList : List AccessTuple
  v : ℤ
  r : ℤ
  s : ℤ
  deriving DecidableEq

structure EthDynamicFeeTx where
  chainID : ℤ
  nonce : ℕ
  gasTipCap : ℤ
  gasFeeCap : ℤ
  gas : ℕ
  recipient : Option Address
  value : ℤ
  data : Bytes
  accessList : List AccessTuple
  v : ℤ
  r : ℤ
  s : ℤ
  deriving DecidableEq

inductive EthTransaction where
  | legacy (tx : EthLegacyTx)
  | accessList (tx : EthAccessListTx)
  | dynamicFee (tx : EthDynamicFeeTx)
  deriving DecidableEq

/-- Calls into `math.Int` and go-ethereum. `recover` is `ethtypes.Sender` with
`LatestSignerForChainID(tx.ChainId())`. -/
structure Libs where
  unmarshal : IntUnmarshal
  hexToAddress : Bytes → Address
  hexToHash : Bytes → Hash
  recover : EthTransaction → Except Err Address

def sdkIntToBigInt : Option SdkInt → Option ℤ
  | none => some 0
  | some v => v

/-- The copy `NewTx` makes of an integer. -/
def copyInt (x : Option ℤ) : ℤ := x.getD 0

def sigValue (b : Bytes) : ℤ := if 0 < b.length then (beVal b : ℤ) else 0

def decodeSigBytes (vb rb sb : Bytes) : ℤ × ℤ × ℤ := (sigValue vb, sigValue rb, sigValue sb)

section Conversion

variable (L : Libs)

def convertLegacyAccessList (tuples : List LegacyAccessTuple) : List AccessTuple :=
  tuples.map fun t => ⟨L.hexToAddress t.address, t.storageKeys.map L.hexToHash⟩

def recipientOf (text : Bytes) : Option Address :=
  if text ≠ [] then some (L.hexToAddress text) else none

/-- The end of the three inner decoders: without a sender it is taken from the
signature, if that can be done. -/
def withSender (tx : EthTransaction) (sender : Address) : EthTransaction × Address :=
  if sender = zeroAddress then
    match L.recover tx with
    | .ok recovered => (tx, recovered)
    | .error _ => (tx, sender)
  else (tx, sender)

def decodeLegacyTxInner (data : Bytes) (sender : Address) : Out (EthTransaction × Address) := do
  let lt ← unmarshalLegacyTx L.unmarshal data
  let (v, r, s) := decodeSigBytes lt.v lt.r lt.s
  .ok (withSender L (.legacy {
    nonce := lt.nonce
    gasPrice := copyInt (sdkIntToBigInt lt.gasPrice)
    gas := lt.gasLimit
    recipient := recipientOf L lt.recipient
    value := copyInt (sdkIntToBigInt lt.amount)
    data := lt.data
    v := v
    r := r
    s := s }) sender)

def decodeAccessListTxInner (data : Bytes) (sender : Address) : Out (EthTransaction × Address) := do
  let alt ← unmarshalAccessListTx L.unmarshal data
  let (v, r, s) := decodeSigBytes alt.v alt.r alt.s
  .ok (withSender L (.accessList {
    chainID := copyInt (sdkIntToBigInt alt.chainID)
    nonce := alt.nonce
    gasPrice := copyInt (sdkIntToBigInt alt.gasPrice)
    gas := alt.gasLimit
    recipient := recipientOf L alt.recipient
    value := copyInt (sdkIntToBigInt alt.amount)
    data := alt.data
    accessList := convertLegacyAccessList L alt.accesses
    v := v
    r := r
    s := s }) sender)

def decodeDynamicFeeTxInner (data : Bytes) (sender : Address) : Out (EthTransaction × Address) := do
  let dft ← unmarshalDynamicFeeTx L.unmarshal data
  let (v, r, s) := decodeSigBytes dft.v dft.r dft.s
  .ok (withSender L (.dynamicFee {
    chainID := copyInt (sdkIntToBigInt dft.chainID)
    nonce := dft.nonce
    gasTipCap := copyInt (sdkIntToBigInt dft.gasTipCap)
    gasFeeCap := copyInt (sdkIntToBigInt dft.gasFeeCap)
    gas := dft.gasLimit
    recipient := recipientOf L dft.recipient
    value := copyInt (sdkIntToBigInt dft.amount)
    data := dft.data
    accessList := convertLegacyAccessList L dft.accesses
    v := v
    r := r
    s := s }) sender)

def legacyTxUrl : Bytes := ascii "/cosmos.evm.vm.v1.LegacyTx"

def accessListTxUrl : Bytes := ascii "/cosmos.evm.vm.v1.AccessListTx"

def dynamicFeeTxUrl : Bytes := ascii "/cosmos.evm.vm.v1.DynamicFeeTx"

def legacyMsgToEthTransaction (msg : LegacyMsgEthereumTx) : Out (EthTransaction × Address) :=
  match msg.data with
  | none => .error (.err (errorf "legacy MsgEthereumTx has nil Data" []))
  | some any =>
    let sender := if msg.sender ≠ [] then L.hexToAddress msg.sender else zeroAddress
    if any.typeUrl = legacyTxUrl then decodeLegacyTxInner L any.value sender
    else if any.typeUrl = accessListTxUrl then decodeAccessListTxInner L any.value sender
    else if any.typeUrl = dynamicFeeTxUrl then decodeDynamicFeeTxInner L any.value sender
    else .error (.err (errorf "unknown legacy tx data type: %s" [.str any.typeUrl]))

end Conversion

end Tsc.LegacyTx
