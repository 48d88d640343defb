import Tsc.LegacyTx.Wire

/-!
# The legacy transaction decoders (`app/legacy_ethtx.go`)

The loops that read the old `MsgEthereumTx` and its three transaction types. The
four readers of flat messages differ in their table of fields only and are
instances of `fieldsLoop`; the other three loops have bodies of their own.

`(*sdkmath.Int).Unmarshal` is a parameter: it returns the integer, or an error.
-/

namespace Tsc.LegacyTx

open Go Sdk

/-! ### Records -/

structure Any where
  typeUrl : Bytes
  value : Bytes
  deriving DecidableEq

/-- `legacyMsgEthereumTx`; `From` is `sender`, and the double `Size` is kept as its
64 bits. -/
structure LegacyMsgEthereumTx where
  data : Option Any
  size : ℕ
  hash : Bytes
  sender : Bytes
  deriving DecidableEq

/-- `sdkmath.Int` as `Unmarshal` leaves it: without a value on empty input. -/
abbrev SdkInt := Option ℤ

/-- `legacyLegacyTx`; here and below `To` is `recipient`. -/
structure LegacyLegacyTx where
  nonce : ℕ
  gasPrice : Option SdkInt
  gasLimit : ℕ
  recipient : Bytes
  amount : Option SdkInt
  data : Bytes
  v : Bytes
  r : Bytes
  s : Bytes
  deriving DecidableEq

structure LegacyAccessTuple where
  address : Bytes
  storageKeys : List Bytes
  deriving DecidableEq

structure LegacyAccessListTx where
  chainID : Option SdkInt
  nonce : ℕ
  gasPrice : Option SdkInt
  gasLimit : ℕ
  recipient : Bytes
  amount : Option SdkInt
  data : Bytes
  accesses : List LegacyAccessTuple
  v : Bytes
  r : Bytes
  s : Bytes
  deriving DecidableEq

structure LegacyDynamicFeeTx where
  chainID : Option SdkInt
  nonce : ℕ
  gasTipCap : Option SdkInt
  gasFeeCap : Option SdkInt
  gasLimit : ℕ
  recipient : Bytes
  amount : Option SdkInt
  data : Bytes
  accesses : List LegacyAccessTuple
  v : Bytes
  r : Bytes
  s : Bytes
  deriving DecidableEq

/-! ### extractMsgAnyValue -/

section Extract

variable (data : Bytes) (targetFieldNum targetWireType : ℕ)

def extractFixed (isTarget : Prop) [Decidable isTarget] (size : ℕ) (i : ℤ) :
    Out (Jump Unit Bytes) := do
  failIf ((data.length : ℤ) < wrap64 (i + size)) (.err unexpectedEOF)
  if isTarget then do
    let field ← slice data i (wrap64 (i + size))
    .ok (.ret field)
  else .ok (.next (wrap64 (i + size)) ())

/-- The switch on the wire type, with the cursor after the tag. -/
def extractField (fieldNum wireType : ℕ) (i : ℤ) : Out (Jump Unit Bytes) :=
  match wireType with
  | 0 => do
    let (_, n) ← decodeVarintAt data i
    failIf (n = 0) (.err (errorf "bad varint value at offset %d" [.int i]))
    if fieldNum = targetFieldNum ∧ targetWireType = 0 then do
      let field ← slice data i (wrap64 (i + n))
      .ok (.ret field)
    else .ok (.next (wrap64 (i + n)) ())
  | 1 => extractFixed data (fieldNum = targetFieldNum ∧ targetWireType = 1) 8 i
  | 2 => do
    let (i, stop) ← readEnd (errorf "bad length at offset %d" [.int i]) data i
    if fieldNum = targetFieldNum ∧ targetWireType = 2 then do
      let field ← slice data i stop
      .ok (.ret field)
    else .ok (.next stop ())
  | 5 => extractFixed data (fieldNum = targetFieldNum ∧ targetWireType = 5) 4 i
  | _ => .error (.err (errorf "unsupported wire type %d at offset %d" [.int wireType, .int i]))

def extractBody (i : ℤ) (_ : Unit) : Out (Jump Unit Bytes) := do
  let (fieldNum, wireType, i) ← readTag "bad varint at offset %d" data i
  extractField data targetFieldNum targetWireType fieldNum wireType i

def extractLoop : CursorLoop Err Unit Bytes where
  len := data.length
  body := extractBody data targetFieldNum targetWireType
  done _ := .error (.err (errorf "field %d not found" [.int targetFieldNum]))
  done_settles _ := settles_err _

def extractProtoField : Out Bytes := (extractLoop data targetFieldNum targetWireType).call ()

end Extract

def extractMsgAnyValue (txBytes : Bytes) : Out Bytes := do
  let bodyBytes ← wrapErr .plain "cannot extract tx body: %w" (extractProtoField txBytes 1 2)
  let anyBytes ← wrapErr .plain "cannot extract first message Any: %w"
    (extractProtoField bodyBytes 1 2)
  wrapErr .plain "cannot extract Any value: %w" (extractProtoField anyBytes 2 2)

/-! ### unmarshalAny -/

def anyField (data : Bytes) (fieldNum wireType : ℕ) (i : ℤ) (any : Any) : Out (Jump Any Any) :=
  match wireType with
  | 2 => do
    let (i, stop) ← readEnd (errorf "bad length in Any at %d" [.int i]) data i
    match fieldNum with
    | 1 => do
      let typeUrl ← slice data i stop
      .ok (.next stop { any with typeUrl })
    | 2 => do
      -- make([]byte, end-i)
      failIf (wrap64 (stop - i) < 0) (.panic "makeslice: len out of range")
      let value ← slice data i stop
      .ok (.next stop { any with value })
    | _ => .ok (.next stop any)
  | 0 => do
    -- a bad varint is not noticed here, its size is zero
    let (_, n) ← decodeVarintAt data i
    .ok (.next (wrap64 (i + n)) any)
  | 1 => .ok (.next (wrap64 (i + 8)) any)
  | 5 => .ok (.next (wrap64 (i + 4)) any)
  | _ => .error (.err (errorf "unsupported wire type %d in Any" [.int wireType]))

def anyBody (data : Bytes) (i : ℤ) (any : Any) : Out (Jump Any Any) := do
  let (fieldNum, wireType, i) ← readTag "bad varint in Any at %d" data i
  anyField data fieldNum wireType i any

def anyLoop (data : Bytes) : CursorLoop Err Any Any where
  len := data.length
  body := anyBody data
  done any := .ok any
  done_settles _ := settles_ok _

def unmarshalAny (data : Bytes) : Out Any := (anyLoop data).call ⟨[], []⟩

/-! ### unmarshalLegacyMsgEthereumTx -/

def littleEndianUint64 (b : Bytes) : Out ℕ :=
  if b.length < 8 then .error (.panic "index out of range") else .ok (beVal (b.take 8).reverse)

/-- The three length-delimited fields, `use` being what is done with the content. -/
def msgContent (data : Bytes) (name : String) (wireType : ℕ) (i : ℤ)
    (use : Bytes → Out LegacyMsgEthereumTx) : Out (Jump LegacyMsgEthereumTx LegacyMsgEthereumTx) := do
  failIf (wireType ≠ 2)
    (.err (errorf ("wrong wire type for " ++ name ++ " field: %d") [.int wireType]))
  let (i, stop) ← readEnd (errorf ("bad length for " ++ name) []) data i
  let content ← slice data i stop
  let msg ← use content
  .ok (.next stop msg)

def msgSize (data : Bytes) (wireType : ℕ) (i : ℤ) (msg : LegacyMsgEthereumTx) :
    Out (Jump LegacyMsgEthereumTx LegacyMsgEthereumTx) := do
  failIf (wireType ≠ 1) (.err (errorf "wrong wire type for Size field: %d" [.int wireType]))
  failIf ((data.length : ℤ) < wrap64 (i + 8)) (.err unexpectedEOF)
  let rest ← sliceFrom data i
  let size ← littleEndianUint64 rest
  .ok (.next (wrap64 (i + 8)) { msg with size })

def msgSkip (data : Bytes) (wireType : ℕ) (i : ℤ) (msg : LegacyMsgEthereumTx) :
    Out (Jump LegacyMsgEthereumTx LegacyMsgEthereumTx) :=
  match wireType with
  | 0 => do
    let (_, n) ← decodeVarintAt data i
    failIf (n = 0) (.err (errorf "bad varint skip at %d" [.int i]))
    .ok (.next (wrap64 (i + n)) msg)
  | 1 => .ok (.next (wrap64 (i + 8)) msg)
  | 2 => do
    let (length, n) ← decodeVarintAt data i
    failIf (n = 0) (.err (errorf "bad length skip at %d" [.int i]))
    .ok (.next (wrap64 (i + wrap64 (n + wrap64 length))) msg)
  | 5 => .ok (.next (wrap64 (i + 4)) msg)
  | _ => .error (.err (errorf "unsupported wire type %d" [.int wireType]))

def msgField (data : Bytes) (fieldNum wireType : ℕ) (i : ℤ) (msg : LegacyMsgEthereumTx) :
    Out (Jump LegacyMsgEthereumTx LegacyMsgEthereumTx) :=
  match fieldNum with
  | 1 => msgContent data "Data" wireType i fun content => do
    let any ← wrapErr .plain "failed to unmarshal Any: %w" (unmarshalAny content)
    .ok { msg with data := some any }
  | 2 => msgSize data wireType i msg
  | 3 => msgContent data "Hash" wireType i fun content => .ok { msg with hash := content }
  | 4 => msgContent data "From" wireType i fun content => .ok { msg with sender := content }
  | _ => msgSkip data wireType i msg

def msgBody (data : Bytes) (i : ℤ) (msg : LegacyMsgEthereumTx) :
    Out (Jump LegacyMsgEthereumTx LegacyMsgEthereumTx) := do
  let (fieldNum, wireType, i) ← readTag "bad varint at offset %d" data i
  msgField data fieldNum wireType i msg

def msgLoop (data : Bytes) : CursorLoop Err LegacyMsgEthereumTx LegacyMsgEthereumTx where
  len := data.length
  body := msgBody data
  done msg := .ok msg
  done_settles _ := settles_ok _

def unmarshalLegacyMsgEthereumTx (data : Bytes) : Out LegacyMsgEthereumTx :=
  (msgLoop data).call ⟨none, 0, [], []⟩

/-! ### Flat messages -/

/-- A known field: its name in the error texts, and what its value does to the
record. -/
inductive Field (σ : Type) where
  | varint (name : String) (set : ℕ → σ → σ)
  | content (name : String) (set : Bytes → σ → Out σ)

/-- The case of `field` in the switch on the field number; `none` is the default. -/
def fieldsField {σ : Type} (field : Option (Field σ)) (data : Bytes) (wireType : ℕ) (i : ℤ)
    (tx : σ) : Out (Jump σ σ) :=
  match field with
  | some (.varint name set) => do
    failIf (wireType ≠ 0) (.err (errorf ("wrong wire type for " ++ name ++ ": %d") [.int wireType]))
    let (v, n) ← decodeVarintAt data i
    failIf (n = 0) (.err (errorf ("bad varint for " ++ name) []))
    .ok (.next (wrap64 (i + n)) (set v tx))
  | some (.content name set) => do
    failIf (wireType ≠ 2) (.err (errorf ("wrong wire type for " ++ name ++ ": %d") [.int wireType]))
    let rest ← sliceFrom data i
    let (b, n) ← readLenDelimited rest
    let tx ← set b tx
    .ok (.next (wrap64 (i + n)) tx)
  | none => do
    let rest ← sliceFrom data i
    let n ← skipProtoField rest wireType
    .ok (.next (wrap64 (i + n)) tx)

def fieldsBody {σ : Type} (bad : String) (fields : ℕ → Option (Field σ)) (data : Bytes) (i : ℤ)
    (tx : σ) : Out (Jump σ σ) := do
  let (fieldNum, wireType, i) ← readTag bad data i
  fieldsField (fields fieldNum) data wireType i tx

def fieldsLoop {σ : Type} (bad : String) (fields : ℕ → Option (Field σ)) (data : Bytes) :
    CursorLoop Err σ σ where
  len := data.length
  body := fieldsBody bad fields data
  done tx := .ok tx
  done_settles _ := settles_ok _

def bytesField {σ : Type} (name : String) (set : Bytes → σ → σ) : Option (Field σ) :=
  some (.content name fun b tx => .ok (set b tx))

/-- `(*sdkmath.Int).Unmarshal`. -/
abbrev IntUnmarshal := Bytes → Except Err SdkInt

def intField {σ : Type} (unmarshal : IntUnmarshal) (name : String) (set : SdkInt → σ → σ) :
    Option (Field σ) :=
  some (.content name fun b tx =>
    match unmarshal b with
    | .ok v => .ok (set v tx)
    | .error e => .error (.err (errorf ("failed to unmarshal " ++ name ++ ": %w") [.text e.format])))

def accessTupleField : ℕ → Option (Field LegacyAccessTuple)
  | 1 => bytesField "address" fun b at' => { at' with address := b }
  | 2 => bytesField "storage_keys" fun b at' => { at' with storageKeys := at'.storageKeys ++ [b] }
  | _ => none

def accessTupleLoop (data : Bytes) : CursorLoop Err LegacyAccessTuple LegacyAccessTuple :=
  fieldsLoop "bad varint in AccessTuple at %d" accessTupleField data

def unmarshalAccessTuple (data : Bytes) : Out LegacyAccessTuple :=
  (accessTupleLoop data).call ⟨[], []⟩

def accessesField {σ : Type} (add : LegacyAccessTuple → σ → σ) : Option (Field σ) :=
  some (.content "accesses" fun b tx => do
    let tuple ← unmarshalAccessTuple b
    .ok (add tuple tx))

section Transactions

variable (unmarshal : IntUnmarshal)

def legacyTxField : ℕ → Option (Field LegacyLegacyTx)
  | 1 => some (.varint "nonce" fun v tx => { tx with nonce := v })
  | 2 => intField unmarshal "gas_price" fun v tx => { tx with gasPrice := some v }
  | 3 => some (.varint "gas" fun v tx => { tx with gasLimit := v })
  | 4 => bytesField "to" fun b tx => { tx with recipient := b }
  | 5 => intField unmarshal "amount" fun v tx => { tx with amount := some v }
  | 6 => bytesField "data" fun b tx => { tx with data := b }
  | 7 => bytesField "V" fun b tx => { tx with v := b }
  | 8 => bytesField "R" fun b tx => { tx with r := b }
  | 9 => bytesField "S" fun b tx => { tx with s := b }
  | _ => none

def legacyTxLoop (data : Bytes) : CursorLoop Err LegacyLegacyTx LegacyLegacyTx :=
  fieldsLoop "bad varint at %d" (legacyTxField unmarshal) data

def emptyLegacyTx : LegacyLegacyTx := ⟨0, none, 0, [], none, [], [], [], []⟩

def unmarshalLegacyTx (data : Bytes) : Out LegacyLegacyTx :=
  (legacyTxLoop unmarshal data).call emptyLegacyTx

def accessListTxField : ℕ → Option (Field LegacyAccessListTx)
  | 1 => intField unmarshal "chain_id" fun v tx => { tx with chainID := some v }
  | 2 => some (.varint "nonce" fun v tx => { tx with nonce := v })
  | 3 => intField unmarshal "gas_price" fun v tx => { tx with gasPrice := some v }
  | 4 => some (.varint "gas" fun v tx => { tx with gasLimit := v })
  | 5 => bytesField "to" fun b tx => { tx with recipient := b }
  | 6 => intField unmarshal "amount" fun v tx => { tx with amount := some v }
  | 7 => bytesField "data" fun b tx => { tx with data := b }
  | 8 => accessesField fun a tx => { tx with accesses := tx.accesses ++ [a] }
  | 9 => bytesField "V" fun b tx => { tx with v := b }
  | 10 => bytesField "R" fun b tx => { tx with r := b }
  | 11 => bytesField "S" fun b tx => { tx with s := b }
  | _ => none

def accessListTxLoop (data : Bytes) : CursorLoop Err LegacyAccessListTx LegacyAccessListTx :=
  fieldsLoop "bad varint at %d" (accessListTxField unmarshal) data

def emptyAccessListTx : LegacyAccessListTx := ⟨none, 0, none, 0, [], none, [], [], [], [], []⟩

def unmarshalAccessListTx (data : Bytes) : Out LegacyAccessListTx :=
  (accessListTxLoop unmarshal data).call emptyAccessListTx

def dynamicFeeTxField : ℕ → Option (Field LegacyDynamicFeeTx)
  | 1 => intField unmarshal "chain_id" fun v tx => { tx with chainID := some v }
  | 2 => some (.varint "nonce" fun v tx => { tx with nonce := v })
  | 3 => intField unmarshal "gas_tip_cap" fun v tx => { tx with gasTipCap := some v }
  | 4 => intField unmarshal "gas_fee_cap" fun v tx => { tx with gasFeeCap := some v }
  | 5 => some (.varint "gas" fun v tx => { tx with gasLimit := v })
  | 6 => bytesField "to" fun b tx => { tx with recipient := b }
  | 7 => intField unmarshal "amount" fun v tx => { tx with amount := some v }
  | 8 => bytesField "data" fun b tx => { tx with data := b }
  | 9 => accessesField fun a tx => { tx with accesses := tx.accesses ++ [a] }
  | 10 => bytesField "V" fun b tx => { tx with v := b }
  | 11 => bytesField "R" fun b tx => { tx with r := b }
  | 12 => bytesField "S" fun b tx => { tx with s := b }
  | _ => none

def dynamicFeeTxLoop (data : Bytes) : CursorLoop Err LegacyDynamicFeeTx LegacyDynamicFeeTx :=
  fieldsLoop "bad varint at %d" (dynamicFeeTxField unmarshal) data

def emptyDynamicFeeTx : LegacyDynamicFeeTx :=
  ⟨none, 0, none, none, 0, [], none, [], [], [], [], []⟩

def unmarshalDynamicFeeTx (data : Bytes) : Out LegacyDynamicFeeTx :=
  (dynamicFeeTxLoop unmarshal data).call emptyDynamicFeeTx

end Transactions

end Tsc.LegacyTx
