import Tsc.LegacyTx.Encoder
import Tsc.LegacyTx.Convert
import Tsc.Sdk.Hex
import Tsc.Sdk.IntText

/-!
# Legacy messages read back

The old layout of the three transaction types and of the message around them, as
documented above the decoders, and that decoding and converting a message written
in it gives the transaction and the sender it was written from.
-/

namespace Tsc.LegacyTx

open Go Sdk

/-! ### What the layout is written with -/

def InUint256 (x : ℤ) : Prop := 0 ≤ x ∧ x < 2 ^ 256

instance (x : ℤ) : Decidable (InUint256 x) := by unfold InUint256; infer_instance

/-- The calls of the conversion with their counterparts: `Unmarshal` undoes `Marshal`,
and the readers of 0x-hex texts undo `Hex`. -/
structure Codec extends Libs where
  marshal : ℤ → Bytes
  addressHex : Address → Bytes
  hashHex : Hash → Bytes
  unmarshal_marshal : ∀ x, InUint256 x → unmarshal (marshal x) = .ok (some x)
  hexToAddress_hex : ∀ a, hexToAddress (addressHex a) = a
  hexToHash_hex : ∀ h, hexToHash (hashHex h) = h
  addressHex_0x : ∀ a, ascii "0x" <+: addressHex a

/-- `(*big.Int).Bytes()` of a value of at most 256 bits. -/
def bigBytes (n : ℕ) : Bytes := (beBytes 32 n).dropWhile (· = 0)

theorem beVal_dropWhile (b : Bytes) : beVal (b.dropWhile (· = 0)) = beVal b := by
  induction b with
  | nil => rfl
  | cons x xs ih =>
    by_cases hx : x = 0
    · rw [List.dropWhile_cons_of_pos (by simpa using hx), ih, beVal_cons, hx]
      simp
    · rw [List.dropWhile_cons_of_neg (by simpa using hx)]

theorem sigValue_bigBytes {x : ℤ} (hx : InUint256 x) : sigValue (bigBytes x.toNat) = x := by
  obtain ⟨h0, h1⟩ := hx
  have hval : beVal (bigBytes x.toNat) = x.toNat := by
    unfold bigBytes
    rw [beVal_dropWhile, beVal_beBytes, Nat.mod_eq_of_lt (by omega)]
  unfold sigValue
  split_ifs with hlen
  · omega
  · have hnil : bigBytes x.toNat = [] := List.eq_nil_of_length_eq_zero (by omega)
    rw [hnil] at hval
    have hzero : x.toNat = 0 := hval.symm
    omega

/-! ### The layout -/

section Layout

variable (C : Codec) (omitZero : Bool)

/-- An integer is a nullable field: a zero may be left out or written. -/
def intFields (n : ℕ) (x : ℤ) : List WireField :=
  if omitZero = true ∧ x = 0 then [] else [.bytes n (C.marshal x)]

def sigFields (n : ℕ) (x : ℤ) : List WireField := bytesFields n (bigBytes x.toNat)

def recipientText (recipient : Option Address) : Bytes := (recipient.map C.addressHex).getD []

def tupleFields (t : AccessTuple) : List WireField :=
  bytesFields 1 (C.addressHex t.address) ++ t.storageKeys.map fun key => .bytes 2 (C.hashHex key)

def accessFields (n : ℕ) (accessList : List AccessTuple) : List WireField :=
  accessList.map fun t => .bytes n (encodeFields (tupleFields C t))

def legacyTxFields (tx : EthLegacyTx) : List WireField :=
  varintFields 1 tx.nonce ++ (intFields C omitZero 2 tx.gasPrice ++ (varintFields 3 tx.gas ++
    (bytesFields 4 (recipientText C tx.recipient) ++ (intFields C omitZero 5 tx.value ++
    (bytesFields 6 tx.data ++ (sigFields 7 tx.v ++ (sigFields 8 tx.r ++ sigFields 9 tx.s)))))))

def accessListTxFields (tx : EthAccessListTx) : List WireField :=
  intFields C omitZero 1 tx.chainID ++ (varintFields 2 tx.nonce ++
    (intFields C omitZero 3 tx.gasPrice ++ (varintFields 4 tx.gas ++
    (bytesFields 5 (recipientText C tx.recipient) ++ (intFields C omitZero 6 tx.value ++
    (bytesFields 7 tx.data ++ (accessFields C 8 tx.accessList ++
    (sigFields 9 tx.v ++ (sigFields 10 tx.r ++ sigFields 11 tx.s)))))))))

def dynamicFeeTxFields (tx : EthDynamicFeeTx) : List WireField :=
  intFields C omitZero 1 tx.chainID ++ (varintFields 2 tx.nonce ++
    (intFields C omitZero 3 tx.gasTipCap ++ (intFields C omitZero 4 tx.gasFeeCap ++
    (varintFields 5 tx.gas ++ (bytesFields 6 (recipientText C tx.recipient) ++
    (intFields C omitZero 7 tx.value ++ (bytesFields 8 tx.data ++
    (accessFields C 9 tx.accessList ++ (sigFields 10 tx.v ++ (sigFields 11 tx.r ++
    sigFields 12 tx.s))))))))))

def EthTransaction.typeUrl : EthTransaction → Bytes
  | .legacy _ => legacyTxUrl
  | .accessList _ => accessListTxUrl
  | .dynamicFee _ => dynamicFeeTxUrl

def EthTransaction.fields : EthTransaction → List WireField
  | .legacy tx => legacyTxFields C omitZero tx
  | .accessList tx => accessListTxFields C omitZero tx
  | .dynamicFee tx => dynamicFeeTxFields C omitZero tx

def encodeAny (any : Any) : Bytes := encodeFields (bytesFields 1 any.typeUrl ++ bytesFields 2 any.value)

def EthTransaction.toAny (tx : EthTransaction) : Any :=
  ⟨tx.typeUrl, encodeFields (tx.fields C omitZero)⟩

def sizeFields (size : ℕ) : List WireField := if size = 0 then [] else [.fixed64 2 size]

/-- The old `MsgEthereumTx` around a transaction. -/
def encodeMsg (tx : EthTransaction) (size : ℕ) (hash : Bytes) (sender : Address) : Bytes :=
  encodeFields (bytesFields 1 (encodeAny (tx.toAny C omitZero)) ++
    (sizeFields size ++ (bytesFields 3 hash ++ bytesFields 4 (C.addressHex sender))))

end Layout

/-- The ranges of the fields: `uint64` words and integers of 256 bits. -/
def EthTransaction.Fits : EthTransaction → Prop
  | .legacy tx => tx.nonce < 2 ^ 64 ∧ tx.gas < 2 ^ 64 ∧
      ∀ x ∈ [tx.gasPrice, tx.value, tx.v, tx.r, tx.s], InUint256 x
  | .accessList tx => tx.nonce < 2 ^ 64 ∧ tx.gas < 2 ^ 64 ∧
      ∀ x ∈ [tx.chainID, tx.gasPrice, tx.value, tx.v, tx.r, tx.s], InUint256 x
  | .dynamicFee tx => tx.nonce < 2 ^ 64 ∧ tx.gas < 2 ^ 64 ∧
      ∀ x ∈ [tx.chainID, tx.gasTipCap, tx.gasFeeCap, tx.value, tx.v, tx.r, tx.s], InUint256 x

/-! ### Reading the fields back -/

section Back

variable (C : Codec) (omitZero : Bool)

theorem Codec.addressHex_ne_nil (a : Address) : C.addressHex a ≠ [] := by
  intro hnil
  have h0x := C.addressHex_0x a
  rw [hnil] at h0x
  exact absurd h0x (by decide)

/-- What the decoder holds of an integer that was written as `intFields` does. -/
def intRead (x : ℤ) : Option SdkInt := if omitZero = true ∧ x = 0 then none else some (some x)

theorem copyInt_intRead (x : ℤ) : copyInt (sdkIntToBigInt (intRead omitZero x)) = x := by
  unfold intRead
  split_ifs with h
  · exact h.2.symm
  · rfl

theorem recipientOf_recipientText (recipient : Option Address) :
    recipientOf C.toLibs (recipientText C recipient) = recipient := by
  cases recipient with
  | none => rfl
  | some a =>
    have hne := C.addressHex_ne_nil a
    simp only [recipientOf, recipientText, Option.map_some, Option.getD_some, if_pos hne,
      C.hexToAddress_hex]

theorem withSender_of_ne {sender : Address} (h : sender ≠ zeroAddress) (L : Libs)
    (tx : EthTransaction) : withSender L tx sender = (tx, sender) := by
  unfold withSender
  rw [if_neg h]

variable {σ : Type} {fields : ℕ → Option (Field σ)} {n : ℕ} {tx tx' : σ} {name : String}

/-- `put` is the record with the integer's field open. -/
theorem steps_intFields {x : ℤ} (hx : InUint256 x) (put : Option SdkInt → σ)
    {set : SdkInt → σ → σ} (hfield : fields n = intField C.unmarshal name set) (hn : n < 2 ^ 60)
    (hput : ∀ v, set v (put none) = put (some v)) (hnone : put none = tx)
    (hread : put (intRead omitZero x) = tx') :
    Steps (FieldStep fields) (intFields C omitZero n x) tx tx' := by
  rw [← hnone, ← hread]
  unfold intFields intRead
  split_ifs
  · exact .nil
  · refine .single (.bytes hn hfield ?_)
    rw [C.unmarshal_marshal x hx]
    exact congrArg Except.ok (hput (some x))

def legacyTuple (t : AccessTuple) : LegacyAccessTuple :=
  ⟨C.addressHex t.address, t.storageKeys.map C.hashHex⟩

theorem convertLegacyAccessList_legacyTuple (accessList : List AccessTuple) :
    convertLegacyAccessList C.toLibs (accessList.map (legacyTuple C)) = accessList := by
  unfold convertLegacyAccessList
  rw [List.map_map]
  apply List.map_id''
  intro t
  have hkeys : (t.storageKeys.map C.hashHex).map C.hexToHash = t.storageKeys := by
    rw [List.map_map]
    exact List.map_id'' C.hexToHash_hex t.storageKeys
  simp only [Function.comp_apply, legacyTuple, C.hexToAddress_hex, hkeys]

theorem steps_storageKeys (keys : List Hash) (at' : LegacyAccessTuple) :
    Steps (FieldStep accessTupleField) (keys.map fun key => .bytes 2 (C.hashHex key)) at'
      { at' with storageKeys := at'.storageKeys ++ keys.map C.hashHex } := by
  induction keys generalizing at' with
  | nil =>
    simp only [List.map_nil, List.append_nil]
    exact .nil
  | cons key keys ih =>
    have hrest := ih { at' with storageKeys := at'.storageKeys ++ [C.hashHex key] }
    rw [List.append_assoc] at hrest
    exact .cons (.bytes (by norm_num) rfl rfl) hrest

theorem unmarshalAccessTuple_tupleFields (t : AccessTuple)
    (hlen : (encodeFields (tupleFields C t)).length < 2 ^ 63) :
    unmarshalAccessTuple (encodeFields (tupleFields C t)) = .ok (legacyTuple C t) := by
  have haddress : Steps (FieldStep accessTupleField) (bytesFields 1 (C.addressHex t.address))
      ⟨[], []⟩ ⟨C.addressHex t.address, []⟩ :=
    steps_bytesFields rfl (by norm_num) rfl rfl
  exact fieldsLoop_encodeFields hlen (haddress.append (steps_storageKeys C t.storageKeys _)) _

theorem length_le_encodeFields {fs : List WireField} {b : Bytes} (h : .bytes n b ∈ fs) :
    b.length ≤ (encodeFields fs).length := by
  refine le_trans ?_ (length_le_of_mem h)
  simp only [WireField.encode, WireField.payload, List.length_append]
  omega

/-- `put` is the record with the list of tuples open. -/
theorem steps_accessFields (put : List LegacyAccessTuple → σ) {add : LegacyAccessTuple → σ → σ}
    {accessList : List AccessTuple}
    (hlen : (encodeFields (accessFields C n accessList)).length < 2 ^ 63)
    (hfield : fields n = accessesField add) (hn : n < 2 ^ 60)
    (hput : ∀ l a, add a (put l) = put (l ++ [a])) (hnil : put [] = tx)
    (hread : put (accessList.map (legacyTuple C)) = tx') :
    Steps (FieldStep fields) (accessFields C n accessList) tx tx' := by
  have htuple : ∀ t ∈ accessList, unmarshalAccessTuple (encodeFields (tupleFields C t)) =
      .ok (legacyTuple C t) := by
    intro t ht
    apply unmarshalAccessTuple_tupleFields
    have hmem : WireField.bytes n (encodeFields (tupleFields C t)) ∈ accessFields C n accessList :=
      List.mem_map_of_mem ht
    exact (length_le_encodeFields hmem).trans_lt hlen
  have hsteps : ∀ l, Steps (FieldStep fields) (accessFields C n accessList) (put l)
      (put (l ++ accessList.map (legacyTuple C))) := by
    clear hlen hread
    induction accessList with
    | nil =>
      intro l
      rw [List.map_nil, List.append_nil]
      exact .nil
    | cons t accessList ih =>
      intro l
      have hrest := ih (fun u hu => htuple u (List.mem_cons_of_mem _ hu)) (l ++ [legacyTuple C t])
      rw [List.append_assoc] at hrest
      refine .cons (.bytes hn hfield ?_) hrest
      rw [htuple t (List.mem_cons_self ..), ok_bind, hput]
  rw [← hnil, ← hread]
  exact hsteps []

/-- `put` is the record with the three signature values open. -/
theorem steps_signature (v r s : ℤ) (put : Bytes → Bytes → Bytes → σ)
    {setV setR setS : Bytes → σ → σ} {nameV nameR nameS : String}
    (hv : fields n = bytesField nameV setV) (hr : fields (n + 1) = bytesField nameR setR)
    (hs : fields (n + 2) = bytesField nameS setS) (hn : n + 2 < 2 ^ 60)
    (hputV : ∀ a, setV a (put [] [] []) = put a [] [])
    (hputR : ∀ a b, setR b (put a [] []) = put a b [])
    (hputS : ∀ a b c, setS c (put a b []) = put a b c) (hnil : put [] [] [] = tx)
    (hread : put (bigBytes v.toNat) (bigBytes r.toNat) (bigBytes s.toNat) = tx') :
    Steps (FieldStep fields) (sigFields n v ++ (sigFields (n + 1) r ++ sigFields (n + 2) s))
      tx tx' := by
  rw [← hnil, ← hread]
  refine .append (steps_bytesFields hv (by omega) (hputV _) (hputV _)) ?_
  refine .append (steps_bytesFields hr (by omega) (hputR _ _) (hputR _ _)) ?_
  exact steps_bytesFields hs hn (hputS _ _ _) (hputS _ _ _)

/-! ### The three transactions -/

theorem steps_legacyTxFields {tx : EthLegacyTx} (h : (EthTransaction.legacy tx).Fits) :
    Steps (FieldStep (legacyTxField C.unmarshal)) (legacyTxFields C omitZero tx) emptyLegacyTx
      ⟨tx.nonce, intRead omitZero tx.gasPrice, tx.gas, recipientText C tx.recipient,
        intRead omitZero tx.value, tx.data, bigBytes tx.v.toNat, bigBytes tx.r.toNat,
        bigBytes tx.s.toNat⟩ := by
  obtain ⟨hnonce, hgas, hints⟩ := h
  simp only [List.forall_mem_cons] at hints
  obtain ⟨hprice, hvalue, _⟩ := hints
  unfold legacyTxFields
  refine .append (steps_varintFields rfl (by norm_num) hnonce rfl rfl) ?_
  refine .append (steps_intFields C omitZero hprice
    (fun p => ⟨_, p, 0, [], none, [], [], [], []⟩) rfl (by norm_num) (fun _ => rfl) rfl rfl) ?_
  refine .append (steps_varintFields rfl (by norm_num) hgas rfl rfl) ?_
  dsimp only
  refine .append (steps_bytesFields rfl (by norm_num) rfl rfl) ?_
  dsimp only
  refine .append (steps_intFields C omitZero hvalue
    (fun p => ⟨_, _, _, _, p, [], [], [], []⟩) rfl (by norm_num) (fun _ => rfl) rfl rfl) ?_
  refine .append (steps_bytesFields rfl (by norm_num) rfl rfl) ?_
  dsimp only
  exact steps_signature tx.v tx.r tx.s (fun v r s => ⟨_, _, _, _, _, _, v, r, s⟩)
    rfl rfl rfl (by norm_num) (fun _ => rfl) (fun _ _ => rfl) (fun _ _ _ => rfl) rfl rfl

theorem length_append_encodeFields (l l' : List WireField) :
    (encodeFields (l ++ l')).length = (encodeFields l).length + (encodeFields l').length := by
  unfold encodeFields
  rw [List.flatMap_append, List.length_append]

theorem steps_accessListTxFields {tx : EthAccessListTx} (h : (EthTransaction.accessList tx).Fits)
    (hlen : (encodeFields (accessFields C 8 tx.accessList)).length < 2 ^ 63) :
    Steps (FieldStep (accessListTxField C.unmarshal)) (accessListTxFields C omitZero tx)
      emptyAccessListTx
      ⟨intRead omitZero tx.chainID, tx.nonce, intRead omitZero tx.gasPrice, tx.gas,
        recipientText C tx.recipient, intRead omitZero tx.value, tx.data,
        tx.accessList.map (legacyTuple C), bigBytes tx.v.toNat, bigBytes tx.r.toNat,
        bigBytes tx.s.toNat⟩ := by
  obtain ⟨hnonce, hgas, hints⟩ := h
  simp only [List.forall_mem_cons] at hints
  obtain ⟨hchain, hprice, hvalue, _⟩ := hints
  unfold accessListTxFields
  refine .append (steps_intFields C omitZero hchain
    (fun p => ⟨p, 0, none, 0, [], none, [], [], [], [], []⟩) rfl (by norm_num) (fun _ => rfl) rfl
    rfl) ?_
  refine .append (steps_varintFields rfl (by norm_num) hnonce rfl rfl) ?_
  dsimp only
  refine .append (steps_intFields C omitZero hprice
    (fun p => ⟨_, _, p, 0, [], none, [], [], [], [], []⟩) rfl (by norm_num) (fun _ => rfl) rfl
    rfl) ?_
  refine .append (steps_varintFields rfl (by norm_num) hgas rfl rfl) ?_
  dsimp only
  refine .append (steps_bytesFields rfl (by norm_num) rfl rfl) ?_
  dsimp only
  refine .append (steps_intFields C omitZero hvalue
    (fun p => ⟨_, _, _, _, _, p, [], [], [], [], []⟩) rfl (by norm_num) (fun _ => rfl) rfl rfl) ?_
  refine .append (steps_bytesFields rfl (by norm_num) rfl rfl) ?_
  dsimp only
  refine .append (steps_accessFields C
    (fun l => (⟨_, _, _, _, _, _, _, l, [], [], []⟩ : LegacyAccessListTx)) hlen rfl
    (by norm_num) (fun _ _ => rfl) rfl rfl) ?_
  exact steps_signature tx.v tx.r tx.s (fun v r s => ⟨_, _, _, _, _, _, _, _, v, r, s⟩)
    rfl rfl rfl (by norm_num) (fun _ => rfl) (fun _ _ => rfl) (fun _ _ _ => rfl) rfl rfl

theorem steps_dynamicFeeTxFields {tx : EthDynamicFeeTx} (h : (EthTransaction.dynamicFee tx).Fits)
    (hlen : (encodeFields (accessFields C 9 tx.accessList)).length < 2 ^ 63) :
    Steps (FieldStep (dynamicFeeTxField C.unmarshal)) (dynamicFeeTxFields C omitZero tx)
      emptyDynamicFeeTx
      ⟨intRead omitZero tx.chainID, tx.nonce, intRead omitZero tx.gasTipCap,
        intRead omitZero tx.gasFeeCap, tx.gas, recipientText C tx.recipient,
        intRead omitZero tx.value, tx.data, tx.accessList.map (legacyTuple C),
        bigBytes tx.v.toNat, bigBytes tx.r.toNat, bigBytes tx.s.toNat⟩ := by
  obtain ⟨hnonce, hgas, hints⟩ := h
  simp only [List.forall_mem_cons] at hints
  obtain ⟨hchain, htip, hfee, hvalue, _⟩ := hints
  unfold dynamicFeeTxFields
  refine .append (steps_intFields C omitZero hchain
    (fun p => ⟨p, 0, none, none, 0, [], none, [], [], [], [], []⟩) rfl (by norm_num) (fun _ => rfl)
    rfl rfl) ?_
  refine .append (steps_varintFields rfl (by norm_num) hnonce rfl rfl) ?_
  dsimp only
  refine .append (steps_intFields C omitZero htip
    (fun p => ⟨_, _, p, none, 0, [], none, [], [], [], [], []⟩) rfl (by norm_num) (fun _ => rfl)
    rfl rfl) ?_
  refine .append (steps_intFields C omitZero hfee
    (fun p => ⟨_, _, _, p, 0, [], none, [], [], [], [], []⟩) rfl (by norm_num) (fun _ => rfl)
    rfl rfl) ?_
  refine .append (steps_varintFields rfl (by norm_num) hgas rfl rfl) ?_
  dsimp only
  refine .append (steps_bytesFields rfl (by norm_num) rfl rfl) ?_
  dsimp only
  refine .append (steps_intFields C omitZero hvalue
    (fun p => ⟨_, _, _, _, _, _, p, [], [], [], [], []⟩) rfl (by norm_num) (fun _ => rfl) rfl
    rfl) ?_
  refine .append (steps_bytesFields rfl (by norm_num) rfl rfl) ?_
  dsimp only
  refine .append (steps_accessFields C
    (fun l => (⟨_, _, _, _, _, _, _, _, l, [], [], []⟩ : LegacyDynamicFeeTx)) hlen rfl
    (by norm_num) (fun _ _ => rfl) rfl rfl) ?_
  exact steps_signature tx.v tx.r tx.s (fun v r s => ⟨_, _, _, _, _, _, _, _, _, v, r, s⟩)
    rfl rfl rfl (by norm_num) (fun _ => rfl) (fun _ _ => rfl) (fun _ _ _ => rfl) rfl rfl

section Inner

variable {sender : Address} (hsender : sender ≠ zeroAddress)
include hsender

theorem decodeLegacyTxInner_fields {tx : EthLegacyTx} (h : (EthTransaction.legacy tx).Fits)
    (hlen : (encodeFields (legacyTxFields C omitZero tx)).length < 2 ^ 63) :
    decodeLegacyTxInner C.toLibs (encodeFields (legacyTxFields C omitZero tx)) sender =
      .ok (.legacy tx, sender) := by
  have hread : unmarshalLegacyTx C.unmarshal (encodeFields (legacyTxFields C omitZero tx)) = _ :=
    fieldsLoop_encodeFields hlen (steps_legacyTxFields C omitZero h) _
  obtain ⟨_, _, hints⟩ := h
  simp only [List.forall_mem_cons] at hints
  obtain ⟨_, _, hv, hr, hs, _⟩ := hints
  simp only [decodeLegacyTxInner, hread, ok_bind, decodeSigBytes, copyInt_intRead,
    recipientOf_recipientText, sigValue_bigBytes hv, sigValue_bigBytes hr, sigValue_bigBytes hs,
    withSender_of_ne hsender]

theorem decodeAccessListTxInner_fields {tx : EthAccessListTx}
    (h : (EthTransaction.accessList tx).Fits)
    (hlen : (encodeFields (accessListTxFields C omitZero tx)).length < 2 ^ 63) :
    decodeAccessListTxInner C.toLibs (encodeFields (accessListTxFields C omitZero tx)) sender =
      .ok (.accessList tx, sender) := by
  have htuples : (encodeFields (accessFields C 8 tx.accessList)).length < 2 ^ 63 := by
    simp only [accessListTxFields, length_append_encodeFields] at hlen
    omega
  have hread : unmarshalAccessListTx C.unmarshal
      (encodeFields (accessListTxFields C omitZero tx)) = _ :=
    fieldsLoop_encodeFields hlen (steps_accessListTxFields C omitZero h htuples) _
  obtain ⟨_, _, hints⟩ := h
  simp only [List.forall_mem_cons] at hints
  obtain ⟨_, _, _, hv, hr, hs, _⟩ := hints
  simp only [decodeAccessListTxInner, hread, ok_bind, decodeSigBytes, copyInt_intRead,
    recipientOf_recipientText, convertLegacyAccessList_legacyTuple, sigValue_bigBytes hv,
    sigValue_bigBytes hr, sigValue_bigBytes hs, withSender_of_ne hsender]

theorem decodeDynamicFeeTxInner_fields {tx : EthDynamicFeeTx}
    (h : (EthTransaction.dynamicFee tx).Fits)
    (hlen : (encodeFields (dynamicFeeTxFields C omitZero tx)).length < 2 ^ 63) :
    decodeDynamicFeeTxInner C.toLibs (encodeFields (dynamicFeeTxFields C omitZero tx)) sender =
      .ok (.dynamicFee tx, sender) := by
  have htuples : (encodeFields (accessFields C 9 tx.accessList)).length < 2 ^ 63 := by
    simp only [dynamicFeeTxFields, length_append_encodeFields] at hlen
    omega
  have hread : unmarshalDynamicFeeTx C.unmarshal
      (encodeFields (dynamicFeeTxFields C omitZero tx)) = _ :=
    fieldsLoop_encodeFields hlen (steps_dynamicFeeTxFields C omitZero h htuples) _
  obtain ⟨_, _, hints⟩ := h
  simp only [List.forall_mem_cons] at hints
  obtain ⟨_, _, _, _, hv, hr, hs, _⟩ := hints
  simp only [decodeDynamicFeeTxInner, hread, ok_bind, decodeSigBytes, copyInt_intRead,
    recipientOf_recipientText, convertLegacyAccessList_legacyTuple, sigValue_bigBytes hv,
    sigValue_bigBytes hr, sigValue_bigBytes hs, withSender_of_ne hsender]

theorem legacyMsgToEthTransaction_toAny {tx : EthTransaction} (h : tx.Fits)
    (hlen : (encodeFields (tx.fields C omitZero)).length < 2 ^ 63) (size : ℕ) (hash : Bytes) :
    legacyMsgToEthTransaction C.toLibs
      ⟨some (tx.toAny C omitZero), size, hash, C.addressHex sender⟩ = .ok (tx, sender) := by
  have hne := C.addressHex_ne_nil sender
  cases tx with
  | legacy tx =>
    simp only [legacyMsgToEthTransaction, EthTransaction.toAny, EthTransaction.typeUrl,
      EthTransaction.fields, ne_eq, hne, not_false_eq_true, if_true, C.hexToAddress_hex]
    exact decodeLegacyTxInner_fields C omitZero hsender h hlen
  | accessList tx =>
    have hurl : accessListTxUrl ≠ legacyTxUrl := by decide
    simp only [legacyMsgToEthTransaction, EthTransaction.toAny, EthTransaction.typeUrl,
      EthTransaction.fields, ne_eq, hne, not_false_eq_true, if_true, C.hexToAddress_hex, hurl,
      if_false]
    exact decodeAccessListTxInner_fields C omitZero hsender h hlen
  | dynamicFee tx =>
    have hurl : dynamicFeeTxUrl ≠ legacyTxUrl := by decide
    have hurl' : dynamicFeeTxUrl ≠ accessListTxUrl := by decide
    simp only [legacyMsgToEthTransaction, EthTransaction.toAny, EthTransaction.typeUrl,
      EthTransaction.fields, ne_eq, hne, not_false_eq_true, if_true, C.hexToAddress_hex, hurl,
      hurl', if_false]
    exact decodeDynamicFeeTxInner_fields C omitZero hsender h hlen

end Inner

/-! ### The message -/

theorem length_bytesFields (n : ℕ) (b : Bytes) : b.length ≤ (encodeFields (bytesFields n b)).length := by
  by_cases hb : b = []
  · rw [hb]
    exact Nat.zero_le _
  · apply length_le_encodeFields (n := n)
    unfold bytesFields
    rw [if_neg hb]
    exact List.mem_singleton_self _

theorem unmarshalAny_encodeAny {any : Any} (hlen : (encodeAny any).length < 2 ^ 63) :
    unmarshalAny (encodeAny any) = .ok any := by
  apply unmarshalAny_encodeFields hlen
  have htype : Steps AnyStep (bytesFields 1 any.typeUrl) ⟨[], []⟩ ⟨any.typeUrl, []⟩ :=
    steps_content (Any.mk · []) AnyStep.typeUrl
  have hvalue : Steps AnyStep (bytesFields 2 any.value) ⟨any.typeUrl, []⟩ any :=
    steps_content (Any.mk any.typeUrl) AnyStep.value
  exact htype.append hvalue

theorem encodeAny_ne_nil (tx : EthTransaction) : encodeAny (tx.toAny C omitZero) ≠ [] := by
  have hle := length_bytesFields 1 tx.typeUrl
  have hurl : 0 < tx.typeUrl.length := by
    cases tx with
    | legacy _ => exact (by decide : 0 < legacyTxUrl.length)
    | accessList _ => exact (by decide : 0 < accessListTxUrl.length)
    | dynamicFee _ => exact (by decide : 0 < dynamicFeeTxUrl.length)
  intro hnil
  have hlen := congrArg List.length hnil
  simp only [encodeAny, EthTransaction.toAny, length_append_encodeFields, List.length_nil] at hlen
  omega

theorem unmarshal_encodeMsg (tx : EthTransaction) {size : ℕ} (hsize : size < 2 ^ 64) (hash : Bytes)
    (sender : Address) (hlen : (encodeMsg C omitZero tx size hash sender).length < 2 ^ 63) :
    unmarshalLegacyMsgEthereumTx (encodeMsg C omitZero tx size hash sender) =
      .ok ⟨some (tx.toAny C omitZero), size, hash, C.addressHex sender⟩ := by
  have hany : (encodeAny (tx.toAny C omitZero)).length < 2 ^ 63 := by
    have hle := length_bytesFields 1 (encodeAny (tx.toAny C omitZero))
    simp only [encodeMsg, length_append_encodeFields] at hlen
    omega
  have hdata : Steps MsgStep (bytesFields 1 (encodeAny (tx.toAny C omitZero))) ⟨none, 0, [], []⟩
      ⟨some (tx.toAny C omitZero), 0, [], []⟩ := by
    unfold bytesFields
    rw [if_neg (encodeAny_ne_nil C omitZero tx)]
    exact .single (.data (unmarshalAny_encodeAny hany))
  have hsizes : Steps MsgStep (sizeFields size) ⟨some (tx.toAny C omitZero), 0, [], []⟩
      ⟨some (tx.toAny C omitZero), size, [], []⟩ := by
    unfold sizeFields
    split_ifs with h0
    · rw [h0]
      exact .nil
    · exact .single (.size hsize)
  have hhash : Steps MsgStep (bytesFields 3 hash) ⟨some (tx.toAny C omitZero), size, [], []⟩
      ⟨some (tx.toAny C omitZero), size, hash, []⟩ :=
    steps_content (LegacyMsgEthereumTx.mk _ _ · []) MsgStep.hash
  have hsender : Steps MsgStep (bytesFields 4 (C.addressHex sender))
      ⟨some (tx.toAny C omitZero), size, hash, []⟩
      ⟨some (tx.toAny C omitZero), size, hash, C.addressHex sender⟩ :=
    steps_content (LegacyMsgEthereumTx.mk _ _ _) MsgStep.sender
  exact unmarshalLegacyMsgEthereumTx_encodeFields hlen
    (hdata.append (hsizes.append (hhash.append hsender)))

/-- Every Ethereum transaction with a sender that is written in the old layout is read
back as it was; `omitZero` says whether a zero integer was written. -/
theorem legacy_round_trip (tx : EthTransaction) (h : tx.Fits) (sender : Address)
    (hsender : sender ≠ zeroAddress) (size : ℕ) (hsize : size < 2 ^ 64) (hash : Bytes)
    (hlen : (encodeMsg C omitZero tx size hash sender).length < 2 ^ 63) :
    (unmarshalLegacyMsgEthereumTx (encodeMsg C omitZero tx size hash sender) >>=
      legacyMsgToEthTransaction C.toLibs) = .ok (tx, sender) := by
  have hany : (encodeFields (tx.fields C omitZero)).length < 2 ^ 63 := by
    have h1 := length_bytesFields 2 (tx.toAny C omitZero).value
    have h2 := length_bytesFields 1 (encodeAny (tx.toAny C omitZero))
    have h3 : (encodeAny (tx.toAny C omitZero)).length = _ := length_append_encodeFields _ _
    simp only [encodeMsg, length_append_encodeFields] at hlen
    simp only [EthTransaction.toAny] at h1 h2 h3 hlen
    omega
  rw [unmarshal_encodeMsg C omitZero tx hsize hash sender hlen, ok_bind]
  exact legacyMsgToEthTransaction_toAny C omitZero hsender h hany size hash

end Back

/-- `Int.Unmarshal` on a new `Int`. -/
def unmarshalText (b : Bytes) : Except Err SdkInt :=
  match intUnmarshal decimalReader b none with
  | .ok x => .ok x
  | .error (.err e) => .error e
  | .error _ => .error (errorf "math/big: cannot unmarshal" [])

theorem unmarshalText_decimalText {x : ℤ} (h : InUint256 x) :
    unmarshalText (decimalText x) = .ok (some x) := by
  have hrange : InRange x := by
    obtain ⟨h0, h1⟩ := h
    unfold InRange intBound
    omega
  simp only [unmarshalText, intUnmarshal_marshal decimalReader hrange]

/-- Integers as decimal texts, addresses and keys as hexadecimal texts in lower case. -/
def textCodec : Codec where
  unmarshal := unmarshalText
  hexToAddress b := Hex.setBytes 20 (Hex.fromHex b)
  hexToHash b := Hex.setBytes 32 (Hex.fromHex b)
  recover _ := .error (errorf "invalid signature" [])
  marshal := decimalText
  addressHex a := ascii "0x" ++ Hex.text a.toList
  hashHex h := ascii "0x" ++ Hex.text h.toList
  unmarshal_marshal _ hx := unmarshalText_decimalText hx
  hexToAddress_hex := Hex.setBytes_fromHex_text
  hexToHash_hex := Hex.setBytes_fromHex_text
  addressHex_0x _ := List.prefix_append _ _

def sampleTx : EthTransaction :=
  .dynamicFee {
    chainID := 8878788
    nonce := 42
    gasTipCap := 0
    gasFeeCap := 1000000000
    gas := 21000
    recipient := none
    value := 1000000000000000000
    data := [0x60, 0x80]
    accessList := [⟨Vector.replicate 20 7, [Vector.replicate 32 9]⟩]
    v := 1
    r := 77
    s := 78 }

theorem sampleTx_fits : sampleTx.Fits := by
  refine ⟨by norm_num, by norm_num, ?_⟩
  decide

theorem legacy_round_trip_sample :
    (unmarshalLegacyMsgEthereumTx
        (encodeMsg textCodec true sampleTx 0 [] (Vector.replicate 20 1)) >>=
      legacyMsgToEthTransaction textCodec.toLibs) = .ok (sampleTx, Vector.replicate 20 1) :=
  legacy_round_trip textCodec true sampleTx sampleTx_fits (Vector.replicate 20 1) (by decide) 0
    (by norm_num) [] (by decide +kernel)

end Tsc.LegacyTx
