import Tsc.LegacyTx.Proto
import Tsc.LegacyTx.RoundTrip

/-!
# The legacy-aware transaction decoder (`app/legacy_ethtx.go:105-191`)

`LegacyAwareTxDecoder` falls back to `decodeLegacyEthTx` when the standard decoder
fails with certain texts or leaves an Ethereum message empty. The fallback reads the
bytes again, takes one value out of them and returns a transaction with one message,
whatever else the body holds.
-/

namespace Tsc.LegacyTx

open Go Sdk

/-- `evmtypes.MsgEthereumTx`: the transaction in `Raw`, and `From`. -/
structure MsgEthereumTx where
  raw : Option EthTransaction
  sender : Bytes
  deriving DecidableEq

inductive SdkMsg where
  | ethereumTx (msg : MsgEthereumTx)
  | other (typeUrl value : Bytes)
  deriving DecidableEq

/-- `sdk.Tx`, of which only `GetMsgs` is used. -/
structure SdkTx where
  msgs : List SdkMsg
  deriving DecidableEq

/-- `client.TxConfig`: a new builder, `SetMsgs` with one message, and `GetTx`. -/
structure TxConfig where
  setMsgs : MsgEthereumTx → Out SdkTx
  setMsgs_msgs : ∀ msg tx, setMsgs msg = .ok tx → tx.msgs = [.ethereumTx msg]

/-- The standard decoder; an error is its text. -/
abbrev TxDecoder := Bytes → Except Bytes SdkTx

section Decoder

variable (L : Libs) (txConfig : TxConfig) (original : TxDecoder)

def decodeLegacyEthTx (txBytes : Bytes) : Out SdkTx := do
  let rawMsgBytes ← wrapErr .plain "legacy eth tx: failed to extract msg bytes: %w"
    (extractMsgAnyValue txBytes)
  let legacyMsg ← wrapErr .plain "legacy eth tx: failed to decode old format: %w"
    (unmarshalLegacyMsgEthereumTx rawMsgBytes)
  let (ethTx, sender) ← wrapErr .plain "legacy eth tx: failed to convert: %w"
    (legacyMsgToEthTransaction L legacyMsg)
  wrapErr .plain "legacy eth tx: failed to set msgs: %w"
    (txConfig.setMsgs ⟨some ethTx, sender.toList⟩)

/-- The test of the error's text. -/
def mentionsLegacy (text : Bytes) : Prop :=
  ascii "MsgEthereumTx" <:+: text ∨ ascii "unknown field" <:+: text ∨
    ascii "errUnknownField" <:+: text

instance (text : Bytes) : Decidable (mentionsLegacy text) := by
  unfold mentionsLegacy; infer_instance

def SdkMsg.isEmptyEthereumTx : SdkMsg → Bool
  | .ethereumTx msg => msg.raw = none ∧ msg.sender.length = 0
  | .other _ _ => false

def needsConversion (msgs : List SdkMsg) : Bool := msgs.any SdkMsg.isEmptyEthereumTx

def legacyAwareTxDecoder (txBytes : Bytes) : Out SdkTx :=
  match original txBytes with
  | .error text =>
    if mentionsLegacy text then decodeLegacyEthTx L txConfig txBytes
    else .error (.err (errorf "%s" [.str text]))
  | .ok tx =>
    if needsConversion tx.msgs then decodeLegacyEthTx L txConfig txBytes else .ok tx

/-- The two ways into the fallback. -/
inductive FallsBack (txBytes : Bytes) : Prop
  | error {text : Bytes} (h : original txBytes = .error text) (htext : mentionsLegacy text)
  | empty {tx : SdkTx} (h : original txBytes = .ok tx) (hempty : needsConversion tx.msgs = true)

theorem legacyAwareTxDecoder_of_fallsBack {txBytes : Bytes} (h : FallsBack original txBytes) :
    legacyAwareTxDecoder L txConfig original txBytes = decodeLegacyEthTx L txConfig txBytes := by
  unfold legacyAwareTxDecoder
  cases h with
  | error h htext =>
    rw [h]
    exact if_pos htext
  | empty h hempty =>
    rw [h]
    exact if_pos hempty

/-! ### What the fallback converts -/

/-- The transaction and the sender that the bytes of an old message stand for. -/
def oldMessage (value : Bytes) : Out (EthTransaction × Address) :=
  unmarshalLegacyMsgEthereumTx value >>= legacyMsgToEthTransaction L

theorem decodeLegacyEthTx_ok {txBytes : Bytes} {tx : SdkTx}
    (h : decodeLegacyEthTx L txConfig txBytes = .ok tx) :
    ∃ raw ethTx sender, extractMsgAnyValue txBytes = .ok raw ∧
      oldMessage L raw = .ok (ethTx, sender) ∧
      tx.msgs = [.ethereumTx ⟨some ethTx, sender.toList⟩] := by
  simp only [decodeLegacyEthTx, bind_eq_ok, wrapErr_eq_ok] at h
  obtain ⟨raw, hraw, msg, hmsg, ⟨ethTx, sender⟩, hconvert, hset⟩ := h
  refine ⟨raw, ethTx, sender, hraw, ?_, txConfig.setMsgs_msgs _ tx hset⟩
  simp only [oldMessage, bind_eq_ok]
  exact ⟨msg, hmsg, hconvert⟩

def msgEthereumTxUrl : Bytes := ascii "/cosmos.evm.vm.v1.MsgEthereumTx"

/-- A message of the returned transaction is the conversion of a message of the body. -/
def Converts (m : BodyMessage) (msg : SdkMsg) : Prop :=
  ∃ ethTx sender, oldMessage L m.value = .ok (ethTx, sender) ∧
    msg = .ethereumTx ⟨some ethTx, sender.toList⟩

/-- The messages of the transaction are those of the body in the bytes, one by one and in
order, and all of these are Ethereum messages. -/
def ConvertsBody (txBytes : Bytes) (tx : SdkTx) : Prop :=
  ∃ ms, bodyMessages txBytes = some ms ∧ List.Forall₂ (Converts L) ms tx.msgs ∧
    ∀ m ∈ ms, m.typeUrl = msgEthereumTxUrl

/-- The body holds one message, an Ethereum message. Should its value be given more than
once, the first, which the extractor takes, and the last, which counts, are the same
old message. -/
def OneEthereumMessage (txBytes : Bytes) : Prop :=
  ∃ m, bodyMessages txBytes = some [m] ∧ m.typeUrl = msgEthereumTxUrl ∧
    oldMessage L (m.values.head?.getD []) = oldMessage L m.value

/-- A transaction returned through the fallback is the one in the bytes exactly if these
hold one message, an Ethereum message. -/
theorem fallback_converts_iff (txBytes : Bytes) (hlen : txBytes.length < 2 ^ 63)
    (hfall : FallsBack original txBytes) (tx : SdkTx)
    (h : legacyAwareTxDecoder L txConfig original txBytes = .ok tx) :
    ConvertsBody L txBytes tx ↔ OneEthereumMessage L txBytes := by
  rw [legacyAwareTxDecoder_of_fallsBack L txConfig original hfall] at h
  obtain ⟨raw, ethTx, sender, hraw, hold, hmsgs⟩ := decodeLegacyEthTx_ok L txConfig h
  constructor
  · intro hbody
    obtain ⟨ms, hms, hpairs, hurl⟩ := hbody
    obtain ⟨m, rest, rfl, hfirst⟩ := extractMsgAnyValue_first hlen hraw hms
    rw [hmsgs] at hpairs
    cases hpairs with
    | cons hconvert hrest =>
      cases hrest
      obtain ⟨ethTx', sender', hold', hmsg⟩ := hconvert
      simp only [SdkMsg.ethereumTx.injEq, MsgEthereumTx.mk.injEq, Option.some.injEq,
        Vector.toList_inj] at hmsg
      refine ⟨m, hms, hurl m (List.mem_cons_self ..), ?_⟩
      rw [hfirst, Option.getD_some, hold, hold', hmsg.1, hmsg.2]
  · intro hone
    obtain ⟨m, hms, hurl, hsame⟩ := hone
    obtain ⟨m', rest, hcons, hfirst⟩ := extractMsgAnyValue_first hlen hraw hms
    cases hcons
    rw [hfirst, Option.getD_some, hold] at hsame
    refine ⟨[m], hms, ?_, by simpa using hurl⟩
    rw [hmsgs]
    exact .cons ⟨ethTx, sender, hsame.symm, rfl⟩ .nil

end Decoder

/-- A transfer of 5 in the old layout. -/
def oldTransfer : Bytes :=
  encodeMsg textCodec true (.legacy {
    nonce := 7
    gasPrice := 1
    gas := 21000
    recipient := some (Vector.replicate 20 2)
    value := 5
    data := []
    v := 27
    r := 1
    s := 1 }) 0 [] (Vector.replicate 20 1)

def encodeTx (messages : List Any) : Bytes :=
  encodeFields [.bytes 1 (encodeFields (messages.map fun any => .bytes 1 (encodeAny any)))]

def transferTx : Bytes := encodeTx [⟨msgEthereumTxUrl, oldTransfer⟩]

def transferAndSendTx : Bytes :=
  encodeTx [⟨msgEthereumTxUrl, oldTransfer⟩, ⟨ascii "/cosmos.bank.v1beta1.MsgSend", [10, 1, 97]⟩]

def Payload.wireType : Payload → Bytes
  | .varint _ => ascii "varint"
  | .fixed b => if b.length = 8 then ascii "fixed64" else ascii "fixed32"
  | .content _ => ascii "bytes"
  | .group => ascii "start_group"

/-- The first field of an Ethereum message that the new schema reserves. -/
def reservedField (m : BodyMessage) : Option (ℕ × Payload) :=
  if m.typeUrl = msgEthereumTxUrl then
    ((wireFields m.value).getD []).find? fun f => 1 ≤ f.1 ∧ f.1 ≤ 4
  else none

/-- The text of `RejectUnknownFields`. -/
def errUnknownField (num : ℕ) (wireType : Bytes) : Bytes :=
  ascii "errUnknownField \"*types.MsgEthereumTx\": \x7bTagNum: " ++ decimalText num ++
    ascii ", WireType:\"" ++ wireType ++ ascii "\"\x7d: tx parse error"

/-- A standard decoder: it refuses reserved fields, and keeps the messages of other bodies
as they are. -/
def strictDecoder : TxDecoder := fun txBytes =>
  match bodyMessages txBytes with
  | none => .error (ascii "tx parse error")
  | some ms =>
    match ms.findSome? reservedField with
    | some f => .error (errUnknownField f.1 f.2.wireType)
    | none => .ok ⟨ms.map fun m => .other m.typeUrl m.value⟩

def plainBuilder : TxConfig where
  setMsgs msg := .ok ⟨[.ethereumTx msg]⟩
  setMsgs_msgs := by
    intro msg tx h
    cases h
    rfl

/-- A body with an Ethereum message and a bank message loses the second. -/
theorem fallback_drops_message :
    FallsBack strictDecoder transferAndSendTx ∧
      ∃ tx, legacyAwareTxDecoder textCodec.toLibs plainBuilder strictDecoder transferAndSendTx =
          .ok tx ∧
        ¬ ConvertsBody textCodec.toLibs transferAndSendTx tx := by
  have hrefused : strictDecoder transferAndSendTx = .error (errUnknownField 1 (ascii "bytes")) := by
    decide +kernel
  have hfall := FallsBack.error hrefused (by decide +kernel)
  have hok : (legacyAwareTxDecoder textCodec.toLibs plainBuilder strictDecoder
    transferAndSendTx).isOk = true := by decide +kernel
  have htwo : (bodyMessages transferAndSendTx).map List.length = some 2 := by decide +kernel
  obtain ⟨tx, hr⟩ := exists_of_isOk hok
  refine ⟨hfall, tx, hr, ?_⟩
  intro hbody
  obtain ⟨ms, hms, hpairs, _⟩ := hbody
  rw [legacyAwareTxDecoder_of_fallsBack _ _ _ hfall] at hr
  obtain ⟨_, _, _, _, _, hmsgs⟩ := decodeLegacyEthTx_ok _ _ hr
  have hlen := hpairs.length_eq
  rw [hms, Option.map_some, Option.some.injEq] at htwo
  rw [hmsgs, List.length_singleton] at hlen
  omega

theorem fallback_converts_transfer :
    ∃ tx, legacyAwareTxDecoder textCodec.toLibs plainBuilder strictDecoder transferTx = .ok tx ∧
      ConvertsBody textCodec.toLibs transferTx tx := by
  have hrefused : strictDecoder transferTx = .error (errUnknownField 1 (ascii "bytes")) := by
    decide +kernel
  have hfall := FallsBack.error hrefused (by decide +kernel)
  have hok : (legacyAwareTxDecoder textCodec.toLibs plainBuilder strictDecoder
    transferTx).isOk = true := by decide +kernel
  have hone : bodyMessages transferTx = some [⟨msgEthereumTxUrl, [oldTransfer]⟩] := by
    decide +kernel
  have hlen : transferTx.length < 2 ^ 63 := by decide +kernel
  obtain ⟨tx, hr⟩ := exists_of_isOk hok
  refine ⟨tx, hr, (fallback_converts_iff _ _ _ transferTx hlen hfall tx hr).mpr ?_⟩
  exact ⟨⟨msgEthereumTxUrl, [oldTransfer]⟩, hone, rfl, rfl⟩

end Tsc.LegacyTx
