import Tsc.LegacyTx.FieldReader

/-!
# Protobuf fields as they are written

Varints, tags and fields the way protobuf writes them (`encodeProtoVarint`,
`encodeProtoBytes` and `appendVarint` of `app/legacy_ethtx_test.go`). A field written so
is a whole field, so a decoder reads back a list of written fields one by one.
-/

namespace Tsc.LegacyTx

open Go Sdk

/-! ### Varints -/

/-- The loop of `appendVarint`; a `uint64` has at most nine groups before the last. -/
def appendVarintLoop : ℕ → ℕ → Bytes
  | 0, v => [Fin.ofNat 256 v]
  | n + 1, v =>
    if 128 ≤ v then Fin.ofNat 256 (v % 128 + 128) :: appendVarintLoop n (v / 128)
    else [Fin.ofNat 256 v]

def appendVarint (v : ℕ) : Bytes := appendVarintLoop 9 v

theorem appendVarintLoop_pos (n v : ℕ) : 0 < (appendVarintLoop n v).length := by
  cases n with
  | zero => exact Nat.one_pos
  | succ n =>
    unfold appendVarintLoop
    split_ifs
    · exact Nat.succ_pos _
    · exact Nat.one_pos

/-- Seven more bits above the `7 * i` bits read. -/
theorem or_group {i val x : ℕ} (hval : val < 2 ^ (7 * i)) (hsum : val + x * 2 ^ (7 * i) < 2 ^ 64) :
    val ||| (x <<< (7 * i)) % 2 ^ 64 = val + x * 2 ^ (7 * i) := by
  rw [Nat.shiftLeft_eq, Nat.mod_eq_of_lt (by omega), Nat.or_comm, ← Nat.shiftLeft_eq,
    ← Nat.shiftLeft_add_eq_or_of_lt hval, Nat.shiftLeft_eq, Nat.add_comm]

theorem low_bits (n : ℕ) : n &&& 127 = n % 128 := Nat.and_two_pow_sub_one_eq_mod n 7

theorem varintLoop_last {i val v : ℕ} (rest : Bytes) (hi : i ≤ 9) (hv : v < 128)
    (hval : val < 2 ^ (7 * i)) (hsum : val + v * 2 ^ (7 * i) < 2 ^ 64) :
    varintLoop i val (Fin.ofNat 256 v :: rest) = (val + v * 2 ^ (7 * i), i + 1) := by
  have hbyte : (Fin.ofNat 256 v).val = v := Nat.mod_eq_of_lt (by omega)
  unfold varintLoop
  dsimp only
  rw [hbyte, low_bits, Nat.mod_eq_of_lt hv, or_group hval hsum, if_pos (by omega), if_pos hv]

/-- On the groups of `v` the loop adds `v` above what it has read. -/
theorem varintLoop_append (n : ℕ) {i val v : ℕ} (rest : Bytes) (hi : i + n ≤ 9)
    (hv : v < 128 ^ (n + 1)) (hval : val < 2 ^ (7 * i)) (hsum : val + v * 2 ^ (7 * i) < 2 ^ 64) :
    varintLoop i val (appendVarintLoop n v ++ rest) =
      (val + v * 2 ^ (7 * i), i + (appendVarintLoop n v).length) := by
  induction n generalizing i val v with
  | zero => exact varintLoop_last rest hi (by simpa using hv) hval hsum
  | succ n ih =>
    unfold appendVarintLoop
    by_cases hbig : 128 ≤ v
    · have hbyte : (Fin.ofNat 256 (v % 128 + 128)).val = v % 128 + 128 :=
        Nat.mod_eq_of_lt (by omega)
      have hlow : (v % 128 + 128) % 128 = v % 128 := by omega
      have hpow : 2 ^ (7 * (i + 1)) = 128 * 2 ^ (7 * i) := by
        rw [Nat.mul_add, Nat.pow_add]
        ring
      have hsplit : val + v % 128 * 2 ^ (7 * i) + v / 128 * 2 ^ (7 * (i + 1)) =
          val + v * 2 ^ (7 * i) := by
        have hdiv : v * 2 ^ (7 * i) = (128 * (v / 128) + v % 128) * 2 ^ (7 * i) := by
          rw [Nat.div_add_mod]
        rw [hpow, hdiv]
        ring
      have hval' : val + v % 128 * 2 ^ (7 * i) < 2 ^ (7 * (i + 1)) := by
        have hle : v % 128 * 2 ^ (7 * i) ≤ 127 * 2 ^ (7 * i) :=
          Nat.mul_le_mul_right _ (by omega)
        rw [hpow]
        omega
      have hv' : v / 128 < 128 ^ (n + 1) := by
        rw [Nat.div_lt_iff_lt_mul (by norm_num), ← pow_succ]
        exact hv
      have hgroup := or_group (x := v % 128) hval (by omega)
      rw [if_pos hbig, List.cons_append]
      unfold varintLoop
      dsimp only
      rw [hbyte, low_bits, hlow, hgroup, if_pos (by omega), if_neg (by omega),
        ih (by omega) hv' hval' (by omega), hsplit, List.length_cons, Nat.add_right_comm,
        Nat.add_assoc]
    · rw [if_neg hbig]
      exact varintLoop_last rest (by omega) (by omega) hval hsum

theorem protoDecodeVarint_append {v : ℕ} (hv : v < 2 ^ 64) (rest : Bytes) :
    protoDecodeVarint (appendVarint v ++ rest) = (v, (appendVarint v).length) := by
  have h := @varintLoop_append 9 0 0 v rest (le_refl 9) (hv.trans (by norm_num)) Nat.one_pos
    (by simpa using hv)
  simpa [protoDecodeVarint, appendVarint] using h

theorem isVarint_appendVarint {v : ℕ} (hv : v < 2 ^ 64) : IsVarint (appendVarint v) := by
  have hread := protoDecodeVarint_append hv []
  rw [List.append_nil] at hread
  have hpos : (protoDecodeVarint (appendVarint v)).2 ≠ 0 := by
    rw [hread]
    exact (appendVarintLoop_pos 9 v).ne'
  obtain ⟨b, rest, hsplit, hb⟩ := exists_isVarint hpos
  -- the varint at the front is as long as what was read
  have hlen : b.length = (appendVarint v).length := by
    rw [hsplit, hb.decode] at hread
    exact (congrArg Prod.snd hread).trans (congrArg List.length hsplit.symm)
  have hrest : rest = [] := by
    rw [hsplit, List.length_append] at hlen
    exact List.eq_nil_of_length_eq_zero (by omega)
  rwa [hsplit, hrest, List.append_nil]

theorem varintValue_appendVarint {v : ℕ} (hv : v < 2 ^ 64) : varintValue (appendVarint v) = v := by
  have hread := protoDecodeVarint_append hv []
  rw [List.append_nil] at hread
  exact congrArg Prod.fst hread

/-! ### Fields -/

/-- A field as it is written. -/
inductive WireField where
  | varint (num value : ℕ)
  | fixed64 (num value : ℕ)
  | bytes (num : ℕ) (content : Bytes)

namespace WireField

def num : WireField → ℕ
  | varint n _ => n
  | fixed64 n _ => n
  | bytes n _ => n

def wireType : WireField → ℕ
  | varint .. => 0
  | fixed64 .. => 1
  | bytes .. => 2

def payload : WireField → Bytes
  | varint _ v => appendVarint v
  | fixed64 _ v => (beBytes 8 v).reverse
  | bytes _ b => appendVarint b.length ++ b

def encode (f : WireField) : Bytes := appendVarint (8 * f.num + f.wireType) ++ f.payload

/-- The number, and the value or the length, are in the range of what is written. -/
def Fits (f : WireField) : Prop :=
  f.num < 2 ^ 60 ∧
    match f with
    | varint _ v => v < 2 ^ 64
    | fixed64 _ _ => True
    | bytes _ b => b.length < 2 ^ 64

theorem tag_lt {f : WireField} (h : f.num < 2 ^ 60) : 8 * f.num + f.wireType < 2 ^ 64 := by
  have hwire : f.wireType < 8 := by cases f <;> simp [wireType]
  omega

theorem isPayload_payload {f : WireField} (h : f.Fits) : IsPayload f.wireType f.payload := by
  obtain ⟨-, h⟩ := h
  cases f with
  | varint n v => exact .varint (isVarint_appendVarint h)
  | fixed64 n v =>
    refine .fixed64 ?_
    rw [payload, List.length_reverse, beBytes_length]
  | bytes n b => exact .bytes (isVarint_appendVarint h) (varintValue_appendVarint h).symm

theorem tag_mod (f : WireField) : (8 * f.num + f.wireType) % 8 = f.wireType := by
  have hwire : f.wireType < 8 := by cases f <;> simp [wireType]
  omega

def whole (f : WireField) (h : f.Fits) : WholeField where
  tag := appendVarint (8 * f.num + f.wireType)
  payload := f.payload
  isVarint := isVarint_appendVarint (tag_lt h.1)
  isPayload := by
    rw [varintValue_appendVarint (tag_lt h.1), tag_mod]
    exact isPayload_payload h

theorem step_whole {σ : Type} (R : FieldReader σ) (s : σ) {f : WireField} (h : f.Fits) :
    R.step s (f.whole h) = R.apply f.num f.wireType f.payload s := by
  have htag : varintValue (f.whole h).tag = 8 * f.num + f.wireType :=
    varintValue_appendVarint (tag_lt h.1)
  have hmod := f.tag_mod
  have hdiv : (8 * f.num + f.wireType) / 8 = f.num := by omega
  unfold FieldReader.step WholeField.num WholeField.wireType
  rw [htag, hmod, hdiv]
  rfl

end WireField

def encodeFields (fs : List WireField) : Bytes := fs.flatMap WireField.encode

theorem length_le_of_mem {f : WireField} {fs : List WireField} (h : f ∈ fs) :
    f.encode.length ≤ (encodeFields fs).length := by
  unfold encodeFields
  rw [List.length_flatMap]
  exact List.le_sum_of_mem (List.mem_map_of_mem h)

/-- A reader that takes the steps `S` at written fields makes all of them. -/
theorem call_encodeFields {σ : Type} (R : FieldReader σ) (bad : String)
    {S : WireField → σ → σ → Prop} {fs : List WireField} (hdata : (encodeFields fs).length < 2 ^ 63)
    (hS : ∀ f s s', S f s s' → f.encode.length < 2 ^ 63 →
      f.Fits ∧ R.apply f.num f.wireType f.payload s = some s')
    {s s' : σ} (h : Steps S fs s s') : (R.loop bad (encodeFields fs)).call s = .ok s' := by
  have hwhole : ∃ ws, wholeBytes ws = encodeFields fs ∧ ws.foldlM R.step s = some s' := by
    have hlen : ∀ f ∈ fs, f.encode.length < 2 ^ 63 := fun f hf => (length_le_of_mem hf).trans_lt hdata
    clear hdata
    induction h with
    | nil => exact ⟨[], rfl, rfl⟩
    | @cons f fs s s₁ s' hf _ ih =>
      obtain ⟨hflen, hlen⟩ := List.forall_mem_cons.mp hlen
      obtain ⟨ws, hbytes, hsteps⟩ := ih hlen
      obtain ⟨hfits, happly⟩ := hS f s s₁ hf hflen
      refine ⟨f.whole hfits :: ws, ?_, ?_⟩
      · rw [wholeBytes_cons, hbytes]
        rfl
      · rw [List.foldlM_cons, WireField.step_whole, happly]
        exact hsteps
  obtain ⟨ws, hbytes, hsteps⟩ := hwhole
  rw [← hbytes] at hdata ⊢
  exact (R.call_wholeBytes bad hdata s s').mpr hsteps

/-! ### Flat messages -/

/-- What the loop over the fields of a flat message does with a written field. -/
inductive FieldStep {σ : Type} (fields : ℕ → Option (Field σ)) : WireField → σ → σ → Prop
  | varint {n v : ℕ} {tx : σ} {name : String} {set : ℕ → σ → σ} (hn : n < 2 ^ 60) (hv : v < 2 ^ 64)
      (hfield : fields n = some (.varint name set)) : FieldStep fields (.varint n v) tx (set v tx)
  | bytes {n : ℕ} {b : Bytes} {tx tx' : σ} {name : String} {set : Bytes → σ → Out σ}
      (hn : n < 2 ^ 60) (hfield : fields n = some (.content name set)) (hset : set b tx = .ok tx') :
      FieldStep fields (.bytes n b) tx tx'

theorem fits_bytes {n : ℕ} {b : Bytes} (hn : n < 2 ^ 60)
    (h : (WireField.bytes n b).encode.length < 2 ^ 63) : (WireField.bytes n b).Fits := by
  unfold WireField.encode WireField.payload at h
  rw [List.length_append, List.length_append] at h
  exact ⟨hn, show b.length < 2 ^ 64 by omega⟩

theorem payloadContent_payload {n : ℕ} {b : Bytes} (h : (WireField.bytes n b).Fits) :
    payloadContent (WireField.bytes n b).payload = b :=
  payloadContent_append (isVarint_appendVarint h.2) b

theorem FieldStep.applies {σ : Type} {fields : ℕ → Option (Field σ)} {f : WireField} {tx tx' : σ}
    (hstep : FieldStep fields f tx tx') (hlen : f.encode.length < 2 ^ 63) :
    f.Fits ∧ applyField (fields f.num) f.wireType f.payload tx = some tx' := by
  cases hstep with
  | @varint n v _ name set hn hv hfield =>
    refine ⟨⟨hn, hv⟩, ?_⟩
    unfold applyField
    rw [show fields (WireField.varint n v).num = _ from hfield]
    exact congrArg (fun v => some (set v tx)) (varintValue_appendVarint hv)
  | @bytes n b _ _ name set hn hfield hset =>
    have hfits := fits_bytes hn hlen
    refine ⟨hfits, ?_⟩
    unfold applyField
    rw [show fields (WireField.bytes n b).num = _ from hfield, payloadContent_payload hfits]
    exact congrArg Except.toOption hset

theorem fieldsLoop_encodeFields {σ : Type} {fields : ℕ → Option (Field σ)} {fs : List WireField}
    {tx tx' : σ} (hdata : (encodeFields fs).length < 2 ^ 63)
    (h : Steps (FieldStep fields) fs tx tx') (bad : String) :
    (fieldsLoop bad fields (encodeFields fs)).call tx = .ok tx' :=
  call_encodeFields (tableReader fields) bad hdata (fun _ _ _ hstep hlen => hstep.applies hlen) h

section Written

variable {σ : Type} {fields : ℕ → Option (Field σ)} {n : ℕ} {tx tx' : σ} {name : String}

/-- A scalar that is written only if it is not zero. -/
def varintFields (n v : ℕ) : List WireField := if v = 0 then [] else [.varint n v]

/-- Bytes that are written only if there are some. -/
def bytesFields (n : ℕ) (b : Bytes) : List WireField := if b = [] then [] else [.bytes n b]

theorem steps_varintFields {v : ℕ} {set : ℕ → σ → σ}
    (hfield : fields n = some (.varint name set)) (hn : n < 2 ^ 60) (hv : v < 2 ^ 64)
    (hzero : set 0 tx = tx) (hset : set v tx = tx') :
    Steps (FieldStep fields) (varintFields n v) tx tx' := by
  unfold varintFields
  rw [← hset]
  split_ifs with h0
  · rw [h0, hzero]
    exact .nil
  · exact .single (.varint hn hv hfield)

/-- `put` is the record with the content open. -/
theorem steps_content {R : WireField → σ → σ → Prop} {b : Bytes} (put : Bytes → σ)
    (h : R (.bytes n b) (put []) (put b)) : Steps R (bytesFields n b) (put []) (put b) := by
  unfold bytesFields
  split_ifs with hnil
  · rw [hnil]
    exact .nil
  · exact .single h

theorem steps_bytesFields {b : Bytes} {set : Bytes → σ → σ} (hfield : fields n = bytesField name set)
    (hn : n < 2 ^ 60) (hnil : set [] tx = tx) (hset : set b tx = tx') :
    Steps (FieldStep fields) (bytesFields n b) tx tx' := by
  have hstep : FieldStep fields (.bytes n b) (set [] tx) (set b tx) := by
    rw [hnil]
    exact .bytes hn hfield rfl
  have hsteps := steps_content (fun b => set b tx) hstep
  rwa [hnil, hset] at hsteps

end Written

/-! ### The other two messages -/

inductive AnyStep : WireField → Any → Any → Prop
  | typeUrl {b : Bytes} {any : Any} : AnyStep (.bytes 1 b) any { any with typeUrl := b }
  | value {b : Bytes} {any : Any} : AnyStep (.bytes 2 b) any { any with value := b }

theorem AnyStep.applies {f : WireField} {any any' : Any} (hstep : AnyStep f any any')
    (hlen : f.encode.length < 2 ^ 63) :
    f.Fits ∧ applyAny f.num f.wireType f.payload any = some any' := by
  cases hstep with
  | typeUrl =>
    have hfits := fits_bytes (by norm_num) hlen
    exact ⟨hfits, congrArg (fun typeUrl => some (Any.mk typeUrl _)) (payloadContent_payload hfits)⟩
  | value =>
    have hfits := fits_bytes (by norm_num) hlen
    exact ⟨hfits, congrArg (fun value => some (Any.mk _ value)) (payloadContent_payload hfits)⟩

theorem unmarshalAny_encodeFields {fs : List WireField} {any : Any}
    (hdata : (encodeFields fs).length < 2 ^ 63) (h : Steps AnyStep fs ⟨[], []⟩ any) :
    unmarshalAny (encodeFields fs) = .ok any :=
  call_encodeFields anyReader _ hdata (fun _ _ _ hstep hlen => hstep.applies hlen) h

inductive MsgStep : WireField → LegacyMsgEthereumTx → LegacyMsgEthereumTx → Prop
  | data {b : Bytes} {any : Any} {msg : LegacyMsgEthereumTx} (hany : unmarshalAny b = .ok any) :
      MsgStep (.bytes 1 b) msg { msg with data := some any }
  | size {v : ℕ} {msg : LegacyMsgEthereumTx} (hv : v < 2 ^ 64) :
      MsgStep (.fixed64 2 v) msg { msg with size := v }
  | hash {b : Bytes} {msg : LegacyMsgEthereumTx} : MsgStep (.bytes 3 b) msg { msg with hash := b }
  | sender {b : Bytes} {msg : LegacyMsgEthereumTx} :
      MsgStep (.bytes 4 b) msg { msg with sender := b }

theorem MsgStep.applies {f : WireField} {msg msg' : LegacyMsgEthereumTx}
    (hstep : MsgStep f msg msg') (hlen : f.encode.length < 2 ^ 63) :
    f.Fits ∧ applyMsg f.num f.wireType f.payload msg = some msg' := by
  cases hstep with
  | @data b any _ hany =>
    have hfits := fits_bytes (by norm_num) hlen
    refine ⟨hfits, ?_⟩
    show (unmarshalAny (payloadContent (WireField.bytes 1 b).payload)).toOption.map _ = _
    rw [payloadContent_payload hfits, hany]
    rfl
  | @size v _ hv =>
    have hread : beVal (WireField.fixed64 2 v).payload.reverse = v := by
      unfold WireField.payload
      rw [List.reverse_reverse, beVal_beBytes, Nat.mod_eq_of_lt (by simpa using hv)]
    refine ⟨⟨by norm_num [WireField.num], trivial⟩, ?_⟩
    show some { msg with size := beVal (WireField.fixed64 2 v).payload.reverse } = _
    rw [hread]
  | @hash b =>
    have hfits := fits_bytes (by norm_num) hlen
    refine ⟨hfits, ?_⟩
    show some { msg with hash := payloadContent (WireField.bytes 3 b).payload } = _
    rw [payloadContent_payload hfits]
  | @sender b =>
    have hfits := fits_bytes (by norm_num) hlen
    refine ⟨hfits, ?_⟩
    show some { msg with sender := payloadContent (WireField.bytes 4 b).payload } = _
    rw [payloadContent_payload hfits]

theorem unmarshalLegacyMsgEthereumTx_encodeFields {fs : List WireField} {msg : LegacyMsgEthereumTx}
    (hdata : (encodeFields fs).length < 2 ^ 63) (h : Steps MsgStep fs ⟨none, 0, [], []⟩ msg) :
    unmarshalLegacyMsgEthereumTx (encodeFields fs) = .ok msg :=
  call_encodeFields msgReader _ hdata (fun _ _ _ hstep hlen => hstep.applies hlen) h

end Tsc.LegacyTx
