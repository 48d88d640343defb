import Tsc.LegacyTx.WholeFields

/-!
# What a decoder does with a field

Each decoder is a loop over tags with its own treatment of what stands behind a tag. A
`FieldReader` is such a treatment together with the two facts the results on whole
inputs rest on: a whole field changes the record as `apply` says and the cursor goes
on behind it, and a field that is not only passed over is checked to be whole.
-/

namespace Tsc.LegacyTx

open Go Sdk

variable {σ : Type} {data : Bytes}

/-! ### Reading back from a successful read -/

theorem failIf_bind_eq_ok {α : Type} {c : Prop} [Decidable c] {e : Fault Err} {f : Unit → Out α}
    {b : α} (h : (failIf c e >>= f) = .ok b) : ¬ c ∧ f () = .ok b := by
  obtain ⟨u, hc, hf⟩ := (bind_eq_ok _ _ _).mp h
  exact ⟨(failIf_eq_ok _ _ _).mp hc, hf⟩

section Checked

variable {j : ℕ}

theorem sliceFrom_eq_ok {rest : Bytes} (h : sliceFrom data j = .ok rest) :
    j ≤ data.length ∧ rest = data.drop j := by
  unfold sliceFrom at h
  split_ifs at h with hj
  cases h
  exact ⟨by omega, by rw [Int.toNat_natCast]⟩

theorem StandsAt.of_drop_zero {b : Bytes} (hj : j ≤ data.length) (h : StandsAt (data.drop j) b 0) :
    StandsAt data b j := by
  obtain ⟨post, hdrop⟩ := h.drop_eq
  rw [List.drop_zero] at hdrop
  exact .of_drop hj hdrop

theorem decodeVarintAt_checked {v n : ℕ} (h : decodeVarintAt data j = .ok (v, n)) (hn : n ≠ 0) :
    ∃ b, IsVarint b ∧ StandsAt data b j ∧ v = varintValue b ∧ n = b.length := by
  unfold decodeVarintAt at h
  obtain ⟨rest, hrest, h⟩ := (bind_eq_ok _ _ _).mp h
  obtain ⟨hj, rfl⟩ := sliceFrom_eq_ok hrest
  have hread := Except.ok.inj h
  have hvarint : (protoDecodeVarint (data.drop j)).2 ≠ 0 := by
    rw [hread]
    exact hn
  obtain ⟨b, post, hdrop, hb⟩ := exists_isVarint hvarint
  rw [hdrop, hb.decode] at hread
  exact ⟨b, hb, .of_drop hj hdrop, (congrArg Prod.fst hread).symm, (congrArg Prod.snd hread).symm⟩

/-- If the length is there and the data is long enough, the content is there. -/
theorem exists_bytes {size : Bytes} (hsize : IsVarint size) (h : StandsAt data size j)
    (hle : j + size.length + varintValue size ≤ data.length) :
    ∃ p, IsPayload 2 p ∧ StandsAt data p j := by
  have hj := h.le
  obtain ⟨post, hdrop⟩ := h.drop_eq
  have hlen := congrArg List.length hdrop
  rw [List.length_drop, List.length_append] at hlen
  refine ⟨size ++ post.take (varintValue size), .bytes hsize ?_, ?_⟩
  · rw [List.length_take]
    omega
  · have hcut : data.drop j =
        size ++ post.take (varintValue size) ++ post.drop (varintValue size) := by
      rw [hdrop, List.append_assoc, List.take_append_drop]
    exact .of_drop (by omega) hcut

variable (hdata : data.length < 2 ^ 63)
include hdata

theorem StandsAt.wrap_end {b : Bytes} (h : StandsAt data b j) :
    wrap64 ((j : ℤ) + (b.length : ℕ)) = (j + b.length : ℕ) := by
  have hle := h.le
  rw [← Nat.cast_add, wrap64_natCast (by omega)]

theorem StandsAt.wrap_fixed {b : Bytes} {size : ℕ} (h : StandsAt data b j) (hb : b.length = size) :
    wrap64 ((j : ℤ) + size) = (j + b.length : ℕ) := by
  rw [← hb]
  exact h.wrap_end hdata

theorem readTag_checked {bad : String} {i : ℕ} {f w : ℕ} {k : ℤ}
    (h : readTag bad data i = .ok (f, w, k)) :
    ∃ tag, IsVarint tag ∧ StandsAt data tag i ∧ f = varintValue tag / 8 ∧ w = varintValue tag % 8 ∧
      k = (i + tag.length : ℕ) := by
  unfold readTag at h
  obtain ⟨⟨v, n⟩, hread, h⟩ := (bind_eq_ok _ _ _).mp h
  obtain ⟨hn, h⟩ := failIf_bind_eq_ok h
  obtain ⟨tag, htag, hat, rfl, rfl⟩ := decodeVarintAt_checked hread hn
  have hle := hat.le
  cases h
  refine ⟨tag, htag, hat, rfl, rfl, ?_⟩
  rw [← Nat.cast_add, wrap64_natCast (by omega)]

/-- A length whose content was then sliced is that of a whole payload. -/
theorem readEnd_checked {bad : Err} {start stop : ℤ} {content : Bytes}
    (h : readEnd bad data j = .ok (start, stop)) (hslice : slice data start stop = .ok content) :
    ∃ p, IsPayload 2 p ∧ StandsAt data p j := by
  unfold readEnd at h
  obtain ⟨⟨v, n⟩, hread, h⟩ := (bind_eq_ok _ _ _).mp h
  obtain ⟨hn, h⟩ := failIf_bind_eq_ok h
  obtain ⟨size, hsize, hat, rfl, rfl⟩ := decodeVarintAt_checked hread hn
  have hle := hat.le
  have hlt := varintValue_lt size
  dsimp only at h
  rw [← Nat.cast_add, wrap64_natCast (by omega)] at h
  obtain ⟨hstop, h⟩ := failIf_bind_eq_ok h
  cases h
  unfold slice at hslice
  split_ifs at hslice with hin
  have hfit := (slice_end_iff (j + size.length : ℕ) data.length (varintValue size) (by omega)
    (by omega) (by omega) hlt).mp fun _ => hin.2.1
  rw [wrap64_add_wrap64, wrap64_of_range (by omega)] at hstop
  exact exists_bytes hsize hat (by omega)

theorem readLenDelimited_checked {rest content : Bytes} {n : ℤ}
    (hrest : sliceFrom data j = .ok rest) (h : readLenDelimited rest = .ok (content, n)) :
    ∃ p, IsPayload 2 p ∧ StandsAt data p j := by
  obtain ⟨hj, rfl⟩ := sliceFrom_eq_ok hrest
  have hlen : (data.drop j).length < 2 ^ 63 := by
    rw [List.length_drop]
    omega
  rw [readLenDelimited_eq_readEnd hlen] at h
  obtain ⟨⟨start, stop⟩, hread, h⟩ := (bind_eq_ok _ _ _).mp h
  obtain ⟨b, hslice, -⟩ := (bind_eq_ok _ _ _).mp h
  obtain ⟨p, hp, hat⟩ := readEnd_checked hlen hread hslice
  exact ⟨p, hp, hat.of_drop_zero hj⟩

end Checked

/-! ### Readers -/

/-- What a decoder does behind a tag: `apply` is what a whole field does to the record,
`skips` are the fields it only passes over. -/
structure FieldReader (σ : Type) where
  field : Bytes → ℕ → ℕ → ℤ → σ → Out (Jump σ σ)
  apply : ℕ → ℕ → Bytes → σ → Option σ
  skips : ℕ → ℕ → Prop
  whole : ∀ {data p : Bytes} {n w j : ℕ} {s : σ} {jump : Jump σ σ}, data.length < 2 ^ 63 →
    IsPayload w p → StandsAt data p j → (field data n w j s = .ok jump ↔
      ∃ s', apply n w p s = some s' ∧ jump = .next (j + p.length : ℕ) s')
  checked : ∀ {data : Bytes} {n w j : ℕ} {s : σ} {jump : Jump σ σ}, data.length < 2 ^ 63 →
    ¬ skips n w → field data n w j s = .ok jump → ∃ p, IsPayload w p ∧ StandsAt data p j
  idle : ∀ {n w : ℕ} {p : Bytes} {s : σ}, skips n w → apply n w p s = some s

/-- The numbers outside a layout of the fields `1` to `last`. -/
def outside (last fieldNum : ℕ) : Prop := fieldNum = 0 ∨ last < fieldNum

namespace FieldReader

variable (R : FieldReader σ)

/-- The loop over the tags. -/
def loop (bad : String) (data : Bytes) : CursorLoop Err σ σ where
  len := data.length
  body i s := do
    let (fieldNum, wireType, i) ← readTag bad data i
    R.field data fieldNum wireType i s
  done s := .ok s
  done_settles _ := settles_ok _

def step (s : σ) (f : WholeField) : Option σ := R.apply f.num f.wireType f.payload s

theorem body_eq_ok_iff (bad : String) (hdata : data.length < 2 ^ 63) {f : WholeField} {i : ℕ}
    (h : StandsAt data f.bytes i) (s : σ) (jump : Jump σ σ) :
    (R.loop bad data).body i s = .ok jump ↔
      ∃ s', R.step s f = some s' ∧ jump = .next (i + f.bytes.length : ℕ) s' := by
  have hlen : f.bytes.length = f.tag.length + f.payload.length := List.length_append
  show (readTag bad data i >>= fun p => R.field data p.1 p.2.1 p.2.2 s) = .ok jump ↔ _
  rw [h.left.readTag_eq hdata bad f.isVarint, ok_bind, hlen, ← Nat.add_assoc]
  exact R.whole hdata f.isPayload h.right

/-- On whole fields the loop makes the steps of the fields, one after the other. -/
theorem call_wholeBytes (bad : String) {fs : List WholeField}
    (hdata : (wholeBytes fs).length < 2 ^ 63) (s r : σ) :
    (R.loop bad (wholeBytes fs)).call s = .ok r ↔ fs.foldlM R.step s = some r := by
  apply CursorLoop.call_eq_ok_iff (fun f : WholeField => f.bytes.length) R.step fs
  · exact length_wholeBytes fs
  · exact WholeField.bytes_pos
  · exact fun _ => rfl
  · intro pre f post s jump hsplit
    rw [← length_wholeBytes]
    apply R.body_eq_ok_iff bad hdata
    refine ⟨wholeBytes pre, wholeBytes post, ?_, rfl⟩
    rw [hsplit, wholeBytes_append, wholeBytes_cons]

end FieldReader

/-- The last statement of a round. -/
theorem bind_next_eq_ok_iff (x : Out σ) (i : ℤ) (jump : Jump σ σ) :
    (x >>= fun s => .ok (.next i s)) = .ok jump ↔ ∃ s, x.toOption = some s ∧ jump = .next i s := by
  cases x with
  | ok s => simp [Except.toOption, eq_comm]
  | error e => simp [Except.toOption]

/-- A round that refuses the field. -/
theorem refused_eq_ok_iff {c : Prop} [Decidable c] {e : Fault Err} (hc : c)
    (f : Unit → Out (Jump σ σ)) (i : ℤ) (jump : Jump σ σ) :
    (failIf c e >>= f) = .ok jump ↔ ∃ s, (none : Option σ) = some s ∧ jump = .next i s := by
  constructor
  · intro h
    exact absurd hc (failIf_bind_eq_ok h).1
  · rintro ⟨s, hs, -⟩
    cases hs

/-! ### Flat messages -/

def applyField (field : Option (Field σ)) (wireType : ℕ) (p : Bytes) (tx : σ) : Option σ :=
  match field with
  | some (.varint _ set) => if wireType = 0 then some (set (varintValue p) tx) else none
  | some (.content _ set) => if wireType = 2 then (set (payloadContent p) tx).toOption else none
  | none => some tx

section Table

variable {p : Bytes} {w j : ℕ} {tx : σ} {jump : Jump σ σ} (hdata : data.length < 2 ^ 63)
include hdata

theorem fieldsField_whole (field : Option (Field σ)) (hp : IsPayload w p) (h : StandsAt data p j) :
    fieldsField field data w j tx = .ok jump ↔
      ∃ tx', applyField field w p tx = some tx' ∧ jump = .next (j + p.length : ℕ) tx' := by
  have hle := h.le
  match field with
  | some (.varint name set) =>
    unfold fieldsField applyField
    dsimp only
    by_cases hw : w = 0
    · subst hw
      cases hp with
      | varint hp =>
        rw [failIf_of_not _ (not_not.mpr rfl), ok_bind, h.decodeVarintAt_eq hp, ok_bind, if_pos rfl]
        dsimp only
        rw [failIf_of_not _ hp.length_pos.ne', ok_bind, ← Nat.cast_add, wrap64_natCast (by omega)]
        exact bind_next_eq_ok_iff (.ok (set (varintValue p) tx)) _ _
    · rw [if_neg hw]
      exact refused_eq_ok_iff hw _ _ _
  | some (.content name set) =>
    unfold fieldsField applyField
    dsimp only
    by_cases hw : w = 2
    · generalize hb : p = b at hp
      subst hw
      cases hp with
      | @bytes size content hsize hcontent =>
        subst hb
        rw [List.length_append] at hle ⊢
        have hread := h.readLenDelimited_eq hdata hsize hcontent
        rw [failIf_of_not _ (not_not.mpr rfl), ok_bind, ← bind_assoc, hread, ok_bind, if_pos rfl,
          payloadContent_append hsize]
        dsimp only
        rw [← Nat.cast_add, wrap64_natCast (by omega)]
        exact bind_next_eq_ok_iff _ _ _
    · rw [if_neg hw]
      exact refused_eq_ok_iff hw _ _ _
  | none =>
    unfold fieldsField applyField
    dsimp only
    rw [← bind_assoc, h.skipProtoField_eq hdata hp, ok_bind, ← Nat.cast_add,
      wrap64_natCast (by omega)]
    exact bind_next_eq_ok_iff (.ok tx) _ _

theorem fieldsField_checked {field : Option (Field σ)} (hfield : field ≠ none)
    (h : fieldsField field data w j tx = .ok jump) : ∃ p, IsPayload w p ∧ StandsAt data p j := by
  match field, hfield with
  | some (.varint name set), _ =>
    unfold fieldsField at h
    obtain ⟨hw, h⟩ := failIf_bind_eq_ok h
    obtain ⟨⟨v, n⟩, hread, h⟩ := (bind_eq_ok _ _ _).mp h
    obtain ⟨hn, -⟩ := failIf_bind_eq_ok h
    obtain ⟨p, hp, hat, -⟩ := decodeVarintAt_checked hread hn
    rw [not_not.mp hw]
    exact ⟨p, .varint hp, hat⟩
  | some (.content name set), _ =>
    unfold fieldsField at h
    obtain ⟨hw, h⟩ := failIf_bind_eq_ok h
    obtain ⟨rest, hrest, h⟩ := (bind_eq_ok _ _ _).mp h
    obtain ⟨⟨b, n⟩, hread, -⟩ := (bind_eq_ok _ _ _).mp h
    rw [not_not.mp hw]
    exact readLenDelimited_checked hdata hrest hread

end Table

def tableReader (fields : ℕ → Option (Field σ)) : FieldReader σ where
  field data n w j tx := fieldsField (fields n) data w j tx
  apply n w p tx := applyField (fields n) w p tx
  skips n _ := fields n = none
  whole hdata hp h := fieldsField_whole hdata _ hp h
  checked hdata hskip h := fieldsField_checked hdata hskip h
  idle h := by rw [h]; rfl

theorem fieldsLoop_eq (bad : String) (fields : ℕ → Option (Field σ)) (data : Bytes) :
    fieldsLoop bad fields data = (tableReader fields).loop bad data := rfl

/-! ### The four layouts -/

theorem accessTupleField_eq_none (n : ℕ) : accessTupleField n = none ↔ outside 2 n := by
  unfold accessTupleField outside
  split <;> simp [bytesField]
  grind

section Layouts

variable (unmarshal : IntUnmarshal) (n : ℕ)

theorem legacyTxField_eq_none : legacyTxField unmarshal n = none ↔ outside 9 n := by
  unfold legacyTxField outside
  split <;> simp [bytesField, intField]
  grind

theorem accessListTxField_eq_none : accessListTxField unmarshal n = none ↔ outside 11 n := by
  unfold accessListTxField outside
  split <;> simp [bytesField, intField, accessesField]
  grind

theorem dynamicFeeTxField_eq_none : dynamicFeeTxField unmarshal n = none ↔ outside 12 n := by
  unfold dynamicFeeTxField outside
  split <;> simp [bytesField, intField, accessesField]
  grind

end Layouts

/-! ### unmarshalAny -/

def applyAny (fieldNum wireType : ℕ) (p : Bytes) (any : Any) : Option Any :=
  if wireType = 2 then
    match fieldNum with
    | 1 => some { any with typeUrl := payloadContent p }
    | 2 => some { any with value := payloadContent p }
    | _ => some any
  else some any

/-- Every field but the two it reads is passed over. -/
def anySkips (fieldNum wireType : ℕ) : Prop := ¬ (wireType = 2 ∧ (fieldNum = 1 ∨ fieldNum = 2))

section ReadAny

variable {p : Bytes} {n w j : ℕ} {any : Any} {jump : Jump Any Any} (hdata : data.length < 2 ^ 63)
include hdata

theorem anyField_bytes {size content : Bytes} (hsize : IsVarint size)
    (hcontent : content.length = varintValue size) (h : StandsAt data (size ++ content) j) :
    anyField data n 2 j any = .ok jump ↔ ∃ any', applyAny n 2 (size ++ content) any = some any' ∧
      jump = .next (j + (size ++ content).length : ℕ) any' := by
  have hle := h.le
  have hslice := h.right.slice_eq
  rw [List.length_append] at hle ⊢
  rw [← Nat.add_assoc]
  unfold anyField applyAny
  rw [if_pos rfl, payloadContent_append hsize]
  dsimp only
  rw [h.readEnd_eq hdata _ hsize hcontent, ok_bind]
  dsimp only
  match n with
  | 1 =>
    rw [hslice, ok_bind]
    exact bind_next_eq_ok_iff (.ok { any with typeUrl := content }) _ _
  | 2 =>
    rw [failIf_of_not _ (by unfold wrap64; omega), ok_bind, hslice, ok_bind]
    exact bind_next_eq_ok_iff (.ok { any with value := content }) _ _
  | 0 => exact bind_next_eq_ok_iff (.ok any) _ _
  | n + 3 => exact bind_next_eq_ok_iff (.ok any) _ _

theorem anyField_whole (hp : IsPayload w p) (h : StandsAt data p j) :
    anyField data n w j any = .ok jump ↔
      ∃ any', applyAny n w p any = some any' ∧ jump = .next (j + p.length : ℕ) any' := by
  cases hp with
  | varint hp =>
    unfold anyField
    rw [h.decodeVarintAt_eq hp, ok_bind, ← h.wrap_end hdata]
    exact bind_next_eq_ok_iff (.ok any) _ _
  | fixed64 hp =>
    unfold anyField
    rw [← h.wrap_fixed hdata hp]
    exact bind_next_eq_ok_iff (.ok any) _ _
  | bytes hsize hcontent => exact anyField_bytes hdata hsize hcontent h
  | fixed32 hp =>
    unfold anyField
    rw [← h.wrap_fixed hdata hp]
    exact bind_next_eq_ok_iff (.ok any) _ _

theorem anyField_checked (hskip : ¬ anySkips n w) (h : anyField data n w j any = .ok jump) :
    ∃ p, IsPayload w p ∧ StandsAt data p j := by
  obtain ⟨rfl, hn⟩ := not_not.mp hskip
  unfold anyField at h
  obtain ⟨⟨start, stop⟩, hread, h⟩ := (bind_eq_ok _ _ _).mp h
  rcases hn with rfl | rfl
  · obtain ⟨content, hslice, -⟩ := (bind_eq_ok _ _ _).mp h
    exact readEnd_checked hdata hread hslice
  · obtain ⟨-, h⟩ := failIf_bind_eq_ok h
    obtain ⟨content, hslice, -⟩ := (bind_eq_ok _ _ _).mp h
    exact readEnd_checked hdata hread hslice

end ReadAny

theorem applyAny_idle {n w : ℕ} {p : Bytes} {any : Any} (h : anySkips n w) :
    applyAny n w p any = some any := by
  unfold applyAny
  split_ifs with hw
  · split
    · exact absurd ⟨hw, Or.inl rfl⟩ h
    · exact absurd ⟨hw, Or.inr rfl⟩ h
    · rfl
  · rfl

def anyReader : FieldReader Any where
  field := anyField
  apply := applyAny
  skips := anySkips
  whole hdata hp h := anyField_whole hdata hp h
  checked hdata hskip h := anyField_checked hdata hskip h
  idle h := applyAny_idle h

theorem anyLoop_eq (data : Bytes) :
    anyLoop data = anyReader.loop "bad varint in Any at %d" data := rfl

/-! ### unmarshalLegacyMsgEthereumTx -/

def applyMsg (fieldNum wireType : ℕ) (p : Bytes) (msg : LegacyMsgEthereumTx) :
    Option LegacyMsgEthereumTx :=
  match fieldNum with
  | 1 => if wireType = 2 then
      (unmarshalAny (payloadContent p)).toOption.map fun any => { msg with data := some any }
    else none
  | 2 => if wireType = 1 then some { msg with size := beVal p.reverse } else none
  | 3 => if wireType = 2 then some { msg with hash := payloadContent p } else none
  | 4 => if wireType = 2 then some { msg with sender := payloadContent p } else none
  | _ => some msg

theorem toOption_wrapErr_bind {α β : Type} (base : ErrBase) (format : String) (x : Out α)
    (f : α → β) :
    (wrapErr base format x >>= fun a => .ok (f a)).toOption = x.toOption.map f := by
  cases x with
  | ok a => rfl
  | error e => cases e <;> rfl

theorem msgSize_checked {w j : ℕ} {msg : LegacyMsgEthereumTx}
    {jump : Jump LegacyMsgEthereumTx LegacyMsgEthereumTx} (h : msgSize data w j msg = .ok jump) :
    ∃ p, IsPayload w p ∧ StandsAt data p j := by
  unfold msgSize at h
  obtain ⟨hw, h⟩ := failIf_bind_eq_ok h
  obtain ⟨-, h⟩ := failIf_bind_eq_ok h
  obtain ⟨rest, hrest, h⟩ := (bind_eq_ok _ _ _).mp h
  obtain ⟨size, hsize, -⟩ := (bind_eq_ok _ _ _).mp h
  obtain ⟨hj, rfl⟩ := sliceFrom_eq_ok hrest
  unfold littleEndianUint64 at hsize
  split_ifs at hsize with hlen
  rw [not_not.mp hw]
  refine ⟨(data.drop j).take 8, .fixed64 ?_, ?_⟩
  · rw [List.length_take]
    omega
  · exact .of_drop hj (List.take_append_drop 8 _).symm

section ReadMsg

variable {p : Bytes} {n w j : ℕ} {msg : LegacyMsgEthereumTx}
  {jump : Jump LegacyMsgEthereumTx LegacyMsgEthereumTx} (hdata : data.length < 2 ^ 63)
include hdata

theorem msgContent_whole (name : String) (use : Bytes → Out LegacyMsgEthereumTx) (hp : IsPayload w p)
    (h : StandsAt data p j) :
    msgContent data name w j use = .ok jump ↔
      ∃ msg', (if w = 2 then (use (payloadContent p)).toOption else none) = some msg' ∧
        jump = .next (j + p.length : ℕ) msg' := by
  unfold msgContent
  by_cases hw : w = 2
  · generalize hb : p = b at hp
    subst hw
    cases hp with
    | @bytes size content hsize hcontent =>
      subst hb
      rw [failIf_of_not _ (not_not.mpr rfl), ok_bind, h.readEnd_eq hdata _ hsize hcontent, ok_bind,
        if_pos rfl, payloadContent_append hsize]
      dsimp only
      rw [h.right.slice_eq, ok_bind, List.length_append, Nat.add_assoc]
      exact bind_next_eq_ok_iff _ _ _
  · rw [if_neg hw]
    exact refused_eq_ok_iff hw _ _ _

theorem msgSize_whole (hp : IsPayload w p) (h : StandsAt data p j) :
    msgSize data w j msg = .ok jump ↔
      ∃ msg', applyMsg 2 w p msg = some msg' ∧ jump = .next (j + p.length : ℕ) msg' := by
  have hle := h.le
  unfold msgSize applyMsg
  by_cases hw : w = 1
  · subst hw
    cases hp with
    | fixed64 hp =>
      obtain ⟨post, hdrop⟩ := h.drop_eq
      have hread : littleEndianUint64 (data.drop j) = .ok (beVal p.reverse) := by
        unfold littleEndianUint64
        rw [hdrop, List.length_append, hp, if_neg (by omega), List.take_left' hp]
      rw [hp] at hle ⊢
      rw [failIf_of_not _ (not_not.mpr rfl), ok_bind, wrap64_of_range (by omega),
        failIf_of_not _ (by omega), ok_bind, h.sliceFrom_eq, ok_bind, hread, ok_bind, if_pos rfl]
      exact bind_next_eq_ok_iff (.ok { msg with size := beVal p.reverse }) _ _
  · rw [if_neg hw]
    exact refused_eq_ok_iff hw _ _ _

theorem msgSkip_whole (hp : IsPayload w p) (h : StandsAt data p j) :
    msgSkip data w j msg = .ok (.next (j + p.length : ℕ) msg) := by
  cases hp with
  | varint hp =>
    simp only [msgSkip, h.decodeVarintAt_eq hp, failIf_of_not _ hp.length_pos.ne', ok_bind,
      h.wrap_end hdata]
  | fixed64 hp =>
    unfold msgSkip
    rw [← h.wrap_fixed hdata hp]
    rfl
  | @bytes size content hsize hcontent =>
    have hle := h.le
    have hend := h.wrap_end hdata
    rw [List.length_append] at hle hend ⊢
    simp only [msgSkip, h.left.decodeVarintAt_eq hsize, ← hcontent,
      failIf_of_not _ hsize.length_pos.ne', ok_bind]
    rw [wrap64_natCast (show content.length < 2 ^ 63 by omega), ← Nat.cast_add,
      wrap64_natCast (show size.length + content.length < 2 ^ 63 by omega), hend]
  | fixed32 hp =>
    unfold msgSkip
    rw [← h.wrap_fixed hdata hp]
    rfl

theorem msgField_whole (hp : IsPayload w p) (h : StandsAt data p j) :
    msgField data n w j msg = .ok jump ↔
      ∃ msg', applyMsg n w p msg = some msg' ∧ jump = .next (j + p.length : ℕ) msg' := by
  match n with
  | 1 =>
    refine (msgContent_whole hdata "Data" _ hp h).trans ?_
    rw [toOption_wrapErr_bind]
    rfl
  | 2 => exact msgSize_whole hdata hp h
  | 3 => exact msgContent_whole hdata "Hash" _ hp h
  | 4 => exact msgContent_whole hdata "From" _ hp h
  | 0 =>
    show msgSkip data w j msg = .ok jump ↔ _
    rw [msgSkip_whole hdata hp h]
    exact bind_next_eq_ok_iff (.ok msg) _ _
  | n + 5 =>
    show msgSkip data w j msg = .ok jump ↔ _
    rw [msgSkip_whole hdata hp h]
    exact bind_next_eq_ok_iff (.ok msg) _ _

theorem msgContent_checked {name : String} {use : Bytes → Out LegacyMsgEthereumTx}
    (h : msgContent data name w j use = .ok jump) : ∃ p, IsPayload w p ∧ StandsAt data p j := by
  unfold msgContent at h
  obtain ⟨hw, h⟩ := failIf_bind_eq_ok h
  obtain ⟨⟨start, stop⟩, hread, h⟩ := (bind_eq_ok _ _ _).mp h
  obtain ⟨content, hslice, -⟩ := (bind_eq_ok _ _ _).mp h
  rw [not_not.mp hw]
  exact readEnd_checked hdata hread hslice

theorem msgField_checked (hskip : ¬ outside 4 n) (h : msgField data n w j msg = .ok jump) :
    ∃ p, IsPayload w p ∧ StandsAt data p j := by
  match n with
  | 1 => exact msgContent_checked hdata h
  | 2 => exact msgSize_checked h
  | 3 => exact msgContent_checked hdata h
  | 4 => exact msgContent_checked hdata h
  | 0 => exact absurd (Or.inl rfl) hskip
  | n + 5 => exact absurd (Or.inr (by omega)) hskip

end ReadMsg

theorem applyMsg_idle {n w : ℕ} {p : Bytes} {msg : LegacyMsgEthereumTx} (h : outside 4 n) :
    applyMsg n w p msg = some msg := by
  unfold outside at h
  match n with
  | 0 => rfl
  | n + 5 => rfl

def msgReader : FieldReader LegacyMsgEthereumTx where
  field := msgField
  apply := applyMsg
  skips n _ := outside 4 n
  whole hdata hp h := msgField_whole hdata hp h
  checked hdata hskip h := msgField_checked hdata hskip h
  idle h := applyMsg_idle h

theorem msgLoop_eq (data : Bytes) :
    msgLoop data = msgReader.loop "bad varint at offset %d" data := rfl

end Tsc.LegacyTx
