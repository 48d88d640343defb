import Tsc.LegacyTx.Rounds

/-!
# Which inputs the legacy decoders read to an end

A decoder is total on its input if it comes back with a value or an error and every
round of every loop it runs, those of nested messages included, moves the cursor
forward; an access out of bounds is a panic and does not come back. That is so
exactly if the fields its loops come to are in order: a length near `2 ^ 63` or
above, read from the input, makes it panic or run forever.
-/

namespace Tsc.LegacyTx

open Go Sdk

variable {data : Bytes} {σ ρ : Type}

/-- The functions of `app/legacy_ethtx.go` that take bytes from a transaction. -/
inductive Decoder where
  | extractMsgAnyValue
  | unmarshalLegacyMsgEthereumTx
  | unmarshalAny
  | unmarshalLegacyTx
  | unmarshalAccessListTx
  | unmarshalDynamicFeeTx
  | unmarshalAccessTuple

def Meets (l : CursorLoop Err σ ρ) (s₀ : σ) (data : Bytes) (field : ℕ) (content : Bytes) : Prop :=
  ∃ i s, l.Reaches s₀ i s ∧ i < l.len ∧ contentAt data i = some (field, content)

def InOrder (l : CursorLoop Err σ ρ) (s₀ : σ) (use : ℕ → ℕ → FieldUse) (data : Bytes) : Prop :=
  ∀ i s, l.Reaches s₀ i s → i < l.len → FieldOk use data i

def emptyAny : Any := ⟨[], []⟩

def emptyMsg : LegacyMsgEthereumTx := ⟨none, 0, [], []⟩

def emptyAccessTuple : LegacyAccessTuple := ⟨[], []⟩

section Definitions

variable (unmarshal : IntUnmarshal)

def Decoder.Total : Decoder → Bytes → Prop
  | .extractMsgAnyValue, data =>
    Settles (LegacyTx.extractMsgAnyValue data) ∧ (extractLoop data 1 2).Total () ∧
      ∀ body, extractProtoField data 1 2 = .ok body → (extractLoop body 1 2).Total () ∧
        ∀ any, extractProtoField body 1 2 = .ok any → (extractLoop any 2 2).Total ()
  | .unmarshalLegacyMsgEthereumTx, data =>
    (msgLoop data).Total emptyMsg ∧
      ∀ content, Meets (msgLoop data) emptyMsg data 1 content → (anyLoop content).Total emptyAny
  | .unmarshalAny, data => (anyLoop data).Total emptyAny
  | .unmarshalLegacyTx, data => (legacyTxLoop unmarshal data).Total emptyLegacyTx
  | .unmarshalAccessListTx, data =>
    (accessListTxLoop unmarshal data).Total emptyAccessListTx ∧
      ∀ content, Meets (accessListTxLoop unmarshal data) emptyAccessListTx data 8 content →
        (accessTupleLoop content).Total emptyAccessTuple
  | .unmarshalDynamicFeeTx, data =>
    (dynamicFeeTxLoop unmarshal data).Total emptyDynamicFeeTx ∧
      ∀ content, Meets (dynamicFeeTxLoop unmarshal data) emptyDynamicFeeTx data 9 content →
        (accessTupleLoop content).Total emptyAccessTuple
  | .unmarshalAccessTuple, data => (accessTupleLoop data).Total emptyAccessTuple

def tableUse (fields : ℕ → Option (Field σ)) (fieldNum wireType : ℕ) : FieldUse :=
  fieldUse (fields fieldNum) wireType

def Decoder.FieldsInOrder : Decoder → Bytes → Prop
  | .extractMsgAnyValue, data =>
    InOrder (extractLoop data 1 2) () (extractUse 1 2) data ∧
      ∀ body, extractProtoField data 1 2 = .ok body →
        InOrder (extractLoop body 1 2) () (extractUse 1 2) body ∧
        ∀ any, extractProtoField body 1 2 = .ok any →
          InOrder (extractLoop any 2 2) () (extractUse 2 2) any
  | .unmarshalLegacyMsgEthereumTx, data =>
    InOrder (msgLoop data) emptyMsg msgUse data ∧
      ∀ content, Meets (msgLoop data) emptyMsg data 1 content →
        InOrder (anyLoop content) emptyAny anyUse content
  | .unmarshalAny, data => InOrder (anyLoop data) emptyAny anyUse data
  | .unmarshalLegacyTx, data =>
    InOrder (legacyTxLoop unmarshal data) emptyLegacyTx (tableUse (legacyTxField unmarshal)) data
  | .unmarshalAccessListTx, data =>
    InOrder (accessListTxLoop unmarshal data) emptyAccessListTx
        (tableUse (accessListTxField unmarshal)) data ∧
      ∀ content, Meets (accessListTxLoop unmarshal data) emptyAccessListTx data 8 content →
        InOrder (accessTupleLoop content) emptyAccessTuple (tableUse accessTupleField) content
  | .unmarshalDynamicFeeTx, data =>
    InOrder (dynamicFeeTxLoop unmarshal data) emptyDynamicFeeTx
        (tableUse (dynamicFeeTxField unmarshal)) data ∧
      ∀ content, Meets (dynamicFeeTxLoop unmarshal data) emptyDynamicFeeTx data 9 content →
        InOrder (accessTupleLoop content) emptyAccessTuple (tableUse accessTupleField) content
  | .unmarshalAccessTuple, data =>
    InOrder (accessTupleLoop data) emptyAccessTuple (tableUse accessTupleField) data

end Definitions

/-! ### Loops without nested messages -/

theorem extract_total_iff (hdata : data.length < 2 ^ 63) (tf tw : ℕ) :
    (extractLoop data tf tw).Total () ↔
      InOrder (extractLoop data tf tw) () (extractUse tf tw) data :=
  CursorLoop.total_iff_of_body fun _ _ h0 hi => extractBody_advances hdata h0 hi tf tw

theorem any_total_iff (hdata : data.length < 2 ^ 63) :
    (anyLoop data).Total emptyAny ↔ InOrder (anyLoop data) emptyAny anyUse data :=
  CursorLoop.total_iff_of_body fun _ any h0 hi => anyBody_advances hdata h0 hi any

theorem fields_total_iff (hdata : data.length < 2 ^ 63) (bad : String)
    (fields : ℕ → Option (Field σ)) (s₀ : σ) :
    (fieldsLoop bad fields data).Total s₀ ↔
      ∀ i s, (fieldsLoop bad fields data).Reaches s₀ i s → i < (fieldsLoop bad fields data).len →
        FieldOk (tableUse fields) data i ∧
          ∀ f content, contentAt data i = some (f, content) →
            ∀ name set, fields f = some (.content name set) → Settles (set content s) :=
  CursorLoop.total_iff_of_body fun _ tx h0 hi => fieldsBody_advances hdata h0 hi bad fields tx

def Field.Plain (field : Option (Field σ)) : Prop :=
  ∀ name set, field = some (.content name set) → ∀ content tx, Settles (set content tx)

@[simp] theorem plain_none : Field.Plain (none : Option (Field σ)) := by
  rintro _ _ ⟨⟩

@[simp] theorem plain_varint (name : String) (set : ℕ → σ → σ) : Field.Plain (some (.varint name set)) := by
  rintro _ _ ⟨⟩

@[simp] theorem plain_bytesField (name : String) (set : Bytes → σ → σ) :
    Field.Plain (bytesField name set) := by
  rintro _ _ ⟨⟩ content tx
  exact settles_ok _

@[simp] theorem plain_intField (unmarshal : IntUnmarshal) (name : String) (set : SdkInt → σ → σ) :
    Field.Plain (intField unmarshal name set) := by
  rintro _ _ ⟨⟩ content tx
  dsimp only
  split
  · exact settles_ok _
  · exact settles_err _

theorem plain_accessTupleField (f : ℕ) : Field.Plain (accessTupleField f) := by
  unfold accessTupleField
  split <;> simp

theorem plain_legacyTxField (unmarshal : IntUnmarshal) (f : ℕ) :
    Field.Plain (legacyTxField unmarshal f) := by
  unfold legacyTxField
  split <;> simp

theorem plain_accessListTxField (unmarshal : IntUnmarshal) (f : ℕ) (hf : f ≠ 8) :
    Field.Plain (accessListTxField unmarshal f) := by
  unfold accessListTxField
  split <;> simp at hf ⊢

theorem plain_dynamicFeeTxField (unmarshal : IntUnmarshal) (f : ℕ) (hf : f ≠ 9) :
    Field.Plain (dynamicFeeTxField unmarshal f) := by
  unfold dynamicFeeTxField
  split <;> simp at hf ⊢

theorem plain_total_iff (hdata : data.length < 2 ^ 63) (bad : String)
    (fields : ℕ → Option (Field σ)) (hplain : ∀ f, Field.Plain (fields f)) (s₀ : σ) :
    (fieldsLoop bad fields data).Total s₀ ↔
      InOrder (fieldsLoop bad fields data) s₀ (tableUse fields) data := by
  rw [fields_total_iff hdata]
  refine forall₄_congr fun i s _ _ => ?_
  exact and_iff_left fun f content _ name set hset => hplain f name set hset content s

/-! ### Loops with a nested message -/

theorem contentAt_length {i : ℤ} {f : ℕ} {content : Bytes}
    (h : contentAt data i = some (f, content)) : content.length ≤ data.length := by
  unfold contentAt contentFrom at h
  dsimp only at h
  split_ifs at h
  · cases h
    rw [List.length_drop, List.length_take]
    omega
  · cases h

/-- A loop whose rounds are in order if their fields are and the contents of field `k`
are read to an end, together with the loops on these contents. -/
theorem nested_total_iff {l : CursorLoop Err σ ρ} {s₀ : σ} {use : ℕ → ℕ → FieldUse} {k : ℕ}
    {α : Type} {read : Bytes → Out α} {T C : Bytes → Prop}
    (hloop : l.Total s₀ ↔ ∀ i s, l.Reaches s₀ i s → i < l.len → FieldOk use data i ∧
      ∀ content, contentAt data i = some (k, content) → Settles (read content))
    (hread : ∀ content, T content → Settles (read content))
    (hTC : ∀ content, content.length ≤ data.length → (T content ↔ C content)) :
    (l.Total s₀ ∧ ∀ content, Meets l s₀ data k content → T content) ↔
      InOrder l s₀ use data ∧ ∀ content, Meets l s₀ data k content → C content := by
  have hmeets : ∀ content, Meets l s₀ data k content → (T content ↔ C content) := by
    rintro content ⟨i, s, -, -, hc⟩
    exact hTC content (contentAt_length hc)
  constructor
  · rintro ⟨htotal, hnested⟩
    refine ⟨fun i s hr hi => (hloop.mp htotal i s hr hi).1, fun content hm => ?_⟩
    exact (hmeets content hm).mp (hnested content hm)
  · rintro ⟨horder, hnested⟩
    have hT : ∀ content, Meets l s₀ data k content → T content :=
      fun content hm => (hmeets content hm).mpr (hnested content hm)
    refine ⟨hloop.mpr fun i s hr hi => ⟨horder i s hr hi, fun content hc => ?_⟩, hT⟩
    exact hread content (hT content ⟨i, s, hr, hi, hc⟩)

theorem msg_total_iff (hdata : data.length < 2 ^ 63) :
    (msgLoop data).Total emptyMsg ↔ ∀ i s, (msgLoop data).Reaches emptyMsg i s →
      i < (msgLoop data).len → FieldOk msgUse data i ∧
        ∀ content, contentAt data i = some (1, content) → Settles (unmarshalAny content) :=
  CursorLoop.total_iff_of_body fun _ msg h0 hi => msgBody_advances hdata h0 hi msg

theorem accesses_total_iff (hdata : data.length < 2 ^ 63) (bad : String)
    (fields : ℕ → Option (Field σ)) (k : ℕ) (add : LegacyAccessTuple → σ → σ)
    (hk : fields k = accessesField add) (hplain : ∀ f, f ≠ k → Field.Plain (fields f)) (s₀ : σ) :
    (fieldsLoop bad fields data).Total s₀ ↔
      ∀ i s, (fieldsLoop bad fields data).Reaches s₀ i s → i < (fieldsLoop bad fields data).len →
        FieldOk (tableUse fields) data i ∧
          ∀ content, contentAt data i = some (k, content) →
            Settles (unmarshalAccessTuple content) := by
  rw [fields_total_iff hdata]
  refine forall₄_congr fun i s _ _ => and_congr_right fun _ => ?_
  constructor
  · intro h content hc
    exact ((settles_bind _ _).mp (h k content hc _ _ hk)).1
  · intro h f content hc name set hset
    by_cases hf : f = k
    · subst hf
      cases hk.symm.trans hset
      exact (settles_bind _ _).mpr ⟨h content hc, fun _ _ => settles_ok _⟩
    · exact hplain f hf name set hset content s

theorem accessTuple_total_iff (hdata : data.length < 2 ^ 63) :
    (accessTupleLoop data).Total emptyAccessTuple ↔
      InOrder (accessTupleLoop data) emptyAccessTuple (tableUse accessTupleField) data :=
  plain_total_iff hdata _ _ plain_accessTupleField _

/-! ### extractMsgAnyValue -/

theorem slice_length {a b : ℤ} {content : Bytes} (h : slice data a b = .ok content) :
    content.length ≤ data.length := by
  unfold slice at h
  split_ifs at h
  cases h
  rw [List.length_drop, List.length_take]
  omega

theorem sliceIf_ret {isTarget : Prop} [Decidable isTarget] {a b next : ℤ} {field : Bytes}
    (h : (if isTarget then slice data a b >>= fun field => .ok (.ret field)
      else .ok (.next next ()) : Out (Jump Unit Bytes)) = .ok (.ret field)) :
    field.length ≤ data.length := by
  split_ifs at h
  · obtain ⟨_, hs, heq⟩ := (bind_eq_ok _ _ _).mp h
    cases heq
    exact slice_length hs
  · cases h

theorem extractBody_ret {tf tw : ℕ} {i : ℤ} {field : Bytes}
    (h : extractBody data tf tw i () = .ok (.ret field)) : field.length ≤ data.length := by
  obtain ⟨⟨f, w, j⟩, -, h⟩ := (bind_eq_ok _ _ _).mp h
  have hfixed : ∀ (isTarget : Prop) [Decidable isTarget] (size : ℕ),
      extractFixed data isTarget size j = .ok (.ret field) → field.length ≤ data.length := by
    intro isTarget _ size hx
    obtain ⟨_, -, hx⟩ := (bind_eq_ok _ _ _).mp hx
    exact sliceIf_ret hx
  dsimp only at h
  unfold extractField at h
  split at h
  · obtain ⟨⟨_, n⟩, -, h⟩ := (bind_eq_ok _ _ _).mp h
    obtain ⟨_, -, h⟩ := (bind_eq_ok _ _ _).mp h
    exact sliceIf_ret h
  · exact hfixed _ _ h
  · obtain ⟨⟨_, stop⟩, -, h⟩ := (bind_eq_ok _ _ _).mp h
    exact sliceIf_ret h
  · exact hfixed _ _ h
  · cases h

theorem extractProtoField_length {tf tw : ℕ} {field : Bytes}
    (h : extractProtoField data tf tw = .ok field) : field.length ≤ data.length := by
  refine CursorLoop.run_ret (P := fun field => field.length ≤ data.length)
    (l := extractLoop data tf tw) (fun i _ r hr => ?_) (fun _ r hr => ?_) h
  · exact extractBody_ret hr
  · cases hr

theorem extractMsgAnyValue_settles (h1 : Settles (extractProtoField data 1 2))
    (h2 : ∀ body, extractProtoField data 1 2 = .ok body → Settles (extractProtoField body 1 2) ∧
      ∀ any, extractProtoField body 1 2 = .ok any → Settles (extractProtoField any 2 2)) :
    Settles (extractMsgAnyValue data) := by
  unfold extractMsgAnyValue
  rw [settles_bind, settles_wrapErr]
  refine ⟨h1, fun body hbody => ?_⟩
  obtain ⟨hs, hany⟩ := h2 body ((wrapErr_eq_ok _ _ _ _).mp hbody)
  rw [settles_bind, settles_wrapErr]
  refine ⟨hs, fun any ha => ?_⟩
  rw [settles_wrapErr]
  exact hany any ((wrapErr_eq_ok _ _ _ _).mp ha)

theorem extractMsgAnyValue_total_iff (unmarshal : IntUnmarshal) (hdata : data.length < 2 ^ 63) :
    Decoder.extractMsgAnyValue.Total unmarshal data ↔
      Decoder.extractMsgAnyValue.FieldsInOrder unmarshal data := by
  have hparts : ((extractLoop data 1 2).Total () ∧
      ∀ body, extractProtoField data 1 2 = .ok body → (extractLoop body 1 2).Total () ∧
        ∀ any, extractProtoField body 1 2 = .ok any → (extractLoop any 2 2).Total ()) ↔
      Decoder.extractMsgAnyValue.FieldsInOrder unmarshal data := by
    refine and_congr (extract_total_iff hdata 1 2) (forall₂_congr fun body hbody => ?_)
    have hbody := (extractProtoField_length hbody).trans_lt hdata
    refine and_congr (extract_total_iff hbody 1 2) (forall₂_congr fun any hany => ?_)
    exact extract_total_iff ((extractProtoField_length hany).trans_lt hbody) 2 2
  rw [← hparts]
  refine and_iff_right_of_imp fun h => ?_
  exact extractMsgAnyValue_settles h.1.settles fun body hb =>
    ⟨(h.2 body hb).1.settles, fun any ha => ((h.2 body hb).2 any ha).settles⟩

/-! ### All decoders -/

/-- On every input that fits in memory, a decoder is total exactly if the fields it
comes to are in order. -/
theorem decoder_total_iff (unmarshal : IntUnmarshal) (d : Decoder) (data : Bytes)
    (hdata : data.length < 2 ^ 63) :
    d.Total unmarshal data ↔ d.FieldsInOrder unmarshal data := by
  have htuple : ∀ content : Bytes, content.length ≤ data.length →
      ((accessTupleLoop content).Total emptyAccessTuple ↔ InOrder (accessTupleLoop content)
        emptyAccessTuple (tableUse accessTupleField) content) :=
    fun content hle => accessTuple_total_iff (hle.trans_lt hdata)
  cases d with
  | extractMsgAnyValue => exact extractMsgAnyValue_total_iff unmarshal hdata
  | unmarshalLegacyMsgEthereumTx =>
    exact nested_total_iff (msg_total_iff hdata) (fun content h => h.settles)
      fun content hle => any_total_iff (hle.trans_lt hdata)
  | unmarshalAny => exact any_total_iff hdata
  | unmarshalLegacyTx => exact plain_total_iff hdata _ _ (plain_legacyTxField unmarshal) _
  | unmarshalAccessListTx =>
    exact nested_total_iff (accesses_total_iff hdata _ _ 8 _ rfl
      (plain_accessListTxField unmarshal) _) (fun content h => h.settles) htuple
  | unmarshalDynamicFeeTx =>
    exact nested_total_iff (accesses_total_iff hdata _ _ 9 _ rfl
      (plain_dynamicFeeTxField unmarshal) _) (fun content h => h.settles) htuple
  | unmarshalAccessTuple => exact accessTuple_total_iff hdata

/-- A field 1 whose length is `2 ^ 64 - 1`: its end lies before its start. -/
def endBeforeStart : Bytes := [0x0A, 0xFF, 0xFF, 0xFF, 0xFF, 0xFF, 0xFF, 0xFF, 0xFF, 0xFF, 0x01]

/-- An unknown field 15 whose length is `2 ^ 64 - 11`: passing over it leads back to
its tag. -/
def backToTag : Bytes := [0x7A, 0xF5, 0xFF, 0xFF, 0xFF, 0xFF, 0xFF, 0xFF, 0xFF, 0xFF, 0x01]

theorem backToTag_body (unmarshal : IntUnmarshal) (tx : LegacyLegacyTx) :
    (legacyTxLoop unmarshal backToTag).body 0 tx = .ok (.next 0 tx) := by
  have htag : readTag "bad varint at %d" backToTag 0 = .ok (15, 2, 1) := by decide +kernel
  have hrest : sliceFrom backToTag 1 = .ok (backToTag.drop 1) := by decide +kernel
  have hskip : skipProtoField (backToTag.drop 1) 2 = .ok (-1) := by decide +kernel
  change fieldsBody "bad varint at %d" (legacyTxField unmarshal) backToTag 0 tx = _
  unfold fieldsBody
  rw [htag, ok_bind]
  change (sliceFrom backToTag 1 >>= fun rest => skipProtoField rest 2 >>= fun n =>
    (.ok (.next (wrap64 (1 + n)) tx) : Out (Jump LegacyLegacyTx LegacyLegacyTx))) = _
  rw [hrest, ok_bind, hskip, ok_bind]
  rfl

/-- Two transactions of eleven bytes: one makes the extraction of the message panic,
the other makes a decoder run forever. -/
theorem decoder_panics_or_hangs :
    extractMsgAnyValue endBeforeStart = .error outOfRange ∧
      ∀ unmarshal fuel, (legacyTxLoop unmarshal backToTag).run fuel 0 emptyLegacyTx =
        .error .hang := by
  refine ⟨by decide +kernel, ?_⟩
  intro unmarshal fuel
  induction fuel with
  | zero => rfl
  | succ fuel ih =>
    have hlt : (0 : ℤ) < (legacyTxLoop unmarshal backToTag).len :=
      show (0 : ℤ) < backToTag.length by decide
    unfold CursorLoop.run
    rw [if_pos hlt, backToTag_body, ok_bind]
    exact ih

def smallAny : Bytes := [0x0A, 0x01, 0x61]

theorem smallAny_body (any : Any) :
    (anyLoop smallAny).body 0 any = .ok (.next 3 { any with typeUrl := [0x61] }) := by
  have htag : readTag "bad varint in Any at %d" smallAny 0 = .ok (1, 2, 1) := by decide +kernel
  have hend : readEnd (errorf "bad length in Any at %d" [.int 1]) smallAny 1 = .ok (2, 3) := by
    decide +kernel
  have hslice : slice smallAny 2 3 = .ok [0x61] := by decide +kernel
  change anyBody smallAny 0 any = _
  unfold anyBody
  rw [htag, ok_bind]
  change (readEnd (errorf "bad length in Any at %d" [.int 1]) smallAny 1 >>= fun p =>
    slice smallAny p.1 p.2 >>= fun typeUrl =>
      (.ok (.next p.2 { any with typeUrl }) : Out (Jump Any Any))) = _
  rw [hend, ok_bind, hslice, ok_bind]

theorem smallAny_reaches {i : ℤ} {any : Any} (h : (anyLoop smallAny).Reaches emptyAny i any) :
    i = 0 ∨ i = 3 := by
  induction h with
  | start => exact Or.inl rfl
  | round _ hi hbody ih =>
    rcases ih with rfl | rfl
    · rw [smallAny_body] at hbody
      cases hbody
      exact Or.inr rfl
    · exact absurd hi (by decide)

theorem decoder_total_smallAny :
    Decoder.unmarshalAny.Total (fun _ => .ok none) smallAny := by
  refine (decoder_total_iff _ .unmarshalAny smallAny (by decide)).mpr ?_
  intro i any hr hi
  rcases smallAny_reaches hr with rfl | rfl
  · exact fun _ _ => by decide
  · exact absurd hi (by decide)

end Tsc.LegacyTx
