import Tsc.LegacyTx.FieldReader

/-!
# Which accepted inputs are complete

The decoders check that the fields they use are there. What they only pass over they do
not: a skipped field may begin in the input and end behind it. An accepted input is a
list of whole fields exactly if it does not begin with whole fields and then such a
field.
-/

namespace Tsc.LegacyTx

open Go Sdk

variable {σ : Type} {data : Bytes}

/-- Whole fields, then the tag of a skipped field whose payload is cut off. -/
def CutOff (skips : ℕ → ℕ → Prop) (data : Bytes) : Prop :=
  ∃ fs tag rest, data = wholeBytes fs ++ (tag ++ rest) ∧ IsVarint tag ∧
    skips (varintValue tag / 8) (varintValue tag % 8) ∧
    ∀ p q, rest = p ++ q → ¬ IsPayload (varintValue tag % 8) p

/-! ### Complete input is not cut off -/

/-- Both lists are read off the same bytes, field by field. -/
theorem wholeBytes_ne_cutOff {fs gs : List WholeField} {tag rest : Bytes} (htag : IsVarint tag)
    (hcut : ∀ p q, rest = p ++ q → ¬ IsPayload (varintValue tag % 8) p) :
    wholeBytes gs ≠ wholeBytes fs ++ (tag ++ rest) := by
  have hpos := htag.length_pos
  induction fs generalizing gs with
  | nil =>
    intro h
    cases gs with
    | nil =>
      have hlen := congrArg List.length h
      simp only [wholeBytes, List.flatMap_nil, List.nil_append, List.length_append,
        List.length_nil] at hlen
      omega
    | cons g gs =>
      rw [wholeBytes_cons] at h
      unfold WholeField.bytes at h
      rw [List.append_assoc] at h
      obtain ⟨rfl, hrest⟩ := g.isVarint.append_inj htag h
      exact hcut g.payload _ hrest.symm g.isPayload
  | cons f fs ih =>
    intro h
    rw [wholeBytes_cons, List.append_assoc] at h
    cases gs with
    | nil =>
      have hlen := congrArg List.length h
      have hf := f.bytes_pos
      rw [List.length_append] at hlen
      simp only [wholeBytes, List.flatMap_nil, List.length_nil] at hlen
      omega
    | cons g gs =>
      rw [wholeBytes_cons] at h
      exact ih (WholeField.bytes_append_inj h).2

theorem Complete.not_cutOff (h : Complete data) (skips : ℕ → ℕ → Prop) : ¬ CutOff skips data := by
  rintro ⟨fs, tag, rest, hdata, htag, -, hcut⟩
  obtain ⟨gs, rfl⟩ := h
  exact wholeBytes_ne_cutOff htag hcut hdata

/-! ### Accepted input that is not cut off -/

namespace FieldReader

variable (R : FieldReader σ)

/-- A round that comes to an end was at a whole field, behind which it goes on, or at a
skipped field that is cut off. -/
theorem round_cases {bad : String} (hdata : data.length < 2 ^ 63) {fs : List WholeField}
    {rest : Bytes} (hsplit : data = wholeBytes fs ++ rest) {s : σ} {jump : Jump σ σ}
    (h : (R.loop bad data).body (wholeBytes fs).length s = .ok jump) :
    (∃ f rest' s', data = wholeBytes (fs ++ [f]) ++ rest' ∧
      jump = .next (wholeBytes (fs ++ [f])).length s') ∨ CutOff R.skips data := by
  obtain ⟨⟨n, w, k⟩, hread, hfield⟩ := (bind_eq_ok _ _ _).mp h
  obtain ⟨tag, htag, hat, rfl, rfl, rfl⟩ := readTag_checked hdata hread
  have hrest : data.drop (wholeBytes fs).length = rest := by
    rw [hsplit, List.drop_left]
  obtain ⟨post, hpost⟩ := hat.drop_eq
  rw [hrest] at hpost
  by_cases hwhole : ∃ p q, post = p ++ q ∧ IsPayload (varintValue tag % 8) p
  · obtain ⟨p, q, rfl, hp⟩ := hwhole
    let f : WholeField := ⟨tag, p, htag, hp⟩
    have hall : data = wholeBytes (fs ++ [f]) ++ q := by
      rw [hsplit, hpost, wholeBytes_concat]
      show wholeBytes fs ++ (tag ++ (p ++ q)) = wholeBytes fs ++ (tag ++ p) ++ q
      simp only [List.append_assoc]
    have hstands : StandsAt data f.bytes (wholeBytes fs).length :=
      ⟨wholeBytes fs, q, by rw [hall, wholeBytes_concat, List.append_assoc], rfl⟩
    obtain ⟨s', -, rfl⟩ := (R.body_eq_ok_iff bad hdata hstands s jump).mp h
    refine Or.inl ⟨f, q, s', hall, ?_⟩
    rw [wholeBytes_concat, List.length_append]
  · have hcut : ∀ p q, post = p ++ q → ¬ IsPayload (varintValue tag % 8) p := fun p q hpq hp =>
      hwhole ⟨p, q, hpq, hp⟩
    refine Or.inr ⟨fs, tag, post, by rw [hsplit, hpost], htag, ?_, hcut⟩
    by_contra hskip
    obtain ⟨p, hp, hpat⟩ := R.checked hdata hskip hfield
    obtain ⟨q, hq⟩ := hpat.drop_eq
    refine hcut p q ?_ hp
    rw [← hq, ← List.drop_drop, hrest, hpost, List.drop_left]

/-- By the rounds left: everything before the cursor is whole fields. -/
theorem run_cases {bad : String} (hdata : data.length < 2 ^ 63) {fuel : ℕ} {fs : List WholeField}
    {rest : Bytes} (hsplit : data = wholeBytes fs ++ rest) {s r : σ}
    (h : (R.loop bad data).run fuel (wholeBytes fs).length s = .ok r) :
    Complete data ∨ CutOff R.skips data := by
  induction fuel generalizing fs rest s with
  | zero => cases h
  | succ fuel ih =>
    unfold CursorLoop.run at h
    split_ifs at h with hi
    · obtain ⟨jump, hjump, h⟩ := (bind_eq_ok _ _ _).mp h
      obtain ⟨f, rest', s', hnext, rfl⟩ | hcut := R.round_cases hdata hsplit hjump
      · exact ih hnext h
      · exact Or.inr hcut
    · have hlen : rest.length = 0 := by
        have hsum := congrArg List.length hsplit
        rw [List.length_append] at hsum
        have hend : ¬ ((wholeBytes fs).length : ℤ) < data.length := hi
        omega
      rw [List.eq_nil_of_length_eq_zero hlen, List.append_nil] at hsplit
      exact Or.inl ⟨fs, hsplit⟩

theorem complete_iff {bad : String} (hdata : data.length < 2 ^ 63) {s r : σ}
    (h : (R.loop bad data).call s = .ok r) : Complete data ↔ ¬ CutOff R.skips data := by
  constructor
  · intro hc
    exact hc.not_cutOff R.skips
  · intro hcut
    have hstart : data = wholeBytes [] ++ data := rfl
    exact (R.run_cases hdata hstart h).resolve_right hcut

end FieldReader

/-- A table with the numbers `1` to `last`. -/
theorem table_complete_iff {fields : ℕ → Option (Field σ)} {last : ℕ}
    (hlast : ∀ n, fields n = none ↔ outside last n) {bad : String} (hdata : data.length < 2 ^ 63)
    {tx tx' : σ} (h : (fieldsLoop bad fields data).call tx = .ok tx') :
    Complete data ↔ ¬ CutOff (fun n _ => outside last n) data := by
  have hskips : (tableReader fields).skips = fun n _ => outside last n := by
    funext n w
    exact propext (hlast n)
  rw [fieldsLoop_eq] at h
  rw [← hskips]
  exact (tableReader fields).complete_iff hdata h

/-! ### The decoders -/

/-- Each decoder skips the fields with a number outside its layout, `unmarshalAny` all
but two. -/
theorem decoders_complete_iff (unmarshal : IntUnmarshal) (data : Bytes)
    (hdata : data.length < 2 ^ 63) :
    (∀ msg, unmarshalLegacyMsgEthereumTx data = .ok msg →
      (Complete data ↔ ¬ CutOff (fun n _ => outside 4 n) data)) ∧
    (∀ any, unmarshalAny data = .ok any → (Complete data ↔ ¬ CutOff anySkips data)) ∧
    (∀ tx, unmarshalLegacyTx unmarshal data = .ok tx →
      (Complete data ↔ ¬ CutOff (fun n _ => outside 9 n) data)) ∧
    (∀ tx, unmarshalAccessListTx unmarshal data = .ok tx →
      (Complete data ↔ ¬ CutOff (fun n _ => outside 11 n) data)) ∧
    (∀ tx, unmarshalDynamicFeeTx unmarshal data = .ok tx →
      (Complete data ↔ ¬ CutOff (fun n _ => outside 12 n) data)) ∧
    ∀ tuple, unmarshalAccessTuple data = .ok tuple →
      (Complete data ↔ ¬ CutOff (fun n _ => outside 2 n) data) := by
  refine ⟨?_, ?_, ?_, ?_, ?_, ?_⟩
  · intro msg h
    unfold unmarshalLegacyMsgEthereumTx at h
    rw [msgLoop_eq] at h
    exact msgReader.complete_iff hdata h
  · intro any h
    unfold unmarshalAny at h
    rw [anyLoop_eq] at h
    exact anyReader.complete_iff hdata h
  · intro tx h
    exact table_complete_iff (legacyTxField_eq_none unmarshal) hdata h
  · intro tx h
    exact table_complete_iff (accessListTxField_eq_none unmarshal) hdata h
  · intro tx h
    exact table_complete_iff (dynamicFeeTxField_eq_none unmarshal) hdata h
  · intro tuple h
    exact table_complete_iff accessTupleField_eq_none hdata h

/-- A nonce, then a field 15 of one byte. -/
def nonceAndUnknown : Bytes := [0x08, 0x05, 0x7A, 0x01, 0xFF]

theorem complete_nonceAndUnknown : Complete nonceAndUnknown := by
  let nonce : WholeField := ⟨[0x08], [0x05], isVarint_singleton (by decide),
    .varint (isVarint_singleton (by decide))⟩
  let unknown : WholeField := ⟨[0x7A], [0x01] ++ [0xFF], isVarint_singleton (by decide),
    .bytes (isVarint_singleton (by decide)) (by decide)⟩
  exact ⟨[nonce, unknown], rfl⟩

theorem nonceAndUnknown_not_cutOff :
    unmarshalLegacyTx (fun _ => .ok none) nonceAndUnknown = .ok { emptyLegacyTx with nonce := 5 } ∧
      ¬ CutOff (fun n _ => outside 9 n) nonceAndUnknown := by
  have hread : unmarshalLegacyTx (fun _ => .ok none) nonceAndUnknown =
      .ok { emptyLegacyTx with nonce := 5 } := by decide +kernel
  have hiff := (decoders_complete_iff (fun _ => .ok none) nonceAndUnknown (by decide)).2.2.1 _ hread
  exact ⟨hread, hiff.mp complete_nonceAndUnknown⟩

/-- The tag of a field 15 of eight bytes, and none of the eight. -/
def tagOnly : Bytes := [0x79]

theorem not_complete_tagOnly : ¬ Complete tagOnly := by
  intro h
  refine h.not_cutOff (fun _ _ => True)
    ⟨[], tagOnly, [], rfl, isVarint_singleton (by decide), trivial, ?_⟩
  intro p q hpq hp
  have hp8 : IsPayload 1 p := hp
  have hnil : p = [] := (List.append_eq_nil_iff.mp hpq.symm).1
  cases hp8 with
  | fixed64 hlen =>
    rw [hnil] at hlen
    cases hlen

theorem decoders_accept_tagOnly :
    ¬ Complete tagOnly ∧
      unmarshalLegacyMsgEthereumTx tagOnly = .ok ⟨none, 0, [], []⟩ ∧
      unmarshalAny tagOnly = .ok ⟨[], []⟩ ∧
      unmarshalLegacyTx (fun _ => .ok none) tagOnly = .ok emptyLegacyTx ∧
      unmarshalAccessListTx (fun _ => .ok none) tagOnly = .ok emptyAccessListTx ∧
      unmarshalDynamicFeeTx (fun _ => .ok none) tagOnly = .ok emptyDynamicFeeTx ∧
      unmarshalAccessTuple tagOnly = .ok ⟨[], []⟩ :=
  ⟨not_complete_tagOnly, by decide +kernel, by decide +kernel, by decide +kernel, by decide +kernel,
    by decide +kernel, by decide +kernel⟩

end Tsc.LegacyTx
