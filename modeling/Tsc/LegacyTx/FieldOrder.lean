import Tsc.LegacyTx.FieldReader
import Tsc.Kv.KeyedSteps

/-!
# The order of the fields

What a field does to the record depends on its payload only, and fields of different
numbers write different parts of the record. So a decoder gives the same result for a
message whose fields come in another order, as long as the repeated ones keep theirs,
with any fields put in between that it does not know.
-/

namespace Tsc.LegacyTx

open Go Sdk Kv

variable {σ : Type}

instance (last n : ℕ) : Decidable (outside last n) := inferInstanceAs (Decidable (_ ∨ _))

/-! ### Messages that differ in order and in unknown fields -/

/-- `fs'` is `fs` in an order that keeps the `repeated` fields in sequence, with fields of
numbers outside the layout put in; the other fields of the layout occur at most once.
Being whole, the fields put in have wire type 0, 1, 2 or 5. -/
structure Rearranged (last : ℕ) (repeated : List ℕ) (fs fs' : List WholeField) : Prop where
  once : ∀ n, ¬ outside last n → n ∉ repeated → (ofKey WholeField.num n fs).length ≤ 1
  perm : ∃ extra, (∀ f ∈ extra, outside last f.num) ∧ fs'.Perm (fs ++ extra)
  order : ∀ n ∈ repeated, ofKey WholeField.num n fs' = ofKey WholeField.num n fs

theorem perm_eq_of_length_le_one {α : Type} {l l' : List α} (h : l'.Perm l) (hl : l.length ≤ 1) :
    l' = l := by
  match l, hl with
  | [], _ => exact h.eq_nil
  | [a], _ => exact List.perm_singleton.mp h

namespace Rearranged

variable {last : ℕ} {repeated : List ℕ} {fs fs' : List WholeField}
  (h : Rearranged last repeated fs fs')
include h

theorem ofKey_eq {n : ℕ} (hn : ¬ outside last n) :
    ofKey WholeField.num n fs' = ofKey WholeField.num n fs := by
  by_cases hrep : n ∈ repeated
  · exact h.order n hrep
  · obtain ⟨extra, hextra, hperm⟩ := h.perm
    have hnone : ofKey WholeField.num n extra = [] := by
      refine List.filter_eq_nil_iff.mpr fun f hf hfn => ?_
      have hnum : f.num = n := by simpa using hfn
      exact hn (hnum ▸ hextra f hf)
    have hkey : (ofKey WholeField.num n fs').Perm (ofKey WholeField.num n (fs ++ extra)) :=
      hperm.filter _
    rw [ofKey_append, hnone, List.append_nil] at hkey
    exact perm_eq_of_length_le_one hkey (h.once n hn hrep)

theorem length_le : (wholeBytes fs).length ≤ (wholeBytes fs').length := by
  obtain ⟨extra, -, hperm⟩ := h.perm
  have hlen : (wholeBytes fs').length = (wholeBytes (fs ++ extra)).length :=
    (hperm.flatMap_right _).length_eq
  rw [hlen, wholeBytes_append, List.length_append]
  omega

/-- With the unknown fields left out, only the order across numbers differs. -/
theorem foldlM_eq {step : σ → WholeField → Option σ} (hc : CommuteAcross WholeField.num step)
    (hidle : ∀ f s, outside last f.num → step s f = some s) (s : σ) :
    fs'.foldlM step s = fs.foldlM step s := by
  have hknown : ∀ f s, ¬ ¬ outside last f.num → step s f = some s := fun f s hf =>
    hidle f s (not_not.mp hf)
  rw [← foldlM_filter hknown fs', ← foldlM_filter hknown fs]
  apply foldlM_eq_of_ofKey hc
  intro n
  unfold ofKey
  rw [List.filter_filter, List.filter_filter]
  by_cases hn : outside last n
  · have hnone : ∀ l : List WholeField, (l.filter fun f =>
        decide (f.num = n) && decide ¬ outside last f.num) = [] := by
      intro l
      refine List.filter_eq_nil_iff.mpr fun f _ hf => ?_
      have hboth : f.num = n ∧ ¬ outside last f.num := by simpa using hf
      exact hboth.2 (hboth.1 ▸ hn)
    rw [hnone, hnone]
  · have hall : ∀ l : List WholeField, (l.filter fun f =>
        decide (f.num = n) && decide ¬ outside last f.num) = ofKey WholeField.num n l := by
      intro l
      refine List.filter_congr fun f _ => ?_
      by_cases hf : f.num = n
      · simp [hf, hn]
      · simp [hf]
    rw [hall, hall]
    exact h.ofKey_eq hn

end Rearranged

theorem FieldReader.call_rearranged (R : FieldReader σ) (bad : String) {last : ℕ}
    {repeated : List ℕ} {fs fs' : List WholeField} (h : Rearranged last repeated fs fs')
    (hdata : (wholeBytes fs').length < 2 ^ 63)
    (hskips : ∀ n w, outside last n → R.skips n w) (hc : CommuteAcross WholeField.num R.step)
    (s r : σ) :
    (R.loop bad (wholeBytes fs)).call s = .ok r ↔ (R.loop bad (wholeBytes fs')).call s = .ok r := by
  have hlen := h.length_le
  rw [R.call_wholeBytes bad (by omega), R.call_wholeBytes bad hdata,
    h.foldlM_eq hc fun f s hf => R.idle (hskips _ _ hf)]

/-- A table with the numbers `1` to `last` whose fields do not get in each other's way. -/
theorem table_rearranged {fields : ℕ → Option (Field σ)} {last : ℕ}
    (hlast : ∀ n, fields n = none ↔ outside last n)
    (hcomm : ∀ {m n : ℕ}, m ≠ n → ∀ w w' p p' tx,
      (applyField (fields m) w p tx).bind (applyField (fields n) w' p') =
        (applyField (fields n) w' p' tx).bind (applyField (fields m) w p))
    (bad : String) {repeated : List ℕ} {fs fs' : List WholeField}
    (h : Rearranged last repeated fs fs') (hdata : (wholeBytes fs').length < 2 ^ 63) (tx tx' : σ) :
    (fieldsLoop bad fields (wholeBytes fs)).call tx = .ok tx' ↔
      (fieldsLoop bad fields (wholeBytes fs')).call tx = .ok tx' := by
  have hskips : ∀ n w, outside last n → (tableReader fields).skips n w := fun n _ hn =>
    (hlast n).mpr hn
  have hc : CommuteAcross WholeField.num (tableReader fields).step := fun f g tx hne =>
    hcomm hne _ _ _ _ tx
  rw [fieldsLoop_eq, fieldsLoop_eq]
  exact (tableReader fields).call_rearranged bad h hdata hskips hc tx tx'

/-! ### Fields that write one part of the record -/

/-- The step puts a value, which does not depend on the record, into its place. -/
class Puts (step : σ → Option σ) {β : outParam Type} (put : outParam (β → σ → σ)) : Prop where
  exists_value : ∃ v : Option β, ∀ s, step s = v.map (put · s)

theorem bind_comm_of_puts {step step' : σ → Option σ} {β β' : Type} {put : β → σ → σ}
    {put' : β' → σ → σ} [h : Puts step put] [h' : Puts step' put']
    (hc : ∀ a b s, put' b (put a s) = put a (put' b s)) (s : σ) :
    (step s).bind step' = (step' s).bind step := by
  obtain ⟨v, hv⟩ := h.exists_value
  obtain ⟨v', hv'⟩ := h'.exists_value
  cases v with
  | none =>
    have hnone : ∀ t, step t = none := hv
    rw [hnone, Option.bind_none]
    exact (Option.bind_eq_none_iff.mpr fun t _ => hnone t).symm
  | some a =>
    cases v' with
    | none =>
      have hnone : ∀ t, step' t = none := hv'
      rw [hnone, Option.bind_none]
      exact Option.bind_eq_none_iff.mpr fun t _ => hnone t
    | some b =>
      have hstep : ∀ t, step t = some (put a t) := hv
      have hstep' : ∀ t, step' t = some (put' b t) := hv'
      rw [hstep, hstep', Option.bind_some, Option.bind_some, hstep, hstep', hc]

section Instances

variable (w : ℕ) (p : Bytes)

instance puts_none : Puts (applyField (none : Option (Field σ)) w p) (fun (_ : Unit) tx => tx) :=
  ⟨some (), fun _ => rfl⟩

instance puts_varint (name : String) (set : ℕ → σ → σ) :
    Puts (applyField (some (.varint name set)) w p) set := by
  refine ⟨if w = 0 then some (varintValue p) else none, fun tx => ?_⟩
  unfold applyField
  dsimp only
  split_ifs <;> rfl

instance puts_bytesField (name : String) (set : Bytes → σ → σ) :
    Puts (applyField (bytesField name set) w p) set := by
  refine ⟨if w = 2 then some (payloadContent p) else none, fun tx => ?_⟩
  unfold applyField bytesField
  dsimp only
  split_ifs <;> rfl

instance puts_intField (unmarshal : IntUnmarshal) (name : String) (set : SdkInt → σ → σ) :
    Puts (applyField (intField unmarshal name set) w p) set := by
  refine ⟨if w = 2 then (unmarshal (payloadContent p)).toOption else none, fun tx => ?_⟩
  unfold applyField intField
  dsimp only
  split_ifs
  · cases unmarshal (payloadContent p) <;> rfl
  · rfl

instance puts_accessesField (add : LegacyAccessTuple → σ → σ) :
    Puts (applyField (accessesField add) w p) add := by
  refine ⟨if w = 2 then (unmarshalAccessTuple (payloadContent p)).toOption else none, fun tx => ?_⟩
  unfold applyField accessesField
  dsimp only
  split_ifs
  · cases unmarshalAccessTuple (payloadContent p) <;> rfl
  · rfl

instance puts_msgData : Puts (applyMsg 1 w p) (fun any msg => { msg with data := some any }) := by
  refine ⟨if w = 2 then (unmarshalAny (payloadContent p)).toOption else none, fun msg => ?_⟩
  unfold applyMsg
  split_ifs <;> rfl

instance puts_msgSize : Puts (applyMsg 2 w p) (fun size msg => { msg with size }) := by
  refine ⟨if w = 1 then some (beVal p.reverse) else none, fun msg => ?_⟩
  unfold applyMsg
  split_ifs <;> rfl

instance puts_msgHash : Puts (applyMsg 3 w p) (fun hash msg => { msg with hash }) := by
  refine ⟨if w = 2 then some (payloadContent p) else none, fun msg => ?_⟩
  unfold applyMsg
  split_ifs <;> rfl

instance puts_msgSender : Puts (applyMsg 4 w p) (fun sender msg => { msg with sender }) := by
  refine ⟨if w = 2 then some (payloadContent p) else none, fun msg => ?_⟩
  unfold applyMsg
  split_ifs <;> rfl

end Instances

/-! ### The layouts -/

theorem accessTupleField_comm {m n : ℕ} (h : m ≠ n) (w w' : ℕ) (p p' : Bytes)
    (tx : LegacyAccessTuple) :
    (applyField (accessTupleField m) w p tx).bind (applyField (accessTupleField n) w' p') =
      (applyField (accessTupleField n) w' p' tx).bind (applyField (accessTupleField m) w p) := by
  unfold accessTupleField
  split <;> split <;> first
    | exact absurd rfl h
    | refine bind_comm_of_puts ?_ tx
      exact fun _ _ _ => rfl

section Transactions

variable (unmarshal : IntUnmarshal)

theorem legacyTxField_comm {m n : ℕ} (h : m ≠ n) (w w' : ℕ) (p p' : Bytes)
    (tx : LegacyLegacyTx) :
    (applyField (legacyTxField unmarshal m) w p tx).bind
        (applyField (legacyTxField unmarshal n) w' p') =
      (applyField (legacyTxField unmarshal n) w' p' tx).bind
        (applyField (legacyTxField unmarshal m) w p) := by
  unfold legacyTxField
  split <;> split <;> first
    | exact absurd rfl h
    | refine bind_comm_of_puts ?_ tx
      exact fun _ _ _ => rfl

theorem accessListTxField_comm {m n : ℕ} (h : m ≠ n) (w w' : ℕ) (p p' : Bytes)
    (tx : LegacyAccessListTx) :
    (applyField (accessListTxField unmarshal m) w p tx).bind
        (applyField (accessListTxField unmarshal n) w' p') =
      (applyField (accessListTxField unmarshal n) w' p' tx).bind
        (applyField (accessListTxField unmarshal m) w p) := by
  unfold accessListTxField
  split <;> split <;> first
    | exact absurd rfl h
    | refine bind_comm_of_puts ?_ tx
      exact fun _ _ _ => rfl

theorem dynamicFeeTxField_comm {m n : ℕ} (h : m ≠ n) (w w' : ℕ) (p p' : Bytes)
    (tx : LegacyDynamicFeeTx) :
    (applyField (dynamicFeeTxField unmarshal m) w p tx).bind
        (applyField (dynamicFeeTxField unmarshal n) w' p') =
      (applyField (dynamicFeeTxField unmarshal n) w' p' tx).bind
        (applyField (dynamicFeeTxField unmarshal m) w p) := by
  unfold dynamicFeeTxField
  split <;> split <;> first
    | exact absurd rfl h
    | refine bind_comm_of_puts ?_ tx
      exact fun _ _ _ => rfl

end Transactions

theorem bind_comm_of_idle {step step' : σ → Option σ} (h : ∀ s, step s = some s) (s : σ) :
    (step s).bind step' = (step' s).bind step := by
  rw [h, Option.bind_some, funext h, Option.bind_fun_some]

theorem applyMsg_comm {m n : ℕ} (h : m ≠ n) (w w' : ℕ) (p p' : Bytes) (msg : LegacyMsgEthereumTx) :
    (applyMsg m w p msg).bind (applyMsg n w' p') =
      (applyMsg n w' p' msg).bind (applyMsg m w p) := by
  by_cases hm : outside 4 m
  · exact bind_comm_of_idle (fun _ => applyMsg_idle hm) msg
  · by_cases hn : outside 4 n
    · exact (bind_comm_of_idle (fun _ => applyMsg_idle hn) msg).symm
    · obtain ⟨hm1, hm4⟩ : 1 ≤ m ∧ m ≤ 4 := by unfold outside at hm; omega
      obtain ⟨hn1, hn4⟩ : 1 ≤ n ∧ n ≤ 4 := by unfold outside at hn; omega
      interval_cases m <;> interval_cases n <;> first
        | exact absurd rfl h
        | refine bind_comm_of_puts ?_ msg
          exact fun _ _ _ => rfl

/-! ### The decoders -/

/-- Field order and unknown fields do not matter. -/
theorem decode_rearranged (unmarshal : IntUnmarshal) {fs fs' : List WholeField}
    (hdata : (wholeBytes fs').length < 2 ^ 63) :
    (Rearranged 4 [] fs fs' → ∀ msg, unmarshalLegacyMsgEthereumTx (wholeBytes fs) = .ok msg ↔
      unmarshalLegacyMsgEthereumTx (wholeBytes fs') = .ok msg) ∧
    (Rearranged 9 [] fs fs' → ∀ tx, unmarshalLegacyTx unmarshal (wholeBytes fs) = .ok tx ↔
      unmarshalLegacyTx unmarshal (wholeBytes fs') = .ok tx) ∧
    (Rearranged 11 [8] fs fs' → ∀ tx, unmarshalAccessListTx unmarshal (wholeBytes fs) = .ok tx ↔
      unmarshalAccessListTx unmarshal (wholeBytes fs') = .ok tx) ∧
    (Rearranged 12 [9] fs fs' → ∀ tx, unmarshalDynamicFeeTx unmarshal (wholeBytes fs) = .ok tx ↔
      unmarshalDynamicFeeTx unmarshal (wholeBytes fs') = .ok tx) ∧
    (Rearranged 2 [2] fs fs' → ∀ tuple, unmarshalAccessTuple (wholeBytes fs) = .ok tuple ↔
      unmarshalAccessTuple (wholeBytes fs') = .ok tuple) := by
  refine ⟨?_, ?_, ?_, ?_, ?_⟩
  · intro h msg
    have hc : CommuteAcross WholeField.num msgReader.step := fun f g msg hne =>
      applyMsg_comm hne _ _ _ _ msg
    unfold unmarshalLegacyMsgEthereumTx
    rw [msgLoop_eq, msgLoop_eq]
    exact msgReader.call_rearranged _ h hdata (fun _ _ hn => hn) hc _ msg
  · intro h tx
    exact table_rearranged (legacyTxField_eq_none unmarshal) (legacyTxField_comm unmarshal) _ h hdata
      _ tx
  · intro h tx
    exact table_rearranged (accessListTxField_eq_none unmarshal) (accessListTxField_comm unmarshal) _
      h hdata _ tx
  · intro h tx
    exact table_rearranged (dynamicFeeTxField_eq_none unmarshal) (dynamicFeeTxField_comm unmarshal) _
      h hdata _ tx
  · intro h tuple
    exact table_rearranged accessTupleField_eq_none accessTupleField_comm _ h hdata _ tuple

/-! ### A tuple with its address between the storage keys -/

def addressField : WholeField :=
  ⟨[0x0A], [0x01] ++ [0x61], isVarint_singleton (by decide),
    .bytes (isVarint_singleton (by decide)) (by decide)⟩

def keyField (b : Byte) : WholeField :=
  ⟨[0x12], [0x01] ++ [b], isVarint_singleton (by decide),
    .bytes (isVarint_singleton (by decide)) (show 1 = varintValue [0x01] by decide)⟩

/-- A field 15 of four bytes. -/
def unknownField : WholeField :=
  ⟨[0x7D], [0, 0, 0, 0], isVarint_singleton (by decide), .fixed32 rfl⟩

theorem rearranged_tuple :
    Rearranged 2 [2] [addressField, keyField 1, keyField 2]
      [keyField 1, unknownField, addressField, keyField 2] := by
  refine ⟨?_, ⟨[unknownField], ?_, ?_⟩, ?_⟩
  · intro n hn hrep
    have hn1 : n = 1 := by
      have hne : n ≠ 2 := by simpa using hrep
      unfold outside at hn
      omega
    subst hn1
    decide +kernel
  · intro f hf
    rw [List.mem_singleton.mp hf]
    decide +kernel
  · have hmove : ([unknownField] ++ [addressField, keyField 2]).Perm
        ([addressField, keyField 2] ++ [unknownField]) := List.perm_append_comm
    exact (hmove.cons (keyField 1)).trans (.swap _ _ _)
  · intro n hn
    rw [List.mem_singleton.mp hn]
    rfl

theorem decode_rearranged_tuple :
    unmarshalAccessTuple (wholeBytes [keyField 1, unknownField, addressField, keyField 2]) =
      .ok ⟨[0x61], [[1], [2]]⟩ := by
  have hread : unmarshalAccessTuple (wholeBytes [addressField, keyField 1, keyField 2]) =
      .ok ⟨[0x61], [[1], [2]]⟩ := by decide +kernel
  have hall := @decode_rearranged (fun _ => .ok none) [addressField, keyField 1, keyField 2]
    [keyField 1, unknownField, addressField, keyField 2] (by decide +kernel)
  exact (hall.2.2.2.2 rearranged_tuple _).mp hread

end Tsc.LegacyTx
