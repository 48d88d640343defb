import Tsc.Staking.Accounting

/-!
# Unbonding and delegating whole tokens

`Moves w w' d v amt`: the delegator `d` has `amt` more delegated in `w'` than in
`w`, by the record with the validator `v` alone, nobody else's amount changed, and
the accounting still holds. With shares of exact rationals, unbonding the shares of
`amt` tokens is a move by `-amt`, delegating `amt` a move by `amt`.
-/

namespace Tsc.Staking

open Go Sdk Kv Lockup

structure Moves (w w' : State) (d : AccAddress) (v : ValAddress) (amt : ℤ) : Prop where
  valid : Valid w'
  amounts : ∀ d', delegated w' d' = delegated w d' + if d = d' then amt else 0
  records : ∀ key, key ≠ toLex (d, v) → w'.delegations.get key = w.delegations.get key
  tokens : tokenTotal w' = tokenTotal w + amt
  pool : w'.pool = w.pool

theorem Moves.self {w w' : State} {d : AccAddress} {v : ValAddress} {amt : ℤ}
    (h : Moves w w' d v amt) : delegated w' d = delegated w d + amt := by
  rw [h.amounts d, if_pos rfl]

theorem Moves.validators {w w' : State} {d d' : AccAddress} {v v' : ValAddress} {amt : ℤ}
    (h : Moves w w' d v amt) (hv : v' ∈ validatorsOf w' d') :
    v' ∈ validatorsOf w d' ∨ d = d' ∧ v = v' := by
  rw [mem_validatorsOf] at hv ⊢
  by_cases hkey : toLex (d', v') = toLex (d, v)
  · cases toLex.injective hkey
    exact Or.inr ⟨rfl, rfl⟩
  · rw [h.records _ hkey] at hv
    exact Or.inl hv

/-- Moves from the new records: rates unchanged on all of them, one record
changed from worth `old` to worth `old + amt`. -/
theorem delegated_of_records {w w' : State} {d : AccAddress} {v : ValAddress} {old new : ℚ}
    {amt : ℤ} (d' : AccAddress)
    (hrate : ∀ key s, w'.delegations.get key = some s → rate w' (ofLex key).2 =
      rate w (ofLex key).2)
    (htotal : w'.delegations.total (worth w d') =
      w.delegations.total (worth w d') - worth w d' (toLex (d, v)) old +
        worth w d' (toLex (d, v)) new)
    (hnew : ⌈new * rate w v⌉ = ⌈old * rate w v⌉ + amt) :
    delegated w' d' = delegated w d' + if d = d' then amt else 0 := by
  have hworth : w'.delegations.total (worth w' d') = w'.delegations.total (worth w d') := by
    apply Store.total_congr
    intro key s hk
    unfold worth
    rw [hrate key s hk]
  unfold delegated
  rw [hworth, htotal]
  unfold worth
  rw [ofLex_toLex]
  dsimp only
  by_cases hd : d = d'
  · rw [if_pos hd, if_pos hd, if_pos hd, hnew]
    ring
  · rw [if_neg hd, if_neg hd, if_neg hd]
    ring

/-! ### The share arithmetic -/

structure Priceable (x : Validator) (amt : ℤ) (shares : ℚ) : Prop where
  sharesPos : 0 < x.delegatorShares
  tokensPos : 0 < x.tokens
  amtPos : 0 < amt
  eq : shares = x.delegatorShares * amt / x.tokens

section Priceable

variable {x : Validator} {amt : ℤ} {shares : ℚ} (h : Priceable x amt shares)
include h

theorem Priceable.tokens_cast : (0 : ℚ) < x.tokens := by exact_mod_cast h.tokensPos

theorem Priceable.worth_eq : shares * ((x.tokens : ℚ) / x.delegatorShares) = amt := by
  have hT := h.tokens_cast
  have hS := h.sharesPos
  rw [h.eq]
  field_simp

theorem Priceable.pos : 0 < shares := by
  have hT := h.tokens_cast
  have hS := h.sharesPos
  have ha : (0 : ℚ) < amt := by exact_mod_cast h.amtPos
  rw [h.eq]
  positivity

theorem Priceable.remaining_eq : x.delegatorShares - shares =
    x.delegatorShares * ((x.tokens : ℚ) - amt) / x.tokens := by
  have hT := h.tokens_cast
  rw [h.eq]
  field_simp

theorem Priceable.tokens_of_remaining (h0 : x.delegatorShares - shares = 0) : x.tokens = amt := by
  rw [h.remaining_eq, div_eq_zero_iff, mul_eq_zero] at h0
  rcases h0 with (h0 | h0) | h0
  · exact absurd h0 (ne_of_gt h.sharesPos)
  · have hq : (x.tokens : ℚ) = amt := sub_eq_zero.mp h0
    exact_mod_cast hq
  · exact absurd h0 (ne_of_gt h.tokens_cast)

theorem Priceable.ceil_sub (current : ℚ) :
    ⌈(current - shares) * ((x.tokens : ℚ) / x.delegatorShares)⌉ =
      ⌈current * ((x.tokens : ℚ) / x.delegatorShares)⌉ + -amt := by
  rw [sub_mul, h.worth_eq, Int.ceil_sub_intCast]
  ring

theorem Priceable.amt_le (hle : shares ≤ x.delegatorShares) : amt ≤ x.tokens := by
  have hT := h.tokens_cast
  have hS := h.sharesPos
  rw [h.eq, div_le_iff₀ hT] at hle
  have hq : (amt : ℚ) ≤ x.tokens := le_of_mul_le_mul_left hle hS
  exact_mod_cast hq

theorem Priceable.rate_after (hne : x.delegatorShares - shares ≠ 0) :
    ((x.tokens - amt : ℤ) : ℚ) / (x.delegatorShares - shares) =
      x.tokens / x.delegatorShares := by
  have hT := h.tokens_cast
  have hS := h.sharesPos
  rw [h.remaining_eq] at hne ⊢
  have hrest : (x.tokens : ℚ) - amt ≠ 0 := by
    intro h0
    rw [h0, mul_zero, zero_div] at hne
    exact hne rfl
  push_cast
  field_simp

end Priceable

/-! ### Unbond -/

def reduced (w : State) (d : AccAddress) (v : ValAddress) (rest : ℚ) : State :=
  { w with delegations :=
      if rest = 0 then w.delegations.delete (toLex (d, v))
      else w.delegations.set (toLex (d, v)) rest }

theorem reduced_get (w : State) (d : AccAddress) (v : ValAddress) (rest : ℚ)
    (key : AccAddress ×ₗ ValAddress) :
    (reduced w d v rest).delegations.get key =
      if key = toLex (d, v) then (if rest = 0 then none else some rest)
      else w.delegations.get key := by
  unfold reduced
  dsimp only
  by_cases h0 : rest = 0
  · rw [if_pos h0, if_pos h0, Store.get_delete]
    split_ifs <;> rfl
  · rw [if_neg h0, if_neg h0, Store.get_set]
    split_ifs <;> rfl

theorem reduced_total {M : Type} [AddCommGroup M] (w : State) {d : AccAddress} {v : ValAddress}
    {current : ℚ} (rest : ℚ) (hk : w.delegations.get (toLex (d, v)) = some current)
    (g : AccAddress ×ₗ ValAddress → ℚ → M) (hg : g (toLex (d, v)) 0 = 0) :
    (reduced w d v rest).delegations.total g =
      w.delegations.total g - g (toLex (d, v)) current + g (toLex (d, v)) rest := by
  unfold reduced
  dsimp only
  by_cases h0 : rest = 0
  · rw [if_pos h0, Store.total_delete, Store.share_some g hk, h0, hg, add_zero]
  · rw [if_neg h0, Store.total_set, Store.share_some g hk]

def unbonded (w : State) (d : AccAddress) (v : ValAddress) (x : Validator) (current shares : ℚ)
    (amt : ℤ) : State :=
  { reduced w d v (current - shares) with validators := w.validators.set v { x with
      tokens := x.tokens - amt, delegatorShares := x.delegatorShares - shares } }

section Unbonded

variable {w : State} {d : AccAddress} {v : ValAddress} {x : Validator} {current shares : ℚ}
  {amt : ℤ} (hw : Valid w) (hk : w.delegations.get (toLex (d, v)) = some current)
  (hx : w.validators.get v = some x) (hp : Priceable x amt shares) (hle : shares ≤ current)
include hw hk hx hp hle

omit hk hx hp in
theorem unbonded_positive (key : AccAddress ×ₗ ValAddress) (s : ℚ)
    (h : (reduced w d v (current - shares)).delegations.get key = some s) : 0 < s := by
  rw [reduced_get] at h
  split_ifs at h with hkey h0
  · cases h
    exact lt_of_le_of_ne (sub_nonneg.mpr hle) (Ne.symm h0)
  · exact hw.positive key s h

omit hp hle in
theorem unbonded_shares (v' : ValAddress) :
    sharesOf (unbonded w d v x current shares amt) v' =
      (((unbonded w d v x current shares amt).validators.get v').map
        Validator.delegatorShares).getD 0 := by
  have htotal := reduced_total w (current - shares) hk
    (fun key s => if (ofLex key).2 = v' then s else 0) (ite_self 0)
  have hsum := hw.shares v'
  unfold sharesOf at hsum
  rw [hsum, ofLex_toLex] at htotal
  unfold sharesOf unbonded
  dsimp only at htotal ⊢
  rw [htotal, Store.get_set]
  by_cases hv : v' = v
  · rw [if_pos hv, if_pos hv.symm, if_pos hv.symm, hv, hx]
    simp only [Option.map_some, Option.getD_some]
    ring
  · rw [if_neg hv, if_neg (Ne.symm hv), if_neg (Ne.symm hv)]
    ring

theorem unbonded_rate (key : AccAddress ×ₗ ValAddress) (s : ℚ)
    (h : (unbonded w d v x current shares amt).delegations.get key = some s) :
    rate (unbonded w d v x current shares amt) (ofLex key).2 = rate w (ofLex key).2 := by
  by_cases hv : (ofLex key).2 = v
  · -- shares remain at `v`, since this record has some
    have hget : (unbonded w d v x current shares amt).validators.get v = some { x with
        tokens := x.tokens - amt, delegatorShares := x.delegatorShares - shares } := by
      unfold unbonded
      dsimp only
      rw [Store.get_set, if_pos rfl]
    have hpos : ∀ k r, (unbonded w d v x current shares amt).delegations.get k = some r → 0 < r :=
      unbonded_positive hw hle
    have hone := le_sharesOf hpos h
    rw [hv, unbonded_shares hw hk hx v, hget, Option.map_some, Option.getD_some] at hone
    have hne : x.delegatorShares - shares ≠ 0 := ne_of_gt (lt_of_lt_of_le (hpos key s h) hone)
    rw [hv, rate_some hget, rate_some hx]
    exact hp.rate_after hne
  · unfold rate unbonded
    dsimp only
    rw [Store.get_set, if_neg hv]

omit hp in
theorem unbonded_valid (hamt : 0 ≤ amt ∧ amt ≤ x.tokens)
    (hall : x.delegatorShares - shares = 0 → amt = x.tokens) :
    Valid (unbonded w d v x current shares amt) ∧
      tokenTotal (unbonded w d v x current shares amt) = tokenTotal w + -amt := by
  have htokens : tokenTotal (unbonded w d v x current shares amt) = tokenTotal w + -amt := by
    unfold tokenTotal unbonded
    dsimp only
    rw [Store.total_set, Store.share_some _ hx]
    ring
  have hpoolEq : (unbonded w d v x current shares amt).pool = w.pool := rfl
  refine ⟨⟨unbonded_positive hw hle, unbonded_shares hw hk hx, ?_, ?_, ?_⟩, htokens⟩
  · exact Store.forall_get_set (sub_nonneg.mpr hamt.2) hw.tokens
  · exact Store.forall_get_set (fun h0 => sub_eq_zero.mpr (hall h0).symm) hw.unshared
  · have hpool := hw.pool
    rw [htokens, hpoolEq]
    exact ⟨by omega, hpool.2⟩

theorem unbonded_moves : Moves w (unbonded w d v x current shares amt) d v (-amt) := by
  have hamt := hp.amt_le (hle.trans (hw.priced.record_of hk hx).2)
  have hworth : ⌈(current - shares) * rate w v⌉ = ⌈current * rate w v⌉ + -amt := by
    rw [rate_some hx]
    exact hp.ceil_sub current
  obtain ⟨hvalid, htokens⟩ := unbonded_valid hw hk hx hle ⟨hp.amtPos.le, hamt⟩ fun h0 =>
    (hp.tokens_of_remaining h0).symm
  refine ⟨hvalid, ?_, ?_, htokens, rfl⟩
  · intro d'
    apply delegated_of_records d' (unbonded_rate hw hk hx hp hle) _ hworth
    apply reduced_total w (current - shares) hk
    unfold worth
    simp
  · intro key hkey
    exact (reduced_get w d v (current - shares) key).trans (if_neg hkey)

end Unbonded

/-! ### Delegate -/

/-- A validator that `Delegate` accepts: it has both shares and tokens, or neither. -/
structure Open (x : Validator) (amt : ℤ) : Prop where
  amtPos : 0 < amt
  tokens : 0 ≤ x.tokens
  kind : (x.delegatorShares = 0 ∧ x.tokens = 0) ∨ (0 < x.delegatorShares ∧ 0 < x.tokens)

/-- The shares issued for `amt` tokens. -/
def exactNew (x : Validator) (amt : ℤ) : ℚ :=
  if x.delegatorShares = 0 then amt else x.delegatorShares * amt / x.tokens

def addDelegated (w : State) (d : AccAddress) (v : ValAddress) (x : Validator) (amt : ℤ) : State :=
  addShares w d v x amt (exactNew x amt)

section Open

variable {x : Validator} {amt : ℤ} (h : Open x amt)
include h

theorem Open.newShares_eq (c : AddressCodec) : newShares c.exact x amt = .ok (exactNew x amt) := by
  unfold newShares exactNew
  rcases h.kind with ⟨hS, _⟩ | ⟨hS, hT⟩
  · rw [if_pos hS, if_pos hS]
  · rw [if_neg (ne_of_gt hS), if_neg (ne_of_gt hS)]
    exact if_neg (ne_of_gt hT)

theorem Open.exactNew_pos : 0 < exactNew x amt := by
  have ha : (0 : ℚ) < amt := by exact_mod_cast h.amtPos
  unfold exactNew
  rcases h.kind with ⟨hS, _⟩ | ⟨hS, hT⟩
  · rw [if_pos hS]
    exact ha
  · have hTq : (0 : ℚ) < x.tokens := by exact_mod_cast hT
    rw [if_neg (ne_of_gt hS)]
    positivity

theorem Open.shares_after (hS : x.delegatorShares ≠ 0) :
    x.delegatorShares + exactNew x amt =
      x.delegatorShares * ((x.tokens : ℚ) + amt) / x.tokens ∧ (x.tokens : ℚ) + amt ≠ 0 := by
  have ha : (0 : ℚ) < amt := by exact_mod_cast h.amtPos
  rcases h.kind with ⟨h0, _⟩ | ⟨_, hT⟩
  · exact absurd h0 hS
  · have hTq : (0 : ℚ) < x.tokens := by exact_mod_cast hT
    unfold exactNew
    rw [if_neg hS]
    exact ⟨by field_simp, by positivity⟩

theorem Open.shares_nonneg : 0 ≤ x.delegatorShares := by
  rcases h.kind with ⟨hS, _⟩ | ⟨hS, _⟩
  · rw [hS]
  · exact hS.le

theorem Open.worth_new : exactNew x amt *
    (((x.tokens + amt : ℤ) : ℚ) / (x.delegatorShares + exactNew x amt)) = amt := by
  have ha : (0 : ℚ) < amt := by exact_mod_cast h.amtPos
  rcases h.kind with ⟨hS, hT⟩ | ⟨hS, hT⟩
  · unfold exactNew
    rw [if_pos hS, hS, hT]
    push_cast
    rw [zero_add, div_self (ne_of_gt ha), mul_one]
  · have hTq : (0 : ℚ) < x.tokens := by exact_mod_cast hT
    obtain ⟨hsum, hTa⟩ := h.shares_after (ne_of_gt hS)
    rw [hsum]
    unfold exactNew
    rw [if_neg (ne_of_gt hS)]
    push_cast
    field_simp

theorem Open.rate_same (hS : x.delegatorShares ≠ 0) :
    ((x.tokens + amt : ℤ) : ℚ) / (x.delegatorShares + exactNew x amt) =
      x.tokens / x.delegatorShares := by
  obtain ⟨hsum, hTa⟩ := h.shares_after hS
  rw [hsum]
  push_cast
  field_simp

end Open

section Delegated

variable {w : State} {d : AccAddress} {v : ValAddress} {x : Validator} {amt : ℤ} (hw : Valid w)
  (hx : w.validators.get v = some x) (ho : Open x amt)
include hw hx ho

omit hw hx ho in
theorem addDelegated_validator : (addDelegated w d v x amt).validators.get v = some { x with
    tokens := x.tokens + amt, delegatorShares := x.delegatorShares + exactNew x amt } := by
  unfold addDelegated addShares
  dsimp only
  rw [Store.get_set, if_pos rfl]

omit hx in
theorem addDelegated_positive (key : AccAddress ×ₗ ValAddress) (s : ℚ)
    (h : (addDelegated w d v x amt).delegations.get key = some s) : 0 < s := by
  unfold addDelegated addShares at h
  dsimp only at h
  rw [Store.get_set] at h
  have hn := ho.exactNew_pos
  split_ifs at h
  · cases h
    cases hg : w.delegations.get (toLex (d, v)) with
    | none =>
      rw [Option.getD_none, zero_add]
      exact hn
    | some cur =>
      have hcur := hw.positive _ _ hg
      rw [Option.getD_some]
      exact add_pos hcur hn
  · exact hw.positive key s h

omit hw hx ho in
theorem addDelegated_total {M : Type} [AddCommGroup M] (w : State) (d : AccAddress)
    (v : ValAddress) (x : Validator) (amt : ℤ) (g : AccAddress ×ₗ ValAddress → ℚ → M)
    (hg : g (toLex (d, v)) 0 = 0) :
    (addDelegated w d v x amt).delegations.total g = w.delegations.total g -
      g (toLex (d, v)) ((w.delegations.get (toLex (d, v))).getD 0) +
      g (toLex (d, v)) ((w.delegations.get (toLex (d, v))).getD 0 + exactNew x amt) := by
  unfold addDelegated addShares
  dsimp only
  rw [Store.total_set]
  cases hk : w.delegations.get (toLex (d, v)) with
  | none => rw [Store.share_none g hk, Option.getD_none, hg]
  | some cur => rw [Store.share_some g hk, Option.getD_some]

omit ho in
theorem addDelegated_shares (v' : ValAddress) :
    sharesOf (addDelegated w d v x amt) v' =
      (((addDelegated w d v x amt).validators.get v').map Validator.delegatorShares).getD 0 := by
  have htotal := addDelegated_total w d v x amt
    (fun key s => if (ofLex key).2 = v' then s else 0) (ite_self 0)
  have hsum := hw.shares v'
  unfold sharesOf at hsum ⊢
  rw [hsum, ofLex_toLex] at htotal
  dsimp only at htotal
  rw [htotal]
  by_cases hv : v' = v
  · rw [hv, addDelegated_validator, if_pos rfl, if_pos rfl, hx]
    simp only [Option.map_some, Option.getD_some]
    ring
  · have hget : (addDelegated w d v x amt).validators.get v' = w.validators.get v' := by
      unfold addDelegated addShares
      dsimp only
      rw [Store.get_set, if_neg hv]
    rw [hget, if_neg (Ne.symm hv), if_neg (Ne.symm hv)]
    ring

theorem addDelegated_rate (key : AccAddress ×ₗ ValAddress) (s : ℚ)
    (h : w.delegations.get key = some s) :
    rate (addDelegated w d v x amt) (ofLex key).2 = rate w (ofLex key).2 := by
  by_cases hv : (ofLex key).2 = v
  · obtain ⟨hpos, hle⟩ := hw.priced.record_of h (hv ▸ hx)
    rw [hv, rate_some (addDelegated_validator), rate_some hx]
    exact ho.rate_same (ne_of_gt (lt_of_lt_of_le hpos hle))
  · unfold rate addDelegated addShares
    dsimp only
    rw [Store.get_set, if_neg hv]

theorem addDelegated_delegated (d' : AccAddress) :
    delegated (addDelegated w d v x amt) d' = delegated w d' + if d = d' then amt else 0 := by
  have hold : w.delegations.total (worth (addDelegated w d v x amt) d') = delegated w d' := by
    apply Store.total_congr
    intro key s hk
    unfold worth
    rw [addDelegated_rate hw hx ho key s hk]
  have htotal := addDelegated_total w d v x amt (worth (addDelegated w d v x amt) d')
    (by unfold worth; simp)
  rw [hold] at htotal
  have hdef : delegated (addDelegated w d v x amt) d' =
      (addDelegated w d v x amt).delegations.total (worth (addDelegated w d v x amt) d') := rfl
  rw [hdef, htotal]
  unfold worth
  rw [ofLex_toLex]
  dsimp only
  by_cases hd : d = d'
  · rw [if_pos hd, if_pos hd, if_pos hd, add_mul, rate_some (addDelegated_validator),
      ho.worth_new, Int.ceil_add_intCast]
    ring
  · rw [if_neg hd, if_neg hd, if_neg hd]
    ring

theorem addDelegated_moves (hpool : tokenTotal w + amt ≤ w.pool) :
    Moves w (addDelegated w d v x amt) d v amt := by
  have hpos := ho.amtPos
  have hnew := ho.exactNew_pos
  have htokens : tokenTotal (addDelegated w d v x amt) = tokenTotal w + amt := by
    unfold tokenTotal addDelegated addShares
    dsimp only
    rw [Store.total_set, Store.share_some _ hx]
    ring
  have hpoolEq : (addDelegated w d v x amt).pool = w.pool := rfl
  refine ⟨⟨addDelegated_positive hw ho, addDelegated_shares hw hx, ?_, ?_, ?_⟩,
    addDelegated_delegated hw hx ho, ?_, htokens, hpoolEq⟩
  · exact Store.forall_get_set (add_nonneg ho.tokens hpos.le) hw.tokens
  · have hS := ho.shares_nonneg
    exact Store.forall_get_set (fun h0 => absurd h0 (ne_of_gt (add_pos_of_nonneg_of_pos hS hnew)))
      hw.unshared
  · rw [htokens, hpoolEq]
    exact ⟨hpool, hw.pool.2⟩
  · intro key hkey
    exact (Store.get_set ..).trans (if_neg hkey)

end Delegated

end Tsc.Staking
