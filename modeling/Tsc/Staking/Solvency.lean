import Tsc.Staking.Chain
import Tsc.Lockup.TotalLocked

/-!
# The locks of the whole chain are staked

Every account's locks rest on its own delegations, and all delegations together are
worth what the validators hold. Each record is rounded up on its own, so the total
the module reports may pass the staked tokens, by less than one token for each
record: records may hold fractions of a share from before.
-/

namespace Tsc.Staking

open Go Sdk Kv Lockup

/-! ### All records together -/

section Records

variable {w : State} (hw : Valid w)
include hw

/-- The records of a validator are worth its tokens. -/
theorem validator_worth {v : ValAddress} {x : Validator} (hx : w.validators.get v = some x) :
    sharesOf w v * (x.tokens / x.delegatorShares : ℚ) = x.tokens := by
  have hsum := hw.shares v
  rw [hx, Option.map_some, Option.getD_some] at hsum
  rw [hsum]
  by_cases h0 : x.delegatorShares = 0
  · rw [hw.unshared v x hx h0]
    simp
  · field_simp

theorem records_worth :
    (w.delegations.total fun key shares => shares * rate w (ofLex key).2) = (tokenTotal w : ℚ) := by
  calc (w.delegations.total fun key shares => shares * rate w (ofLex key).2)
      = w.delegations.total fun key shares => w.validators.total fun v x =>
          if v = (ofLex key).2 then shares * (x.tokens / x.delegatorShares : ℚ) else 0 := by
        apply Store.total_congr
        intro key shares hk
        obtain ⟨_, x, hx, _⟩ := hw.priced.record key shares hk
        rw [Store.total_at (fun v x hv => if_neg hv), Store.share_some _ hx, rate_some hx,
          if_pos rfl]
    _ = w.validators.total fun v x => w.delegations.total fun key shares =>
          if v = (ofLex key).2 then shares * (x.tokens / x.delegatorShares : ℚ) else 0 :=
        Store.total_comm _ _ _
    _ = w.validators.total fun _ x => (x.tokens : ℚ) := by
        apply Store.total_congr
        intro v x hx
        refine Eq.trans ?_ (validator_worth hw hx)
        unfold sharesOf Store.total
        rw [← List.sum_map_mul_right]
        simp only [eq_comm (a := v), ite_mul, zero_mul]
    _ = (tokenTotal w : ℚ) := by
        unfold tokenTotal Store.total
        rw [Int.cast_list_sum, List.map_map]
        rfl

theorem delegated_sum_le (accounts : Finset AccAddress) :
    ∑ a ∈ accounts, delegated w a ≤ tokenTotal w + w.delegations.entries.length := by
  have hone : ∀ key shares, w.delegations.get key = some shares →
      ∑ a ∈ accounts, worth w a key shares ≤ ⌈shares * rate w (ofLex key).2⌉ := by
    intro key shares hk
    obtain ⟨_, x, hx, _⟩ := hw.priced.record key shares hk
    have hnn := (hw.priced.ceil_bounds hk hx).1
    unfold worth
    rw [Finset.sum_ite_eq]
    split_ifs
    · exact le_refl _
    · exact hnn
  have hrounded : ((w.delegations.total fun key shares => ⌈shares * rate w (ofLex key).2⌉ : ℤ) : ℚ) ≤
      tokenTotal w + w.delegations.entries.length := by
    rw [← records_worth hw]
    unfold Store.total
    rw [Int.cast_list_sum, List.map_map]
    calc ((w.delegations.entries.map _).sum : ℚ)
        ≤ (w.delegations.entries.map fun e => e.2 * rate w (ofLex e.1).2 + 1).sum := by
          apply List.sum_le_sum
          intro e _
          exact (Int.ceil_lt_add_one _).le
      _ = _ := by simp [List.sum_map_add]
  calc ∑ a ∈ accounts, delegated w a
      = w.delegations.total fun key shares => ∑ a ∈ accounts, worth w a key shares :=
        Store.total_finset_sum accounts (worth w) w.delegations
    _ ≤ w.delegations.total fun key shares => ⌈shares * rate w (ofLex key).2⌉ :=
        Store.total_le_total hone
    _ ≤ tokenTotal w + w.delegations.entries.length := by exact_mod_cast hrounded

end Records

/-! ### The chain's locks are reachable -/

section Reach

variable {p : Platform} {t₀ : BlockTime}

theorem requests_reachable {ctx : Ctx} {requests : List Request} {u : BlockTime}
    {s s' : LockStore × State} (h : Reachable (keepers p) t₀ u s.1)
    (hlater : u.time.nanos ≤ ctx.blockTime.time.nanos) (hadm : ∀ r ∈ requests, r.Admissible)
    (hm : forRange (handleRequest p ctx) s requests = .ok s') :
    ∃ u', u'.time.nanos ≤ ctx.blockTime.time.nanos ∧ Reachable (keepers p) t₀ u' s'.1 := by
  refine forRange_invariant (fun s => ∃ u', u'.time.nanos ≤ ctx.blockTime.time.nanos ∧
    Reachable (keepers p) t₀ u' s.1) ?_ ⟨u, hlater, h⟩ hm
  intro request hr s s' hs hstep
  obtain ⟨u', hle, hreach⟩ := hs
  cases request with
  | lockup msg =>
    exact ⟨ctx.blockTime, le_refl _, Run.message hreach hle (hadm _ hr) hstep⟩
  | staking msg =>
    simp only [handleRequest, bind_eq_ok] at hstep
    obtain ⟨_, _, heq⟩ := hstep
    cases heq
    exact ⟨u', hle, hreach⟩
  | send transfer =>
    simp only [handleRequest, bind_eq_ok] at hstep
    obtain ⟨_, _, heq⟩ := hstep
    cases heq
    exact ⟨u', hle, hreach⟩

/-- What holds of every run of lockup messages holds of the chain's lockup store. -/
theorem ChainRun.reachable {w₀ : State} {t : BlockTime} {s : LockStore × State}
    {loss : AccAddress → ℤ} (h : ChainRun p t₀ w₀ t s loss) :
    ∃ u, u.time.nanos ≤ t.time.nanos ∧ Reachable (keepers p) t₀ u s.1 := by
  induction h with
  | start => exact ⟨t₀, le_refl _, Run.start⟩
  | tx _ hlater hante hadm hok ih =>
    obtain ⟨u, hle, hreach⟩ := ih
    have htime := newAnteHandler_blockTime hante
    rw [← htime] at hlater ⊢
    exact requests_reachable hreach (hle.trans hlater) hadm hok

end Reach

theorem activeAfter_support {st : LockStore} {L : Ledger} (h : Encodes st L) (n : ℤ) :
    Function.support (fun a => activeAfter n (L a).locks) ⊆ h.finite_accounts.toFinset := by
  intro a ha
  rw [Finset.mem_coe, Set.Finite.mem_toFinset, Set.mem_ofPred_eq]
  intro hnil
  apply ha
  dsimp only
  rw [hnil]
  rfl

/-- While nothing went unchecked, the total that `TotalLockedAmount` reports is within the
tokens of all validators, up to one token for each delegation record. -/
theorem total_locked_within_stake (p : Platform) {t₀ t : BlockTime} {w₀ : State}
    {s : LockStore × State} {loss : AccAddress → ℤ} (hw₀ : Valid w₀) (hu₀ : Unslashed w₀)
    (h1970 : 0 ≤ t₀.time.nanos) (h : ChainRun p t₀ w₀ t s loss) (hloss : ∀ a, loss a = 0)
    (validDenom : Bytes → Bool) (ctx : Ctx) (hlater : t.time.nanos ≤ ctx.blockTime.time.nanos)
    (denom : Bytes) (total : ℤ)
    (htotal : totalLockedAmount (keepers p) validDenom ctx s.1 s.2 (some ()) = .ok ⟨denom, total⟩) :
    total ≤ tokenTotal s.2 + s.2.delegations.entries.length := by
  obtain ⟨⟨hw, _⟩, L, hL, hle⟩ := h.uncovered_le hw₀ hu₀
  obtain ⟨u, hu, hreach⟩ := h.reachable
  obtain ⟨M, hM, hafter⟩ := hreach.encodes
  have hfirst : (0 : ℤ) ≤ t₀.day := Int.ediv_nonneg h1970 (by decide)
  have hday : 0 ≤ ctx.blockTime.day :=
    hfirst.trans (BlockTime.day_mono ((hreach.later.trans hu).trans hlater))
  have hafter₀ : Ledger.After 0 M := fun a d hd => lt_of_le_of_lt hfirst (hafter a d hd)
  have hsum := ((hM.totalLockedAmount_iff hafter₀ hday (keepers p) validDenom s.2 denom total).mp
    htotal).2.1
  rw [finsum_eq_sum_of_support_subset _ (activeAfter_support hM ctx.blockTime.day)] at hsum
  rw [hsum]
  refine le_trans (Finset.sum_le_sum fun a _ => ?_) (delegated_sum_le hw hM.finite_accounts.toFinset)
  have hshort := hle a
  have hanti := activeAfter_anti (L a).wellFormed (BlockTime.day_mono hlater)
  rw [hloss a] at hshort
  rw [Encodes.locks_eq hM hL a]
  unfold uncovered deficit at hshort
  omega

/-- After the mixed transaction 100 are locked, of the 150 tokens of the validators. -/
theorem total_locked_within_stake_mixed :
    ∃ s loss, ChainRun chain newYear.blockTime fundedSender newYear.blockTime s loss ∧
      totalLockedAmount (keepers chain) validateDenom newYear s.1 s.2 (some ()) = .ok (tsc 100) ∧
      100 ≤ tokenTotal s.2 + s.2.delegations.entries.length := by
  have hok : (runMixed >>= fun r => totalLockedAmount (keepers chain) validateDenom newYear r.2.1.1
      r.2.1.2 (some ())) = .ok (tsc 100) := by
    decide +kernel
  simp only [runMixed, bind_eq_ok] at hok
  obtain ⟨_, ⟨ctx, hante, s, hs, _, _, _, _, heq⟩, htotal⟩ := hok
  cases heq
  have hrun := mixed_run hante hs
  have hloss : ∀ a, (0 : ℤ) + (mixedTx.requests.map (unchecked bech32 ctx a)).sum = 0 := by
    intro a
    rfl
  exact ⟨s, _, hrun, htotal, total_locked_within_stake chain (valid_setBalance twoValidators_valid _)
    fundedSender_unslashed (by decide) hrun hloss validateDenom newYear (le_refl _) _ 100 htotal⟩

end Tsc.Staking
