import Tsc.Lockup.Backing
import Tsc.Staking.Unslashed

/-!
# The routes of a redelegation (`app/ante`)

A transaction takes one of two ante handlers, by its first extension option. The
redelegation marker is the first decorator of the Cosmos handler and looks at the
messages of the transaction itself, not into them; the handler of Ethereum
transactions has no marker. The same redelegation then runs with its source
marked or not, depending on how it was requested. How shares are priced does not matter
here: the hooks look at totals, and those of the source are read with its record reduced.
-/

namespace Tsc.Staking

open Go Sdk Kv Lockup

/-- A message of a transaction, with the staking messages it runs: itself, those
inside another message such as authz's `MsgExec`, or those an Ethereum transaction
makes through the staking precompile. -/
inductive TxMsg where
  | staking (msg : Msg)
  | wrapping (inner : List Msg)
  | ethereumTx (calls : List Msg)

def TxMsg.requests : TxMsg → List Msg
  | .staking msg => [msg]
  | .wrapping inner => inner
  | .ethereumTx calls => calls

/-- Extension options are kept as their type URLs. -/
structure Tx where
  extensionOptions : List Bytes
  msgs : List TxMsg

/-- The decorators of the two chains other than the marker: they may reject, and
they leave the block time and the marks alone. -/
structure Decorators where
  cosmos : Ctx → Tx → Out Ctx
  evm : Ctx → Tx → Out Ctx
  cosmos_keeps : ∀ ctx tx ctx', cosmos ctx tx = .ok ctx' →
    ctx'.blockTime = ctx.blockTime ∧ ctx'.redelegating = ctx.redelegating
  evm_keeps : ∀ ctx tx ctx', evm ctx tx = .ok ctx' →
    ctx'.blockTime = ctx.blockTime ∧ ctx'.redelegating = ctx.redelegating

section Handlers

variable (p : Platform) (c : AddressCodec) (D : Decorators)

/-- `RedelegationMarkerDecorator.AnteHandle` on one message of `tx.GetMsgs()`. -/
def markTxMsg (ctx : Ctx) : TxMsg → Out Ctx
  | .staking msg => markRedelegation c ctx msg
  | _ => .ok ctx

def newCosmosAnteHandler (ctx : Ctx) (tx : Tx) : Out Ctx := do
  let ctx' ← forRange (markTxMsg c) ctx tx.msgs
  D.cosmos ctx' tx

def newMonoEVMAnteHandler (ctx : Ctx) (tx : Tx) : Out Ctx := D.evm ctx tx

def ethereumTxOption : Bytes := ascii "/cosmos.evm.vm.v1.ExtensionOptionsEthereumTx"

def dynamicFeeTxOption : Bytes := ascii "/cosmos.evm.ante.v1.ExtensionOptionDynamicFeeTx"

def newAnteHandler (ctx : Ctx) (tx : Tx) : Out Ctx :=
  match tx.extensionOptions with
  | [] => newCosmosAnteHandler c D ctx tx
  | typeURL :: _ =>
    if typeURL = ethereumTxOption then newMonoEVMAnteHandler D ctx tx
    else if typeURL = dynamicFeeTxOption then newCosmosAnteHandler c D ctx tx
    else .error (fail .errUnknownExtensionOptions
      "rejecting tx with unsupported extension option: %s" [.str typeURL])

def deliverTx (ctx : Ctx) (st : LockStore) (w : State) (tx : Tx) : Out State := do
  let ctx' ← newAnteHandler p.toAddressCodec D ctx tx
  forRange (fun w msg => handle p ctx' st w msg) w (tx.msgs.flatMap TxMsg.requests)

end Handlers

inductive Route where
  | topLevel
  | nested
  | evm
  deriving DecidableEq

/-- The transaction that asks for `msg` on a route. -/
def Route.tx (msg : Msg) : Route → Tx
  | .topLevel => ⟨[], [.staking msg]⟩
  | .nested => ⟨[], [.wrapping [msg]]⟩
  | .evm => ⟨[ethereumTxOption], [.ethereumTx [msg]]⟩

/-! ### What a total has added up -/

/-- The tokens the record is counted as. -/
def recordTokens (p : Platform) (w : State) (key : AccAddress ×ₗ ValAddress) (s : ℚ) : ℤ :=
  ((getValidator w (ofLex key).2 >>= fun x => ceilTokens (readers p) x s).toOption).getD 0

def records (p : Platform) (w : State) (d : AccAddress) : List (Delegation × ℤ) :=
  (delegationsOf w d).map fun e =>
    (⟨p.valText (ofLex e.1).2, e.2⟩, recordTokens p w e.1 e.2)

theorem records_sum (p : Platform) (w : State) (d : AccAddress) :
    ((records p w d).map Prod.snd).sum =
      w.delegations.total fun key s => if (ofLex key).1 = d then recordTokens p w key s else 0 := by
  rw [records, List.map_map]
  exact delegationsOf_total w d (recordTokens p w)

section Totals

variable {p : Platform} {w : State} {d : AccAddress} {total : ℤ} (hw : Priced w)
include hw

theorem addDelegation_record {e : (AccAddress ×ₗ ValAddress) × ℚ} (he : e ∈ delegationsOf w d)
    {u u' : ℤ} (h : addDelegation (readers p) w u ⟨p.valText (ofLex e.1).2, e.2⟩ = .ok u') :
    Prices (readers p) w ⟨p.valText (ofLex e.1).2, e.2⟩ (recordTokens p w e.1 e.2) ∧
      u' = u + recordTokens p w e.1 e.2 := by
  simp only [addDelegation, ceilTokens, bind_eq_ok, wrapErr_eq_ok, intAdd_eq_ok,
    checkInt_eq_ok] at h
  obtain ⟨v, hv, x, hx, tokens, ⟨value, hvalue, hrange, rfl⟩, _, rfl⟩ := h
  cases (p.val_valText (ofLex e.1).2).symm.trans hv
  have hget : getValidator w (ofLex e.1).2 = .ok x := hx
  have htokens : recordTokens p w e.1 e.2 = ⌈value⌉ := by
    simp only [recordTokens, hget, ok_bind, ceilTokens, hvalue, checkInt, if_pos hrange,
      Except.toOption, Option.getD_some]
  obtain ⟨hk, _⟩ := mem_delegationsOf he
  have hxv := (ofOption_eq_ok _ _ _).mp hx
  obtain ⟨hpos, hle⟩ := hw.record_of hk hxv
  have hnn := p.tokens_nonneg x e.2 value (hw.tokens _ x hxv) (hpos.le.trans hle) hpos.le hvalue
  rw [htokens]
  exact ⟨⟨_, x, value, hv, hx, hvalue, hnn, rfl⟩, rfl⟩

theorem delegates_of_total (h : getTotalDelegatedAmount (readers p) w d = .ok total) :
    Delegates (readers p) w d (records p w d) ∧ total = ((records p w d).map Prod.snd).sum ∧
      (delegationsOf w d).length < 100 := by
  have hlt := getTotalDelegatedAmount_lt h
  simp only [getTotalDelegatedAmount, bind_eq_ok] at h
  obtain ⟨ds, hds, t, hloop, hend⟩ := h
  cases hds
  rw [List.length_map, List.length_take] at hend
  split_ifs at hend with hfull
  cases hend
  have hlen : (delegationsOf w d).length < 100 := by omega
  rw [List.take_of_length_le hlen.le] at hloop
  have hsum : total = ((records p w d).map Prod.snd).sum := by
    have hstep : ∀ e ∈ delegationsOf w d, ∀ u u' : ℤ, True →
        addDelegation (readers p) w u ⟨p.valText (ofLex e.1).2, e.2⟩ = .ok u' →
        True ∧ u' = u + recordTokens p w e.1 e.2 :=
      fun e he u u' _ h => ⟨trivial, (addDelegation_record hw he h).2⟩
    rw [forRange_map] at hloop
    have hadd := forRange_sum (fun _ => True) (fun u : ℤ => u) _ hstep trivial hloop
    rw [hadd, zero_add, records, List.map_map]
    rfl
  refine ⟨delegates_records (recordTokens p w) ?_ ?_, hsum, hlen⟩
  · intro e he
    obtain ⟨_, _, hstep⟩ := forRange_mem_ok hloop (List.mem_map.mpr ⟨e, he, rfl⟩)
    exact (addDelegation_record hw he hstep).1
  · rw [hsum, records, List.map_map] at hlt
    exact hlt

/-- Without one of the records the total is less by what that record counts. -/
theorem total_without_record {v : ValAddress} {current : ℚ}
    (hk : w.delegations.get (toLex (d, v)) = some current)
    (h : getTotalDelegatedAmount (readers p) w d = .ok total) :
    ∃ amount, getDelegationAmount (readers p) w d v = .ok amount ∧ InRange (total - amount) ∧
      getTotalDelegatedAmount (readers p) (reduced w d v 0) d = .ok (total - amount) := by
  obtain ⟨hds, hsum, hlen⟩ := delegates_of_total hw h
  have hmem : ∀ {key : AccAddress ×ₗ ValAddress} {s : ℚ}, w.delegations.get key = some s →
      (ofLex key).1 = d → (⟨p.valText (ofLex key).2, s⟩, recordTokens p w key s) ∈ records p w d := by
    intro key s hs hd
    exact List.mem_map.mpr ⟨(key, s), List.mem_filter.mpr
      ⟨(Store.get_eq_some_iff _ _ _).mp hs, by simpa using hd⟩, rfl⟩
  have hprice : Prices (readers p) w ⟨p.valText v, current⟩
      (recordTokens p w (toLex (d, v)) current) := hds.prices _ (hmem hk rfl)
  have hnn := hprice.nonneg
  have hle : recordTokens p w (toLex (d, v)) current ≤ total := by
    rw [hsum]
    refine List.single_le_sum ?_ _ (List.mem_map.mpr ⟨_, hmem hk rfl, rfl⟩)
    intro y hy
    obtain ⟨e, he, rfl⟩ := List.mem_map.mp hy
    exact hds.value_nonneg he
  have hlt := getTotalDelegatedAmount_lt h
  have hbound := intBound_pos
  refine ⟨recordTokens p w (toLex (d, v)) current, ?_, ⟨by omega, by omega⟩, ?_⟩
  · obtain ⟨v', x, value, hv, hx, hvalue, _, heq⟩ := hprice
    cases (p.val_valText v).symm.trans hv
    have hdel : (readers p).getDelegation w d v = .ok ⟨p.valText v, current⟩ := by
      simp only [readers, getShares, hk, ofOption, ok_bind]
    have hrange : InRange ⌈value⌉ := by
      rw [← heq]
      exact ⟨by omega, by omega⟩
    simp only [getDelegationAmount, hdel, hx, ok_bind, ceilTokens, hvalue, checkInt, if_pos hrange,
      heq]
  · have hrest : ((records p (reduced w d v 0) d).map Prod.snd).sum =
        total - recordTokens p w (toLex (d, v)) current := by
      rw [hsum, records_sum, records_sum]
      show (reduced w d v 0).delegations.total
        (fun key s => if (ofLex key).1 = d then recordTokens p w key s else 0) = _
      unfold reduced
      rw [if_pos rfl, Store.total_delete, Store.share_some _ hk, ofLex_toLex, if_pos rfl]
    have hfewer : (delegationsOf (reduced w d v 0) d).length < 100 :=
      lt_of_le_of_lt (delegationsOf_length_le fun v' hv' => reduced_validators hk hv') hlen
    have hds' : Delegates (readers p) (reduced w d v 0) d (records p (reduced w d v 0) d) := by
      refine delegates_records (recordTokens p w) ?_ ?_
      · intro e he
        obtain ⟨hs, hd⟩ := mem_delegationsOf he
        rw [reduced_get, if_pos rfl] at hs
        split_ifs at hs
        exact hds.prices _ (hmem hs hd)
      · rw [records, List.map_map] at hrest
        refine lt_of_eq_of_lt hrest ?_
        omega
    rw [hds'.getTotalDelegatedAmount_iff, hrest, records, List.length_map]
    exact ⟨rfl, hfewer⟩

end Totals

/-! ### The verdict of the hooks -/

/-- The hook of `Unbond`. -/
def unbondHook (p : Platform) (ctx : Ctx) (st : LockStore) (w : State) (d : AccAddress)
    (v : ValAddress) (rest : ℚ) : Out Unit :=
  if rest = 0 then beforeDelegationRemoved (readers p) ctx st w d v
  else afterDelegationModified (readers p) ctx st (reduced w d v rest) d v

theorem reduceDelegation_eq (p : Platform) (ctx : Ctx) (st : LockStore) (w : State)
    (d : AccAddress) (v : ValAddress) (rest : ℚ) :
    reduceDelegation p ctx st w d v rest =
      unbondHook p ctx st w d v rest >>= fun _ => .ok (reduced w d v rest) := by
  unfold reduceDelegation unbondHook reduced
  split_ifs <;> rfl

/-- `GetTotalDelegatedAmount` with the delegation at `src` reduced by the shares of `amt`
and the validator's tokens still there: what the hook of the source goes by. -/
def totalOnTheWay (p : Platform) (w : State) (d : AccAddress) (src : ValAddress) (amt : ℤ) :
    Out ℤ := do
  let shares ← validateUnbondAmount p w d src amt
  let current ← getShares w d src
  getTotalDelegatedAmount (readers p) (reduced w d src (current - shares)) d

section Verdict

variable {p : Platform} {ctx₀ : Ctx} {st₀ : LockStore} {w w' : State} {d : AccAddress}
  {src dst : ValAddress} {amt : ℤ}

theorem unbondHook_iff {v : ValAddress} {current rest : ℚ} {total : ℤ} (hw : Priced w)
    (hk : w.delegations.get (toLex (d, v)) = some current)
    (ht : getTotalDelegatedAmount (readers p) w d = .ok total) (ctx : Ctx) (st : LockStore) :
    unbondHook p ctx st w d v rest = .ok () ↔ isRedelegating ctx d v ∨
      ∃ locked, getLockedAmountByAddress ctx st d = .ok locked ∧ (locked = 0 ∨
        ∃ mid, getTotalDelegatedAmount (readers p) (reduced w d v rest) d = .ok mid ∧
          locked ≤ mid) := by
  unfold unbondHook
  by_cases h0 : rest = 0
  · obtain ⟨amount, hamount, hrange, hmid⟩ := total_without_record hw hk ht
    simp only [h0, if_true, beforeDelegationRemoved_reads, ht, hamount, hmid, Except.ok.injEq,
      exists_eq_left', hrange, true_and]
  · rw [if_neg h0]
    exact afterDelegationModified_reads

/-- A redelegation that goes through in one context and lockup store does in another
exactly when the two hooks accept there. -/
theorem handleBeginRedelegate_iff
    (hfree : handleBeginRedelegate p ctx₀ st₀ w d src dst amt = .ok w') :
    src ≠ dst ∧ ∃ shares current, validateUnbondAmount p w d src amt = .ok shares ∧
      w.delegations.get (toLex (d, src)) = some current ∧
      ∀ ctx st w'', handleBeginRedelegate p ctx st w d src dst amt = .ok w'' ↔ w'' = w' ∧
        unbondHook p ctx st w d src (current - shares) = .ok () ∧
        afterDelegationModified (readers p) ctx st w' d dst = .ok () := by
  simp only [handleBeginRedelegate, unbond, delegate, reduceDelegation_eq, getShares, bind_eq_ok,
    failIf_eq_ok, ofOption_eq_ok] at hfree
  obtain ⟨shares, hs, _, hne, y, hy, r, ⟨current, hk, _, hle, x, hx, w₁, ⟨_, _, heq₁⟩, r', hrem,
    heqr⟩, _, hissued, u, hstore, _, _, heq⟩ := hfree
  cases heq₁
  cases heqr
  cases heq
  refine ⟨hne, shares, current, hs, hk, ?_⟩
  intro ctx st w''
  simp only [handleBeginRedelegate, unbond, delegate, reduceDelegation_eq, getShares, hs, hk, hy, hx,
    hrem, ofOption, ok_bind, failIf_of_not _ hne, failIf_of_not _ hle, bind_eq_ok, failIf_eq_ok]
  constructor
  · rintro ⟨_, ⟨_, ⟨_, hsrc, heq₁⟩, heqr⟩, _, _, u', hstore', _, hdst, heq⟩
    cases heq₁
    cases heqr
    cases hstore.symm.trans hstore'
    cases heq
    exact ⟨rfl, hsrc, hdst⟩
  · rintro ⟨heq, hsrc, hdst⟩
    exact ⟨_, ⟨_, ⟨(), hsrc, rfl⟩, rfl⟩, (), hissued, w', hstore, (), hdst, by rw [heq]⟩

end Verdict

/-! ### One redelegation on three routes -/

section Routes

variable {c : AddressCodec} {D : Decorators} {ctx ctx' ctx₀ : Ctx} {st st₀ : LockStore}
  {w w' : State} {delegator validatorSrc validatorDst : Bytes} {amount : Coin} {d : AccAddress}
  {src dst : ValAddress}

theorem Route.ante_ok (r : Route) (hd : c.acc delegator = .ok d) (hsrc : c.val validatorSrc = .ok src)
    (h : newAnteHandler c D ctx
      (r.tx (.beginRedelegate delegator validatorSrc validatorDst amount)) = .ok ctx') :
    ctx'.blockTime = ctx.blockTime ∧ ∀ key, key ∈ ctx'.redelegating ↔
      r = .topLevel ∧ key = redelegateMapKey d src ∨ key ∈ ctx.redelegating := by
  cases r with
  | topLevel =>
    simp only [Route.tx, newAnteHandler, newCosmosAnteHandler, forRange, markTxMsg,
      markRedelegation, hd, hsrc, ok_bind] at h
    obtain ⟨htime, hmarks⟩ := D.cosmos_keeps _ _ _ h
    refine ⟨htime, ?_⟩
    intro key
    simp [hmarks, withRedelegating]
  | nested =>
    simp only [Route.tx, newAnteHandler, newCosmosAnteHandler, forRange, markTxMsg, ok_bind] at h
    obtain ⟨htime, hmarks⟩ := D.cosmos_keeps _ _ _ h
    refine ⟨htime, ?_⟩
    intro key
    simp [hmarks]
  | evm =>
    simp only [Route.tx, newAnteHandler, if_true, newMonoEVMAnteHandler] at h
    obtain ⟨htime, hmarks⟩ := D.evm_keeps _ _ _ h
    refine ⟨htime, ?_⟩
    intro key
    simp [hmarks]

theorem Route.requests_tx (r : Route) (msg : Msg) :
    (r.tx msg).msgs.flatMap TxMsg.requests = [msg] := by
  cases r <;> rfl

theorem redelegateMapKey_injective {d : AccAddress} {v v' : ValAddress}
    (h : redelegateMapKey d v = redelegateMapKey d v') : v = v' := List.append_cancel_left h

def Accepted (p : Platform) (D : Decorators) (ctx : Ctx) (st : LockStore) (w : State)
    (msg : Msg) (r : Route) : Prop := ∃ w', deliverTx p D ctx st w (r.tx msg) = .ok w'

theorem accepted_iff {p : Platform} (hw : Priced w) (hd : p.acc delegator = .ok d)
    (hsrc : p.val validatorSrc = .ok src) (hdst : p.val validatorDst = .ok dst)
    (hfree : handle p ctx₀ st₀ w (.beginRedelegate delegator validatorSrc validatorDst amount) =
      .ok w') {locked total : ℤ} (ht : getTotalDelegatedAmount (readers p) w d = .ok total)
    (ht' : getTotalDelegatedAmount (readers p) w' d = .ok total)
    (hl : getLockedAmountByAddress ctx st d = .ok locked) {r : Route}
    (hante : newAnteHandler p.toAddressCodec D ctx
      (r.tx (.beginRedelegate delegator validatorSrc validatorDst amount)) = .ok ctx') :
    Accepted p D ctx st w (.beginRedelegate delegator validatorSrc validatorDst amount) r ↔
      (r = .topLevel ∨ isRedelegating ctx d src ∨ locked = 0 ∨
        ∃ mid, totalOnTheWay p w d src amount.amount = .ok mid ∧ locked ≤ mid) ∧
      (isRedelegating ctx d dst ∨ locked = 0 ∨ locked ≤ total) := by
  simp only [handle, hd, hsrc, hdst, ok_bind, bind_eq_ok] at hfree
  obtain ⟨_, hcoin, hfree⟩ := hfree
  obtain ⟨hne, shares, current, hs, hk, hiff⟩ := handleBeginRedelegate_iff hfree
  have hmid : totalOnTheWay p w d src amount.amount =
      getTotalDelegatedAmount (readers p) (reduced w d src (current - shares)) d := by
    simp only [totalOnTheWay, hs, getShares, hk, ofOption, ok_bind]
  obtain ⟨htime, hmarks⟩ := r.ante_ok hd hsrc hante
  have hl' : getLockedAmountByAddress ctx' st d = .ok locked :=
    (getLockedAmountByAddress_congr htime st d).trans hl
  have hsrcMark : isRedelegating ctx' d src ↔ r = .topLevel ∨ isRedelegating ctx d src := by
    simp [isRedelegating, hmarks]
  have hdstMark : isRedelegating ctx' d dst ↔ isRedelegating ctx d dst := by
    simp only [isRedelegating, hmarks, or_iff_right_iff_imp]
    intro hmark
    exact absurd (redelegateMapKey_injective hmark.2).symm hne
  simp only [Accepted, deliverTx, hante, ok_bind, Route.requests_tx, forRange, bind_eq_ok, handle,
    hd, hsrc, hdst, hcoin, hiff, unbondHook_iff hw hk ht, afterDelegationModified_reads, hl', ht',
    hsrcMark, hdstMark, Except.ok.injEq, exists_eq_left', ← hmid]
  constructor
  · intro h
    obtain ⟨_, _, ⟨_, hsource, hdest⟩, _⟩ := h
    exact ⟨or_assoc.mp hsource, hdest⟩
  · intro h
    exact ⟨w', w', ⟨rfl, or_assoc.mpr h.1, h.2⟩, rfl⟩

end Routes

/-- The three routes agree on a redelegation that leaves the delegated amount as it
was, and accept it for a backed delegator, exactly when its source is marked
anyway, or nothing is locked, or the locks are covered while the amount is on its
way, or they are not covered at all and the destination hook refuses everywhere. -/
theorem redelegation_same_on_routes_iff (p : Platform) (D : Decorators) (ctx ctx₀ : Ctx)
    (st st₀ : LockStore) (w w' : State) (delegator validatorSrc validatorDst : Bytes)
    (amount : Coin) (d : AccAddress) (src dst : ValAddress) (locked total : ℤ) (hw : Valid w)
    (hd : p.acc delegator = .ok d) (hsrc : p.val validatorSrc = .ok src)
    (hdst : p.val validatorDst = .ok dst)
    (hfree : handle p ctx₀ st₀ w (.beginRedelegate delegator validatorSrc validatorDst amount) =
      .ok w')
    (ht : getTotalDelegatedAmount (readers p) w d = .ok total)
    (ht' : getTotalDelegatedAmount (readers p) w' d = .ok total)
    (hl : getLockedAmountByAddress ctx st d = .ok locked)
    (hante : ∀ r : Route, ∃ ctx', newAnteHandler p.toAddressCodec D ctx
      (r.tx (.beginRedelegate delegator validatorSrc validatorDst amount)) = .ok ctx') :
    ((∀ r r', Accepted p D ctx st w (.beginRedelegate delegator validatorSrc validatorDst amount) r ↔
        Accepted p D ctx st w (.beginRedelegate delegator validatorSrc validatorDst amount) r') ∧
      (locked ≤ total → ∀ r,
        Accepted p D ctx st w (.beginRedelegate delegator validatorSrc validatorDst amount) r)) ↔
    isRedelegating ctx d src ∨ locked = 0 ∨
      (∃ mid, totalOnTheWay p w d src amount.amount = .ok mid ∧ locked ≤ mid) ∨
      (total < locked ∧ ¬ isRedelegating ctx d dst) := by
  have hacc : ∀ r, Accepted p D ctx st w
      (.beginRedelegate delegator validatorSrc validatorDst amount) r ↔ _ := fun r =>
    accepted_iff hw.priced hd hsrc hdst hfree ht ht' hl (hante r).choose_spec
  have hnn : 0 ≤ total := by
    obtain ⟨hds, hsum, _⟩ := delegates_of_total hw.priced ht
    rw [hsum]
    exact hds.total_nonneg
  simp only [hacc]
  constructor
  · -- otherwise the top level accepts and a nested message is refused by the source hook
    intro h
    obtain ⟨hsame, _⟩ := h
    by_contra hnone
    simp only [not_or, not_and_or, not_lt, not_not] at hnone
    obtain ⟨hmark, h0, hmid, hdest⟩ := hnone
    have htop := (hsame .topLevel .nested).mp ⟨Or.inl rfl, by tauto⟩
    rcases htop.1 with hroute | hmark' | h0' | hmid'
    · cases hroute
    · exact hmark hmark'
    · exact h0 h0'
    · exact hmid hmid'
  · intro h
    refine ⟨?_, ?_⟩
    · intro r r'
      rcases h with hmark | h0 | hmid | ⟨hlt, hmark⟩
      · simp [hmark]
      · simp [h0]
      · simp [hmid]
      · have h0 : locked ≠ 0 := by omega
        simp [hmark, h0, not_le.mpr hlt]
    · intro hle r
      rcases h with hmark | h0 | hmid | ⟨hlt, _⟩
      · exact ⟨Or.inr (Or.inl hmark), Or.inr (Or.inr hle)⟩
      · exact ⟨Or.inr (Or.inr (Or.inl h0)), Or.inr (Or.inr hle)⟩
      · exact ⟨Or.inr (Or.inr (Or.inr hmid)), Or.inr (Or.inr hle)⟩
      · exact absurd hle (not_le.mpr hlt)

theorem pass_keeps (ctx : Ctx) (_ : Tx) (ctx' : Ctx) (h : (Except.ok ctx : Out Ctx) = .ok ctx') :
    ctx'.blockTime = ctx.blockTime ∧ ctx'.redelegating = ctx.redelegating := by
  cases h
  exact ⟨rfl, rfl⟩

/-- The other decorators can only reject, and a rejected transaction is no step. -/
def passing : Decorators where
  cosmos ctx _ := .ok ctx
  evm ctx _ := .ok ctx
  cosmos_keeps := pass_keeps
  evm_keeps := pass_keeps

/-- Lock `x` of the 100 of `d` until June and redelegate one token from `A` to `B` on
each route: the locked amount, the delegated amount, and which routes accept. -/
def lockThenRoute (x : ℤ) : Out (ℤ × ℤ × Bool × Bool × Bool) := do
  let st ← lock (readers chain) newYear Store.empty twoValidators
    ⟨accText (ascii "d"), ascii "2026-06-01", tsc x⟩
  let locked ← getLockedAmountByAddress newYear st (ascii "d")
  let total ← getTotalDelegatedAmount (readers chain) twoValidators (ascii "d")
  let accepts := fun r : Route => (deliverTx chain passing newYear st twoValidators
    (r.tx redelegateOne)).isOk
  .ok (locked, total, accepts .topLevel, accepts .nested, accepts .evm)

theorem accepted_of_isOk {p : Platform} {D : Decorators} {ctx : Ctx} {st : LockStore}
    {w : State} {msg : Msg} {r : Route} :
    (deliverTx p D ctx st w (r.tx msg)).isOk = true ↔ Accepted p D ctx st w msg r := by
  unfold Accepted
  cases deliverTx p D ctx st w (r.tx msg) with
  | error e => simp [Except.isOk, Except.toBool]
  | ok w' => simp [Except.isOk, Except.toBool]

/-- With all 100 locked, one token may move from `A` to `B` as a message of its own,
but not inside another message or from an Ethereum transaction. -/
theorem nested_redelegation_refused :
    ∃ st, getLockedAmountByAddress newYear st (ascii "d") = .ok 100 ∧
      getTotalDelegatedAmount (readers chain) twoValidators (ascii "d") = .ok 100 ∧
      Accepted chain passing newYear st twoValidators redelegateOne .topLevel ∧
      ¬ Accepted chain passing newYear st twoValidators redelegateOne .nested ∧
      ¬ Accepted chain passing newYear st twoValidators redelegateOne .evm := by
  have h : lockThenRoute 100 = .ok (100, 100, true, false, false) := by decide +kernel
  simp only [lockThenRoute, bind_eq_ok, Except.ok.injEq, Prod.mk.injEq] at h
  obtain ⟨st, _, locked, hl, total, ht, rfl, rfl, htop, hnested, hevm⟩ := h
  refine ⟨st, hl, ht, accepted_of_isOk.mp htop, ?_, ?_⟩
  · rw [← accepted_of_isOk, hnested]
    decide
  · rw [← accepted_of_isOk, hevm]
    decide

/-- The total of `d` after one token has moved, nothing being locked. -/
def redelegateFreely : Out ℤ := do
  let w ← handle chain newYear Store.empty twoValidators redelegateOne
  getTotalDelegatedAmount (readers chain) w (ascii "d")

theorem redelegation_same_on_routes_covered :
    ∃ st, getLockedAmountByAddress newYear st (ascii "d") = .ok 40 ∧
      ∀ r, Accepted chain passing newYear st twoValidators redelegateOne r := by
  have h : lockThenRoute 40 = .ok (40, 100, true, true, true) := by decide +kernel
  have hfree : redelegateFreely = .ok 100 := by decide +kernel
  simp only [lockThenRoute, bind_eq_ok, Except.ok.injEq, Prod.mk.injEq] at h
  simp only [redelegateFreely, bind_eq_ok] at hfree
  obtain ⟨st, _, locked, hl, total, ht, rfl, rfl, _⟩ := h
  obtain ⟨w', hw', ht'⟩ := hfree
  have hante : ∀ r : Route, ∃ ctx', newAnteHandler bech32 passing newYear
      (r.tx redelegateOne) = .ok ctx' := by
    intro r
    have hok : (newAnteHandler bech32 passing newYear (r.tx redelegateOne)).isOk = true := by
      cases r <;> decide +kernel
    exact exists_of_isOk hok
  have hmid : totalOnTheWay chain twoValidators (ascii "d") (ascii "A") 1 = .ok 99 := by
    decide +kernel
  have hroutes := (redelegation_same_on_routes_iff chain passing newYear newYear st
    Store.empty twoValidators w' _ _ _ (tsc 1) (ascii "d") (ascii "A") (ascii "B") 40 100
    twoValidators_valid (readText_accText (ascii "d")) (readText_valText (ascii "A"))
    (readText_valText (ascii "B")) hw' ht ht' hl hante).mpr
    (Or.inr (Or.inr (Or.inl ⟨99, hmid, by decide⟩)))
  exact ⟨st, hl, hroutes.2 (by decide)⟩

end Tsc.Staking
