import Tsc.Staking.Keeper

/-!
# What a delegator has delegated

`delegated` is the sum over a delegator's records of the tokens they are worth,
each rounded up: with shares of exact rationals, what `GetTotalDelegatedAmount`
computes wherever it returns. Moving a whole number of tokens leaves every exchange
rate as it was, so it changes this sum by exactly that number, for that delegator
only.
-/

namespace Tsc.Staking

open Go Sdk Kv Lockup

def rate (w : State) (v : ValAddress) : ℚ :=
  match w.validators.get v with
  | none => 0
  | some x => x.tokens / x.delegatorShares

def worth (w : State) (d : AccAddress) (key : AccAddress ×ₗ ValAddress) (shares : ℚ) : ℤ :=
  if (ofLex key).1 = d then ⌈shares * rate w (ofLex key).2⌉ else 0

def delegated (w : State) (d : AccAddress) : ℤ := w.delegations.total (worth w d)

def sharesOf (w : State) (v : ValAddress) : ℚ :=
  w.delegations.total fun key shares => if (ofLex key).2 = v then shares else 0

def tokenTotal (w : State) : ℤ := w.validators.total fun _ x => x.tokens

/-- Every record can be priced: its validator exists and has at least its shares. -/
structure Priced (w : State) : Prop where
  record : ∀ key shares, w.delegations.get key = some shares → 0 < shares ∧
    ∃ x, w.validators.get (ofLex key).2 = some x ∧ shares ≤ x.delegatorShares
  tokens : ∀ v x, w.validators.get v = some x → 0 ≤ x.tokens
  pool : tokenTotal w ≤ w.pool ∧ w.pool < intBound

/-- The accounting of the staking module: a validator's shares are those of its
records, without shares there are no tokens, and the pools hold the tokens. -/
structure Valid (w : State) : Prop where
  positive : ∀ key shares, w.delegations.get key = some shares → 0 < shares
  shares : ∀ v, sharesOf w v = ((w.validators.get v).map Validator.delegatorShares).getD 0
  tokens : ∀ v x, w.validators.get v = some x → 0 ≤ x.tokens
  unshared : ∀ v x, w.validators.get v = some x → x.delegatorShares = 0 → x.tokens = 0
  pool : tokenTotal w ≤ w.pool ∧ w.pool < intBound

section Shares

variable {w : State} (hpos : ∀ key shares, w.delegations.get key = some shares → 0 < shares)
include hpos

theorem shareAt_nonneg (v : ValAddress) (key : AccAddress ×ₗ ValAddress) (shares : ℚ)
    (hk : w.delegations.get key = some shares) :
    0 ≤ if (ofLex key).2 = v then shares else 0 := by
  split_ifs
  · exact (hpos key shares hk).le
  · exact le_refl 0

theorem sharesOf_nonneg (v : ValAddress) : 0 ≤ sharesOf w v :=
  Store.total_nonneg (shareAt_nonneg hpos v)

theorem le_sharesOf {key : AccAddress ×ₗ ValAddress} {shares : ℚ}
    (hk : w.delegations.get key = some shares) : shares ≤ sharesOf w (ofLex key).2 := by
  have hone := Store.le_total (shareAt_nonneg hpos (ofLex key).2) hk
  rw [if_pos rfl] at hone
  exact hone

end Shares

theorem Valid.priced {w : State} (h : Valid w) : Priced w := by
  refine ⟨?_, h.tokens, h.pool⟩
  intro key shares hk
  have hpos := h.positive key shares hk
  have hle := le_sharesOf h.positive hk
  rw [h.shares] at hle
  refine ⟨hpos, ?_⟩
  cases hv : w.validators.get (ofLex key).2 with
  | none =>
    rw [hv] at hle
    exact absurd (lt_of_lt_of_le hpos hle) (lt_irrefl 0)
  | some x =>
    rw [hv] at hle
    exact ⟨x, rfl, hle⟩

theorem Priced.record_of {w : State} (h : Priced w) {key : AccAddress ×ₗ ValAddress} {shares : ℚ}
    {x : Validator} (hk : w.delegations.get key = some shares)
    (hx : w.validators.get (ofLex key).2 = some x) : 0 < shares ∧ shares ≤ x.delegatorShares := by
  obtain ⟨hpos, y, hy, hle⟩ := h.record key shares hk
  rw [hx] at hy
  cases hy
  exact ⟨hpos, hle⟩

theorem rate_some {w : State} {v : ValAddress} {x : Validator} (h : w.validators.get v = some x) :
    rate w v = x.tokens / x.delegatorShares := by
  unfold rate
  rw [h]

theorem Priced.rate_nonneg {w : State} (h : Priced w) {key : AccAddress ×ₗ ValAddress} {shares : ℚ}
    (hk : w.delegations.get key = some shares) : 0 ≤ rate w (ofLex key).2 := by
  obtain ⟨hpos, x, hx, hle⟩ := h.record key shares hk
  rw [rate_some hx]
  have ht : (0 : ℚ) ≤ x.tokens := by exact_mod_cast h.tokens _ x hx
  exact div_nonneg ht (hpos.le.trans hle)

theorem Priced.ceil_bounds {w : State} (h : Priced w) {key : AccAddress ×ₗ ValAddress} {shares : ℚ}
    {x : Validator} (hk : w.delegations.get key = some shares)
    (hx : w.validators.get (ofLex key).2 = some x) :
    0 ≤ ⌈shares * rate w (ofLex key).2⌉ ∧ ⌈shares * rate w (ofLex key).2⌉ ≤ x.tokens := by
  obtain ⟨hpos, hle⟩ := h.record_of hk hx
  have hr := h.rate_nonneg hk
  constructor
  · exact Int.ceil_nonneg (mul_nonneg hpos.le hr)
  · apply Int.ceil_le.mpr
    have hS : 0 < x.delegatorShares := lt_of_lt_of_le hpos hle
    calc shares * rate w (ofLex key).2 ≤ x.delegatorShares * rate w (ofLex key).2 :=
          mul_le_mul_of_nonneg_right hle hr
      _ = x.tokens := by
          rw [rate_some hx]
          field_simp

theorem Priced.worth_nonneg {w : State} (h : Priced w) (d : AccAddress)
    {key : AccAddress ×ₗ ValAddress} {shares : ℚ} (hk : w.delegations.get key = some shares) :
    0 ≤ worth w d key shares := by
  obtain ⟨_, x, hx, _⟩ := h.record key shares hk
  unfold worth
  split_ifs
  · exact (h.ceil_bounds hk hx).1
  · exact le_refl 0

theorem Priced.delegated_nonneg {w : State} (h : Priced w) (d : AccAddress) : 0 ≤ delegated w d :=
  Store.total_nonneg fun _ _ hk => h.worth_nonneg d hk

/-! ### `GetTotalDelegatedAmount` -/

theorem mem_delegationsOf {w : State} {d : AccAddress} {e : (AccAddress ×ₗ ValAddress) × ℚ}
    (h : e ∈ delegationsOf w d) : w.delegations.get e.1 = some e.2 ∧ (ofLex e.1).1 = d := by
  obtain ⟨hmem, hd⟩ := List.mem_filter.mp h
  exact ⟨(Store.get_eq_some_iff _ _ _).mpr hmem, by simpa using hd⟩

theorem delegationsOf_total (w : State) (d : AccAddress) (f : AccAddress ×ₗ ValAddress → ℚ → ℤ) :
    ((delegationsOf w d).map fun e => f e.1 e.2).sum =
      w.delegations.total fun key s => if (ofLex key).1 = d then f key s else 0 := by
  unfold delegationsOf Store.total
  induction w.delegations.entries with
  | nil => rfl
  | cons e l ih =>
    rw [List.map_cons, List.sum_cons, ← ih]
    dsimp only
    by_cases hd : (ofLex e.1).1 = d
    · rw [List.filter_cons_of_pos (by simpa using hd), List.map_cons, List.sum_cons, if_pos hd]
    · rw [List.filter_cons_of_neg (by simpa using hd), if_neg hd, zero_add]

theorem delegationsOf_sum (w : State) (d : AccAddress) :
    ((delegationsOf w d).map fun e => ⌈e.2 * rate w (ofLex e.1).2⌉).sum = delegated w d :=
  delegationsOf_total w d fun key s => ⌈s * rate w (ofLex key).2⌉

def validatorsOf (w : State) (d : AccAddress) : List ValAddress :=
  (delegationsOf w d).map fun e => (ofLex e.1).2

theorem mem_validatorsOf (w : State) (d : AccAddress) (v : ValAddress) :
    v ∈ validatorsOf w d ↔ ∃ shares, w.delegations.get (toLex (d, v)) = some shares := by
  constructor
  · intro hv
    obtain ⟨e, he, rfl⟩ := List.mem_map.mp hv
    obtain ⟨hk, hd⟩ := mem_delegationsOf he
    rw [← hd]
    exact ⟨e.2, hk⟩
  · rintro ⟨shares, hk⟩
    refine List.mem_map.mpr ⟨(toLex (d, v), shares), List.mem_filter.mpr ⟨?_, ?_⟩, rfl⟩
    · exact (Store.get_eq_some_iff _ _ _).mp hk
    · simp

theorem validatorsOf_nodup (w : State) (d : AccAddress) : (validatorsOf w d).Nodup := by
  have hkeys : (delegationsOf w d).Pairwise fun a b => a.1 ≠ b.1 :=
    List.Pairwise.imp (fun h => ne_of_lt h) (w.delegations.ascending.filter _ _)
  rw [validatorsOf, List.Nodup, List.pairwise_map]
  apply List.Pairwise.imp_of_mem _ hkeys
  intro a b ha hb hne heq
  apply hne
  have hab : ofLex a.1 = ofLex b.1 :=
    Prod.ext ((mem_delegationsOf ha).2.trans (mem_delegationsOf hb).2.symm) heq
  exact ofLex.injective hab

/-- No validator twice, so an inclusion bounds the number of records. -/
theorem validatorsOf_length_le {w : State} {d : AccAddress} {l : List ValAddress}
    (h : ∀ v ∈ validatorsOf w d, v ∈ l) : (delegationsOf w d).length ≤ l.length := by
  have hlen := (List.subperm_of_subset (validatorsOf_nodup w d) h).length_le
  rwa [validatorsOf, List.length_map] at hlen

theorem delegationsOf_length_le {w w' : State} {d : AccAddress}
    (h : ∀ v ∈ validatorsOf w d, v ∈ validatorsOf w' d) :
    (delegationsOf w d).length ≤ (delegationsOf w' d).length := by
  have hlen := validatorsOf_length_le h
  rwa [validatorsOf, List.length_map] at hlen

theorem Priced.delegated_lt {w : State} (h : Priced w) (d : AccAddress) :
    delegated w d < intBound := by
  have hnn : ∀ v x, w.validators.get v = some x → 0 ≤ x.tokens := h.tokens
  have hsum := Store.sum_share_le_total hnn (validatorsOf_nodup w d)
  have hle : ((delegationsOf w d).map fun e => ⌈e.2 * rate w (ofLex e.1).2⌉).sum ≤
      ((validatorsOf w d).map (w.validators.share fun _ x => x.tokens)).sum := by
    rw [validatorsOf, List.map_map]
    apply List.sum_le_sum
    intro e he
    obtain ⟨hk, _⟩ := mem_delegationsOf he
    obtain ⟨_, x, hx, _⟩ := h.record e.1 e.2 hk
    have hb := (h.ceil_bounds hk hx).2
    rw [Function.comp_apply, Store.share_some _ hx]
    exact hb
  rw [delegationsOf_sum] at hle
  exact lt_of_le_of_lt (hle.trans (hsum.trans h.pool.1)) h.pool.2

theorem Priced.ceilTokens_eq {w : State} (h : Priced w) (c : AddressCodec)
    {key : AccAddress ×ₗ ValAddress} {shares : ℚ} {x : Validator}
    (hk : w.delegations.get key = some shares) (hx : w.validators.get (ofLex key).2 = some x) :
    ceilTokens (readers c.exact) x shares = .ok ⌈shares * rate w (ofLex key).2⌉ := by
  obtain ⟨hpos, hle⟩ := h.record_of hk hx
  have hS : x.delegatorShares ≠ 0 := ne_of_gt (lt_of_lt_of_le hpos hle)
  have hb := h.ceil_bounds hk hx
  have htok : x.tokens < intBound := by
    have hone := Store.le_total (g := fun (_ : ValAddress) (y : Validator) => y.tokens) h.tokens hx
    exact lt_of_le_of_lt (hone.trans h.pool.1) h.pool.2
  have heq : shares * x.tokens / x.delegatorShares = shares * rate w (ofLex key).2 := by
    rw [rate_some hx, mul_div_assoc]
  have hp := intBound_pos
  have hvalue : c.exact.tokensFromShares x shares = .ok (shares * rate w (ofLex key).2) :=
    (if_neg hS).trans (congrArg Except.ok heq)
  simp only [ceilTokens, readers, hvalue, ok_bind, checkInt_eq_ok]
  exact ⟨⟨by omega, by omega⟩, trivial⟩

theorem Priced.prices {w : State} (h : Priced w) (c : AddressCodec) {d : AccAddress}
    {e : (AccAddress ×ₗ ValAddress) × ℚ} (he : e ∈ delegationsOf w d) :
    Prices (readers c.exact) w ⟨c.valText (ofLex e.1).2, e.2⟩ ⌈e.2 * rate w (ofLex e.1).2⌉ := by
  obtain ⟨hk, _⟩ := mem_delegationsOf he
  obtain ⟨hpos, x, hx, hle⟩ := h.record e.1 e.2 hk
  have hS : x.delegatorShares ≠ 0 := ne_of_gt (lt_of_lt_of_le hpos hle)
  have hvalue : c.exact.tokensFromShares x e.2 = .ok (e.2 * rate w (ofLex e.1).2) := by
    refine (if_neg hS).trans ?_
    rw [rate_some hx, mul_div_assoc]
  refine ⟨(ofLex e.1).2, x, _, c.val_valText _, ?_, hvalue,
    mul_nonneg hpos.le (h.rate_nonneg hk), rfl⟩
  show getValidator w (ofLex e.1).2 = .ok x
  unfold getValidator
  rw [ofOption_eq_ok]
  exact hx

/-- The records of the delegator with their values. -/
theorem delegates_records {p : Platform} {w : State} {d : AccAddress}
    (value : AccAddress ×ₗ ValAddress → ℚ → ℤ)
    (hprices : ∀ e ∈ delegationsOf w d,
      Prices (readers p) w ⟨p.valText (ofLex e.1).2, e.2⟩ (value e.1 e.2))
    (hfits : ((delegationsOf w d).map fun e => value e.1 e.2).sum < intBound) :
    Delegates (readers p) w d ((delegationsOf w d).map fun e =>
      (⟨p.valText (ofLex e.1).2, e.2⟩, value e.1 e.2)) := by
  refine ⟨?_, ?_, ?_⟩
  · rw [← List.map_take, List.map_map]
    rfl
  · intro y hy
    obtain ⟨e, he, rfl⟩ := List.mem_map.mp hy
    exact hprices e he
  · rw [List.map_map]
    exact hfits

theorem Priced.delegates {w : State} (h : Priced w) (c : AddressCodec) (d : AccAddress) :
    Delegates (readers c.exact) w d ((delegationsOf w d).map fun e =>
      (⟨c.valText (ofLex e.1).2, e.2⟩, ⌈e.2 * rate w (ofLex e.1).2⌉)) :=
  delegates_records (p := c.exact) (fun key s => ⌈s * rate w (ofLex key).2⌉)
    (fun _ he => h.prices c he) (lt_of_eq_of_lt (delegationsOf_sum w d) (h.delegated_lt d))

theorem Priced.getTotalDelegatedAmount_iff {w : State} (h : Priced w) (c : AddressCodec)
    (d : AccAddress) (D : ℤ) :
    getTotalDelegatedAmount (readers c.exact) w d = .ok D ↔
      D = delegated w d ∧ (delegationsOf w d).length < 100 := by
  rw [(h.delegates c d).getTotalDelegatedAmount_iff, List.map_map, List.length_map,
    ← delegationsOf_sum]
  rfl

/-! ### A small chain -/

def newYear : Ctx := ⟨⟨⟨1767225600000000000⟩, by decide⟩, []⟩

def tsc (amount : ℤ) : Coin := ⟨ascii "tsc", amount⟩

/-- `d` has 100 with validator `A`, `e` has 50 with validator `B`. -/
def twoValidators : State where
  bondDenom := ascii "tsc"
  validators := ⟨[(ascii "A", ⟨ascii "A", 100, 100⟩), (ascii "B", ⟨ascii "B", 50, 50⟩)], by
    simp only [ascending_cons, List.mem_singleton, forall_eq]
    exact ⟨by decide, by simp, ascending_nil _⟩⟩
  delegations := ⟨[(toLex (ascii "d", ascii "A"), 100), (toLex (ascii "e", ascii "B"), 50)], by
    simp only [ascending_cons, List.mem_singleton, forall_eq]
    exact ⟨by decide, by simp, ascending_nil _⟩⟩
  balance := fun _ _ => 0
  pool := 150

theorem twoValidators_delegations (key : AccAddress ×ₗ ValAddress) (s : ℚ)
    (h : twoValidators.delegations.get key = some s) : s = 100 ∨ s = 50 := by
  have hm := (Store.get_eq_some_iff _ _ _).mp h
  rcases List.mem_cons.mp hm with heq | hm
  · cases heq
    exact Or.inl rfl
  · cases List.mem_singleton.mp hm
    exact Or.inr rfl

theorem twoValidators_validators (v : ValAddress) (x : Validator)
    (h : twoValidators.validators.get v = some x) :
    x.tokens = 100 ∧ x.delegatorShares = 100 ∨ x.tokens = 50 ∧ x.delegatorShares = 50 := by
  have hm := (Store.get_eq_some_iff _ _ _).mp h
  rcases List.mem_cons.mp hm with heq | hm
  · cases heq
    exact Or.inl ⟨rfl, rfl⟩
  · cases List.mem_singleton.mp hm
    exact Or.inr ⟨rfl, rfl⟩

theorem twoValidators_valid : Valid twoValidators := by
  refine ⟨?_, ?_, ?_, ?_, by decide +kernel, by decide +kernel⟩
  · intro key s h
    rcases twoValidators_delegations key s h with hs | hs
    · rw [hs]
      norm_num
    · rw [hs]
      norm_num
  · intro v
    have hsum : sharesOf twoValidators v =
        (if ascii "A" = v then 100 else 0) + ((if ascii "B" = v then 50 else 0) + 0) := rfl
    rw [hsum]
    by_cases hA : ascii "A" = v
    · subst hA
      decide +kernel
    · by_cases hB : ascii "B" = v
      · subst hB
        decide +kernel
      · have hnone : twoValidators.validators.get v = none := by
          unfold Store.get
          rw [(lookup_eq_none_iff _ _ _).mpr]
          · rfl
          · intro e he
            rcases List.mem_cons.mp he with heq | he
            · rw [heq]
              exact hA
            · rw [List.mem_singleton.mp he]
              exact hB
        rw [if_neg hA, if_neg hB, hnone]
        simp
  · intro v x h
    rcases twoValidators_validators v x h with ⟨ht, _⟩ | ⟨ht, _⟩
    · omega
    · omega
  · intro v x h h0
    rcases twoValidators_validators v x h with ⟨_, hs⟩ | ⟨_, hs⟩
    · rw [hs] at h0
      norm_num at h0
    · rw [hs] at h0
      norm_num at h0

/-! ### Delegations in pages -/

/-- The loop of `GetTotalDelegatedAmount` ends with the sum over all delegations
exactly for a delegator with fewer than a hundred of them. -/
theorem total_delegated_returns_iff {W : Type} (k : Keepers W) (w : W) (addr : AccAddress)
    (ds : List Delegation) (tokens : Delegation → ℤ)
    (hpage : k.getDelegatorDelegations w addr 100 = .ok (ds.take 100))
    (hprice : ∀ delegation ∈ ds, Prices k w delegation (tokens delegation))
    (hsum : (ds.map tokens).sum < intBound) :
    (∃ fuel, totalDelegatedLoop k w addr fuel 0 = .ok (ds.map tokens).sum) ↔ ds.length < 100 := by
  have h : Delegates k w addr (ds.map fun delegation => (delegation, tokens delegation)) := by
    refine ⟨?_, ?_, ?_⟩
    · rw [← List.map_take, List.map_map]
      exact hpage.trans (congrArg Except.ok (List.map_id _).symm)
    · intro e he
      obtain ⟨delegation, hd, rfl⟩ := List.mem_map.mp he
      exact hprice delegation hd
    · rw [List.map_map]
      exact hsum
  rw [totalDelegatedLoop_iff, h.getTotalDelegatedAmount_iff, List.map_map, List.length_map]
  exact ⟨fun heq => heq.2, fun hlen => ⟨rfl, hlen⟩⟩

theorem total_delegated_returns_one :
    ∃ fuel, totalDelegatedLoop (readers chain) twoValidators (ascii "d") fuel 0 = .ok 100 := by
  refine (total_delegated_returns_iff (readers chain) twoValidators (ascii "d")
    [⟨valText (ascii "A"), 100⟩] (fun _ => 100) (by decide +kernel) ?_ (by decide +kernel)).mpr
    (by decide)
  intro delegation hd
  rw [List.mem_singleton.mp hd]
  exact ⟨ascii "A", ⟨ascii "A", 100, 100⟩, 100, readText_valText (ascii "A"), rfl, by decide +kernel,
    by norm_num, by norm_num⟩

theorem operator_lt {n : ℕ} (hn : n ≤ 256) {i j : Fin n} (h : i < j) :
    ([Fin.castLE hn i] : Bytes) < [Fin.castLE hn j] := List.Lex.rel h

/-- One token with each of `n` validators. -/
def spread (n : ℕ) (hn : n ≤ 256) : State where
  bondDenom := ascii "tsc"
  validators := ⟨(List.finRange n).map fun i =>
      ([Fin.castLE hn i], ⟨[Fin.castLE hn i], 1, 1⟩), by
    rw [Ascending, List.pairwise_map]
    exact (List.pairwise_lt_finRange n).imp fun h => operator_lt hn h⟩
  delegations := ⟨(List.finRange n).map fun i => (toLex (ascii "d", [Fin.castLE hn i]), 1), by
    rw [Ascending, List.pairwise_map]
    exact (List.pairwise_lt_finRange n).imp fun h => Prod.Lex.right _ (operator_lt hn h)⟩
  balance := fun _ _ => 0
  pool := n

section Spread

variable (n : ℕ) (hn : n ≤ 256)

theorem spread_get (i : Fin n) :
    (spread n hn).validators.get [Fin.castLE hn i] = some ⟨[Fin.castLE hn i], 1, 1⟩ := by
  rw [Store.get_eq_some_iff]
  exact List.mem_map.mpr ⟨i, List.mem_finRange i, rfl⟩

theorem spread_rate (i : Fin n) : rate (spread n hn) [Fin.castLE hn i] = 1 := by
  rw [rate_some (spread_get n hn i)]
  norm_num

theorem spread_delegationsOf :
    delegationsOf (spread n hn) (ascii "d") = (spread n hn).delegations.entries := by
  refine List.filter_eq_self.mpr ?_
  intro e he
  obtain ⟨i, _, rfl⟩ := List.mem_map.mp he
  exact decide_eq_true rfl

theorem spread_length : (delegationsOf (spread n hn) (ascii "d")).length = n := by
  rw [spread_delegationsOf]
  exact (List.length_map _).trans (List.length_finRange)

theorem spread_delegated : delegated (spread n hn) (ascii "d") = n := by
  have hones : (delegationsOf (spread n hn) (ascii "d")).map
      (fun e => ⌈e.2 * rate (spread n hn) (ofLex e.1).2⌉) = List.replicate n 1 := by
    refine List.eq_replicate_iff.mpr ⟨by rw [List.length_map, spread_length], ?_⟩
    intro x hx
    obtain ⟨e, he, rfl⟩ := List.mem_map.mp hx
    rw [spread_delegationsOf] at he
    obtain ⟨i, _, rfl⟩ := List.mem_map.mp he
    show ⌈(1 : ℚ) * rate (spread n hn) [Fin.castLE hn i]⌉ = 1
    rw [spread_rate]
    norm_num
  rw [← delegationsOf_sum, hones]
  simp

theorem spread_delegates : Delegates (readers chain) (spread n hn) (ascii "d")
    ((List.finRange n).map fun i => (⟨valText [Fin.castLE hn i], 1⟩, 1)) := by
  refine ⟨?_, ?_, ?_⟩
  · show Except.ok (((delegationsOf (spread n hn) (ascii "d")).take 100).map _) = _
    rw [spread_delegationsOf, List.map_take, List.map_take, List.map_map]
    exact congrArg (fun l => Except.ok (List.take 100 l)) (List.map_map)
  · intro e he
    obtain ⟨i, _, rfl⟩ := List.mem_map.mp he
    refine ⟨[Fin.castLE hn i], ⟨[Fin.castLE hn i], 1, 1⟩, 1, readText_valText _, ?_, ?_,
      by norm_num, by norm_num⟩
    · exact (ofOption_eq_ok _ _ _).mpr (spread_get n hn i)
    · refine (decTokens_iff ⟨by norm_num, by norm_num⟩ (Dec.exact_intCast 1) 1).mpr ?_
      dsimp only
      decide +kernel
  · have hbound : (256 : ℤ) < intBound := by decide +kernel
    have hsum : ((List.finRange n).map fun _ => (1 : ℤ)).sum = n := by simp
    rw [List.map_map]
    refine lt_of_eq_of_lt hsum ?_
    omega

end Spread

/-- With a hundred delegations the loop never gets past its first page. -/
theorem total_delegated_hundred :
    (delegationsOf (spread 100 (by decide)) (ascii "d")).length = 100 ∧
      delegated (spread 100 (by decide)) (ascii "d") = 100 ∧
      ∀ fuel total, totalDelegatedLoop (readers chain) (spread 100 (by decide)) (ascii "d")
        fuel 0 ≠ .ok total := by
  have hlen := spread_length 100 (by decide)
  refine ⟨hlen, spread_delegated 100 (by decide), fun fuel total => ?_⟩
  apply totalDelegatedLoop_full (readers chain) rfl
  rw [List.length_map, List.length_take, hlen]
  rfl

end Tsc.Staking
