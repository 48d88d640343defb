import Tsc.Lockup.Types
import Tsc.Sdk.Bech32
import Tsc.Sdk.Dec

/-!
# What the staking module gets from the SDK

Addresses have bech32 texts, and a validator's shares are turned into tokens and back by
decimal arithmetic that rounds. Both are parameters. Of the arithmetic it is assumed that
it rounds nothing at an exchange rate of one, where every validator is that was never
slashed, and that values are not negative. The SDK's decimals are an instance, and so are
exact rationals.
-/

namespace Tsc.Staking

open Go Sdk Lockup

/-- Bech32 texts of addresses. A validator's text decodes to the validator. -/
structure AddressCodec where
  acc : Bytes → Out AccAddress
  val : Bytes → Out ValAddress
  valText : ValAddress → Bytes
  val_valText : ∀ v, val (valText v) = .ok v

/-- The validator has as many shares as tokens. -/
structure AtOne (x : Validator) : Prop where
  pos : 0 < x.tokens
  shares : x.delegatorShares = x.tokens

/-- `Validator.TokensFromShares`, `SharesFromTokens` and `SharesFromTokensTruncated`. -/
structure ShareArithmetic where
  tokensFromShares : Validator → ℚ → Out ℚ
  sharesFromTokens : Validator → ℤ → Out ℚ
  sharesFromTokensTruncated : Validator → ℤ → Out ℚ
  /-- With fewer tokens nothing overflows at a rate of one. -/
  limit : ℤ
  tokens_nonneg : ∀ x shares value, 0 ≤ x.tokens → 0 ≤ x.delegatorShares → 0 ≤ shares →
    tokensFromShares x shares = .ok value → 0 ≤ value
  tokens_atOne : ∀ x shares value, AtOne x → Dec.Exact shares →
    tokensFromShares x shares = .ok value → value = shares
  tokens_return : ∀ x shares, AtOne x → x.tokens < limit → Dec.Exact shares → 0 ≤ shares →
    shares ≤ x.delegatorShares → ∃ value, tokensFromShares x shares = .ok value
  shares_atOne : ∀ x amt shares, AtOne x → sharesFromTokens x amt = .ok shares → shares = amt
  truncated_atOne : ∀ x amt shares, AtOne x → sharesFromTokensTruncated x amt = .ok shares →
    shares = amt

structure Platform extends AddressCodec, ShareArithmetic

/-! ### Exact rationals -/

theorem AtOne.shares_ne_zero {x : Validator} (h : AtOne x) : x.delegatorShares ≠ 0 := by
  rw [h.shares]
  exact_mod_cast ne_of_gt h.pos

theorem AtOne.worth {x : Validator} (h : AtOne x) (shares : ℚ) :
    shares * x.tokens / x.delegatorShares = shares := by
  have hne := h.shares_ne_zero
  rw [h.shares] at hne ⊢
  exact mul_div_cancel_right₀ shares hne

theorem AtOne.price {x : Validator} (h : AtOne x) (amt : ℤ) :
    x.delegatorShares * amt / x.tokens = amt := by
  have hne := h.shares_ne_zero
  rw [h.shares] at hne ⊢
  exact mul_div_cancel_left₀ (amt : ℚ) hne

def exactTokens (x : Validator) (shares : ℚ) : Out ℚ :=
  if x.delegatorShares = 0 then .error (.panic "division by zero")
  else .ok (shares * x.tokens / x.delegatorShares)

def exactPrice (x : Validator) (amt : ℤ) : Out ℚ :=
  if x.tokens = 0 then .error (fail .plain "insufficient delegation shares" [])
  else .ok (x.delegatorShares * amt / x.tokens)

theorem exactTokens_eq_ok {x : Validator} {shares value : ℚ}
    (h : exactTokens x shares = .ok value) : value = shares * x.tokens / x.delegatorShares := by
  unfold exactTokens at h
  split_ifs at h
  cases h
  rfl

theorem exactPrice_eq_ok {x : Validator} {amt : ℤ} {shares : ℚ}
    (h : exactPrice x amt = .ok shares) : shares = x.delegatorShares * amt / x.tokens := by
  unfold exactPrice at h
  split_ifs at h
  cases h
  rfl

theorem exactTokens_nonneg (x : Validator) (shares value : ℚ) (hT : 0 ≤ x.tokens)
    (hS : 0 ≤ x.delegatorShares) (h0 : 0 ≤ shares) (h : exactTokens x shares = .ok value) :
    0 ≤ value := by
  have hTq : (0 : ℚ) ≤ x.tokens := by exact_mod_cast hT
  rw [exactTokens_eq_ok h]
  positivity

theorem exactTokens_return (x : Validator) (shares : ℚ) (hx : AtOne x) :
    ∃ value, exactTokens x shares = .ok value := ⟨_, if_neg hx.shares_ne_zero⟩

def exactShares : ShareArithmetic where
  tokensFromShares := exactTokens
  sharesFromTokens := exactPrice
  sharesFromTokensTruncated := exactPrice
  limit := intBound
  tokens_nonneg := exactTokens_nonneg
  tokens_atOne _ shares _ hx _ h := (exactTokens_eq_ok h).trans (hx.worth shares)
  tokens_return x shares hx _ _ _ _ := exactTokens_return x shares hx
  shares_atOne _ amt _ hx h := (exactPrice_eq_ok h).trans (hx.price amt)
  truncated_atOne _ amt _ hx h := (exactPrice_eq_ok h).trans (hx.price amt)

/-- The platform with the same texts and shares of exact rationals. -/
def AddressCodec.exact (c : AddressCodec) : Platform := ⟨c, exactShares⟩

@[simp] theorem AddressCodec.exact_codec (c : AddressCodec) : c.exact.toAddressCodec = c := rfl

/-! ### Decimals -/

def decTokens (x : Validator) (shares : ℚ) : Out ℚ := do
  let product ← (Dec.ofRat shares).mulInt x.tokens
  let value ← product.quo (Dec.ofRat x.delegatorShares)
  .ok value.value

def decShares (x : Validator) (amt : ℤ) : Out ℚ := do
  failIf (x.tokens = 0) (fail .plain "insufficient delegation shares" [])
  let product ← (Dec.ofRat x.delegatorShares).mulInt amt
  let shares ← product.quoInt x.tokens
  .ok shares.value

def decSharesTruncated (x : Validator) (amt : ℤ) : Out ℚ := do
  failIf (x.tokens = 0) (fail .plain "insufficient delegation shares" [])
  let product ← (Dec.ofRat x.delegatorShares).mulInt amt
  let shares ← product.quoTruncate (Dec.ofRat x.tokens)
  .ok shares.value

theorem AtOne.units {x : Validator} (h : AtOne x) :
    (Dec.ofRat x.delegatorShares).units = x.tokens * precision ∧ x.tokens * precision ≠ 0 := by
  rw [h.shares, Dec.ofRat_intCast]
  exact ⟨rfl, ne_of_gt (mul_pos h.pos precision_pos)⟩

theorem decTokens_iff {x : Validator} (hx : AtOne x) {shares : ℚ} (hs : Dec.Exact shares)
    (value : ℚ) :
    decTokens x shares = .ok value ↔
      ((Dec.ofRat shares).units * x.tokens).natAbs < Dec.bound ∧
        (Dec.ofRat shares).units.natAbs < Dec.bound ∧ value = shares := by
  obtain ⟨hunits, hne⟩ := hx.units
  have hquo : ∀ product : Dec, product.units = (Dec.ofRat shares).units * x.tokens →
      product.quo (Dec.ofRat x.delegatorShares) = Dec.check (Dec.ofRat shares).units := by
    intro product hp
    apply Dec.quo_exact
    · rw [hunits]
      exact hne
    · rw [hp, hunits, mul_assoc]
  simp only [decTokens, Dec.mulInt, bind_eq_ok, Dec.check_eq_ok]
  constructor
  · intro h
    obtain ⟨product, ⟨hlt, rfl⟩, v, hv, heq⟩ := h
    rw [hquo _ rfl, Dec.check_eq_ok] at hv
    obtain ⟨hlt', rfl⟩ := hv
    cases heq
    exact ⟨hlt, hlt', Dec.value_ofRat hs⟩
  · intro h
    obtain ⟨hlt, hlt', rfl⟩ := h
    refine ⟨_, ⟨hlt, rfl⟩, Dec.ofRat value, ?_, congrArg Except.ok (Dec.value_ofRat hs)⟩
    rw [hquo _ rfl, Dec.check_eq_ok]
    exact ⟨hlt', rfl⟩

theorem decTokens_nonneg (x : Validator) (shares value : ℚ) (hT : 0 ≤ x.tokens)
    (hS : 0 ≤ x.delegatorShares) (h0 : 0 ≤ shares) (h : decTokens x shares = .ok value) :
    0 ≤ value := by
  simp only [decTokens, Dec.mulInt, bind_eq_ok, Dec.check_eq_ok] at h
  obtain ⟨product, ⟨_, rfl⟩, v, hv, heq⟩ := h
  cases heq
  have hnn := Dec.quo_nonneg (mul_nonneg (Dec.ofRat_nonneg h0) hT) (Dec.ofRat_nonneg hS) hv
  have hvq : (0 : ℚ) ≤ v.units := by exact_mod_cast hnn
  have hp : (0 : ℚ) ≤ precision := by exact_mod_cast precision_pos.le
  exact div_nonneg hvq hp

theorem decTokens_return (x : Validator) (shares : ℚ) (hx : AtOne x) (hlt : x.tokens < 2 ^ 120)
    (hs : Dec.Exact shares) (h0 : 0 ≤ shares) (hle : shares ≤ x.delegatorShares) :
    ∃ value, decTokens x shares = .ok value := by
  have hp : (0 : ℚ) ≤ precision := by exact_mod_cast precision_pos.le
  have hn0 := Dec.ofRat_nonneg h0
  have hn : (Dec.ofRat shares).units ≤ x.tokens * precision := by
    rw [← hx.units.1]
    exact Int.floor_le_floor (mul_le_mul_of_nonneg_right hle hp)
  have hT := hx.pos
  have hunits : (Dec.ofRat shares).units ≤ 2 ^ 180 := by
    have hmul : x.tokens * precision ≤ 2 ^ 120 * precision :=
      mul_le_mul_of_nonneg_right hlt.le precision_pos.le
    have hpow : (2 : ℤ) ^ 120 * precision ≤ 2 ^ 180 := by decide
    omega
  have hbig : (2 : ℕ) ^ 300 < Dec.bound := by decide +kernel
  have hproduct : (Dec.ofRat shares).units * x.tokens ≤ 2 ^ 180 * 2 ^ 120 :=
    mul_le_mul hunits hlt.le hT.le (by norm_num)
  have hpos := mul_nonneg hn0 hT.le
  refine ⟨shares, (decTokens_iff hx hs shares).mpr ⟨?_, ?_, rfl⟩⟩
  · refine lt_of_le_of_lt ?_ hbig
    zify
    rw [abs_of_nonneg hpos]
    calc _ ≤ (2 : ℤ) ^ 180 * 2 ^ 120 := hproduct
      _ = 2 ^ 300 := by rw [← pow_add]
  · refine lt_of_le_of_lt ?_ hbig
    zify
    rw [abs_of_nonneg hn0]
    exact hunits.trans (pow_le_pow_right₀ (by norm_num) (by norm_num))

theorem decShares_atOne (x : Validator) (amt : ℤ) (shares : ℚ) (hx : AtOne x)
    (h : decShares x amt = .ok shares) : shares = amt := by
  simp only [decShares, Dec.mulInt, bind_eq_ok, Dec.check_eq_ok, failIf_eq_ok, Dec.quoInt] at h
  obtain ⟨_, hT, product, ⟨_, rfl⟩, v, hv, heq⟩ := h
  rw [if_neg hT, hx.units.1] at hv
  cases hv
  cases heq
  have hunits : (x.tokens * precision * amt).tdiv x.tokens = (Dec.ofRat amt).units := by
    rw [Dec.ofRat_intCast, mul_assoc, mul_comm, Int.mul_tdiv_cancel _ hT, mul_comm]
  dsimp only
  rw [hunits]
  exact Dec.value_ofRat (Dec.exact_intCast amt)

theorem decSharesTruncated_atOne (x : Validator) (amt : ℤ) (shares : ℚ) (hx : AtOne x)
    (h : decSharesTruncated x amt = .ok shares) : shares = amt := by
  simp only [decSharesTruncated, Dec.mulInt, bind_eq_ok, Dec.check_eq_ok, failIf_eq_ok] at h
  obtain ⟨_, hT, product, ⟨_, rfl⟩, v, hv, heq⟩ := h
  have hquo : Dec.quoTruncate ⟨(Dec.ofRat x.delegatorShares).units * amt⟩ (Dec.ofRat x.tokens) =
      Dec.check (Dec.ofRat amt).units := by
    apply Dec.quoTruncate_exact
    · rw [Dec.ofRat_intCast]
      exact hx.units.2
    · rw [hx.units.1, Dec.ofRat_intCast, Dec.ofRat_intCast]
      ring
  rw [hquo, Dec.check_eq_ok] at hv
  obtain ⟨_, rfl⟩ := hv
  cases heq
  exact Dec.value_ofRat (Dec.exact_intCast amt)

/-- `(shares.MulInt(tokens)).Quo(delegatorShares)` and its inverses, as the SDK has them. -/
def decimals : ShareArithmetic where
  tokensFromShares := decTokens
  sharesFromTokens := decShares
  sharesFromTokensTruncated := decSharesTruncated
  limit := 2 ^ 120
  tokens_nonneg := decTokens_nonneg
  tokens_atOne _ _ value hx hs h := ((decTokens_iff hx hs value).mp h).2.2
  tokens_return := decTokens_return
  shares_atOne := decShares_atOne
  truncated_atOne := decSharesTruncated_atOne

/-! ### The chain's texts -/

/-- Text of an account's address (`app/app.go:157`). -/
@[irreducible] def accText (a : AccAddress) : Bytes := Bech32.encode (ascii "tsc") a

@[irreducible] def valText (v : ValAddress) : Bytes := Bech32.encode (ascii "tscvaloper") v

def readText (hrp text : Bytes) : Out Bytes :=
  ofOption (fail .plain "decoding bech32 failed" []) (Bech32.decode hrp text)

theorem readText_encode {hrp : Bytes} (h : Bech32.lower hrp = hrp) (a : Bytes) :
    readText hrp (Bech32.encode hrp a) = .ok a :=
  (ofOption_eq_ok _ _ _).mpr ((Bech32.decode_eq_some_iff h _ a).mpr (Or.inl rfl))

theorem readText_accText (a : AccAddress) : readText (ascii "tsc") (accText a) = .ok a := by
  unfold accText
  exact readText_encode (by decide) a

theorem readText_valText (v : ValAddress) : readText (ascii "tscvaloper") (valText v) = .ok v := by
  unfold valText
  exact readText_encode (by decide) v

def bech32 : AddressCodec where
  acc := readText (ascii "tsc")
  val := readText (ascii "tscvaloper")
  valText := valText
  val_valText := readText_valText

/-- Bech32 texts and decimals. -/
def chain : Platform := ⟨bech32, decimals⟩

end Tsc.Staking
