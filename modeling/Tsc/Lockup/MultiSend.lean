import Tsc.Lockup.SendRestriction

/-!
# The send restriction on a multi-send

`app/app.go:546-549` appends `SendRestrictionFn` to the bank keeper. For one
input and many outputs the bank applies it to each output and then debits the
sum. Every call sees the balance before the debit, so each output is compared
with the whole of what is available.
-/

namespace Tsc.Lockup

open Go Sdk Kv Staking

/-- An output of a multi-send. Its coins are valid, hence positive. -/
structure Output where
  toAddr : AccAddress
  coins : Coins
  positive : ∀ coin ∈ coins, 0 < coin.amount

variable {W : Type} (k : Keepers W)

def totalOf (outputs : List Output) (denom : Bytes) : ℤ :=
  (outputs.map fun o => o.coins.amountOf denom).sum

/-- `InputOutputCoins` up to the debit: the sender's balances after it. -/
def inputOutputCoins (ctx : Ctx) (st : LockStore) (w : W) (inAddr : AccAddress)
    (outputs : List Output) : Out (Bytes → ℤ) := do
  forRange (fun _ o => do
    let _ ← sendRestrictionFn k ctx st w inAddr o.toAddr o.coins
    .ok ()) () outputs
  failIf (∃ o ∈ outputs, ∃ coin ∈ o.coins,
      k.getBalance w inAddr coin.denom < totalOf outputs coin.denom)
    (fail .errInsufficientFunds "spendable balance is smaller than the amount sent" [])
  .ok fun denom => k.getBalance w inAddr denom - totalOf outputs denom

section Restriction

variable {k} {ctx : Ctx} {st : LockStore} {w : W} {inAddr : AccAddress} {bondDenom : Bytes}
  {locked delegated : ℤ}

/-- With something locked above the delegations, an output passes exactly when it
fits the balance that is left free. -/
theorem sendRestrictionFn_iff (hbond : k.bondDenom w = .ok bondDenom)
    (hl : getLockedAmountByAddress ctx st inAddr = .ok locked)
    (hd : getTotalDelegatedAmount k w inAddr = .ok delegated) (hd0 : 0 ≤ delegated)
    (hlt : locked < intBound) (hdeficit : delegated < locked)
    (hcover : locked - delegated ≤ k.getBalance w inAddr bondDenom)
    (hbal : k.getBalance w inAddr bondDenom < intBound) (o : Output) :
    (∃ a, sendRestrictionFn k ctx st w inAddr o.toAddr o.coins = .ok a) ↔
      o.coins.amountOf bondDenom ≤ k.getBalance w inAddr bondDenom - (locked - delegated) := by
  have hdef : deficit locked delegated = locked - delegated := max_eq_right (by omega)
  have hnn := amountOf_nonneg o.positive bondDenom
  rcases lt_or_eq_of_le hnn with hpos | hzero
  · constructor
    · rintro ⟨a, hok⟩
      have hsound := sendRestrictionFn_sound hbond hl hd hd0 hpos hok
      omega
    · intro hle
      refine ⟨o.toAddr, (sendRestrictionFn_eq_ok_iff hbond hl ⟨by omega, hlt⟩ hd hd0 hpos
        ⟨by omega, hbal⟩).mpr (Or.inr ?_)⟩
      omega
  · constructor
    · intro _
      omega
    · intro _
      exact ⟨o.toAddr, sendRestrictionFn_without hbond hzero.symm⟩

theorem restrictions_iff (outputs : List Output) :
    forRange (fun _ o => do
      let _ ← sendRestrictionFn k ctx st w inAddr o.toAddr o.coins
      .ok ()) () outputs = .ok () ↔
      ∀ o ∈ outputs, ∃ a, sendRestrictionFn k ctx st w inAddr o.toAddr o.coins = .ok a := by
  induction outputs with
  | nil => simp [forRange]
  | cons o outputs ih =>
    rw [forRange_cons, List.forall_mem_cons, ← ih, bind_eq_ok]
    constructor
    · intro h
      obtain ⟨_, hone, hrest⟩ := h
      obtain ⟨a, ha, _⟩ := (bind_eq_ok _ _ _).mp hone
      exact ⟨⟨a, ha⟩, hrest⟩
    · intro h
      obtain ⟨⟨a, ha⟩, hrest⟩ := h
      exact ⟨(), (bind_eq_ok _ _ _).mpr ⟨a, ha, rfl⟩, hrest⟩

end Restriction

theorem inputOutputCoins_iff (ctx : Ctx) (st : LockStore) (w : W) (inAddr : AccAddress)
    (outputs : List Output) (balance : Bytes → ℤ) :
    inputOutputCoins k ctx st w inAddr outputs = .ok balance ↔
      (∀ o ∈ outputs, ∃ a, sendRestrictionFn k ctx st w inAddr o.toAddr o.coins = .ok a) ∧
      (∀ o ∈ outputs, ∀ coin ∈ o.coins,
        totalOf outputs coin.denom ≤ k.getBalance w inAddr coin.denom) ∧
      balance = fun denom => k.getBalance w inAddr denom - totalOf outputs denom := by
  unfold inputOutputCoins
  rw [bind_eq_ok]
  constructor
  · intro h
    obtain ⟨_, hall, hrest⟩ := h
    obtain ⟨_, hfunds, heq⟩ := (bind_eq_ok _ _ _).mp hrest
    rw [failIf_eq_ok] at hfunds
    cases heq
    refine ⟨(restrictions_iff outputs).mp hall, ?_, rfl⟩
    intro o ho coin hcoin
    by_contra hlt
    exact hfunds ⟨o, ho, coin, hcoin, not_le.mp hlt⟩
  · intro h
    obtain ⟨hall, hfunds, heq⟩ := h
    refine ⟨(), (restrictions_iff outputs).mpr hall, ?_⟩
    rw [failIf_of_not, ok_bind, heq]
    intro hshort
    obtain ⟨o, ho, coin, hcoin, hlt⟩ := hshort
    exact absurd (hfunds o ho coin hcoin) (not_le.mpr hlt)

theorem totalOf_le_balance {w : W} {inAddr : AccAddress} {outputs : List Output} {denom : Bytes}
    (hfunds : ∀ o ∈ outputs, ∀ coin ∈ o.coins,
      totalOf outputs coin.denom ≤ k.getBalance w inAddr coin.denom)
    (hbal : 0 ≤ k.getBalance w inAddr denom) :
    totalOf outputs denom ≤ k.getBalance w inAddr denom := by
  by_cases hall : ∀ o ∈ outputs, o.coins.amountOf denom = 0
  · have hzero : totalOf outputs denom = 0 := by
      apply List.sum_eq_zero
      intro x hx
      obtain ⟨o, ho, heq⟩ := List.mem_map.mp hx
      rw [← heq]
      exact hall o ho
    omega
  · push Not at hall
    obtain ⟨o, ho, hne⟩ := hall
    unfold Coins.amountOf at hne
    cases hf : o.coins.find? fun c => c.denom = denom with
    | none =>
      rw [hf] at hne
      exact absurd rfl hne
    | some coin =>
      have hden : coin.denom = denom := by simpa using List.find?_some hf
      have hle := hfunds o ho coin (List.mem_of_find?_eq_some hf)
      rw [hden] at hle
      exact hle

/-- A multi-send leaves the deficit covered exactly when there is none, the
restriction refuses an output, the bank refuses the debit, or all outputs
together fit what one output may take. -/
theorem multi_send_keeps_deficit_iff (k : Keepers W) {t₀ t : BlockTime} {st : LockStore}
    (h : Reachable k t₀ t st) (ctx : Ctx) (w : W) (inAddr : AccAddress) (outputs : List Output)
    {bondDenom : Bytes} {locked delegated : ℤ} (hbond : k.bondDenom w = .ok bondDenom)
    (hl : getLockedAmountByAddress ctx st inAddr = .ok locked)
    (hd : getTotalDelegatedAmount k w inAddr = .ok delegated) (hd0 : 0 ≤ delegated)
    (hcover : max 0 (locked - delegated) ≤ k.getBalance w inAddr bondDenom)
    (hbal : k.getBalance w inAddr bondDenom < intBound) :
    (∀ balance, inputOutputCoins k ctx st w inAddr outputs = .ok balance →
        max 0 (locked - delegated) ≤ balance bondDenom) ↔
      locked ≤ delegated ∨
      (∃ o ∈ outputs, k.getBalance w inAddr bondDenom - (locked - delegated) <
        o.coins.amountOf bondDenom) ∨
      (∃ o ∈ outputs, ∃ coin ∈ o.coins,
        k.getBalance w inAddr coin.denom < totalOf outputs coin.denom) ∨
      totalOf outputs bondDenom ≤ k.getBalance w inAddr bondDenom - (locked - delegated) := by
  obtain ⟨L, hL, _⟩ := h.encodes
  have hlt := ((getLockedAmountByAddress_iff hL ctx inAddr locked).mp hl).2
  by_cases hdeficit : delegated < locked
  · have hmax : max 0 (locked - delegated) = locked - delegated := max_eq_right (by omega)
    rw [hmax] at hcover ⊢
    have hone := sendRestrictionFn_iff hbond hl hd hd0 hlt hdeficit hcover hbal
    constructor
    · intro hkeeps
      by_contra hnot
      push Not at hnot
      obtain ⟨_, hfit, hfunds, hover⟩ := hnot
      have hrun := (inputOutputCoins_iff k ctx st w inAddr outputs _).mpr
        ⟨fun o ho => (hone o).mpr (hfit o ho), hfunds, rfl⟩
      have hleft := hkeeps _ hrun
      omega
    · intro hcond balance hrun
      obtain ⟨hpass, hfunds, hbalance⟩ := (inputOutputCoins_iff k ctx st w inAddr outputs _).mp hrun
      rw [hbalance]
      rcases hcond with hle | ⟨o, ho, hbig⟩ | ⟨o, ho, coin, hcoin, hshort⟩ | htotal
      · omega
      · exact absurd ((hone o).mp (hpass o ho)) (not_le.mpr hbig)
      · exact absurd (hfunds o ho coin hcoin) (not_le.mpr hshort)
      · dsimp only
        omega
  · have hmax : max 0 (locked - delegated) = 0 := max_eq_left (by omega)
    rw [hmax] at hcover ⊢
    constructor
    · intro _
      exact Or.inl (not_lt.mp hdeficit)
    · intro _ balance hrun
      obtain ⟨_, hfunds, hbalance⟩ := (inputOutputCoins_iff k ctx st w inAddr outputs _).mp hrun
      have hle := totalOf_le_balance k hfunds hcover
      rw [hbalance]
      dsimp only
      omega

/-! ### Two outputs -/

def outputOf (receiver : String) (amount : ℤ) (h : 0 < amount) : Output :=
  ⟨ascii receiver, [tsc amount], by
    intro coin hcoin
    rw [List.mem_singleton.mp hcoin]
    exact h⟩

/-- Lock 100 until June, then send the outputs from `d`: what is locked and
delegated, and the balance after the debit. -/
def lockThenSend (outputs : List Output) : Out (ℤ × ℤ × ℤ) := do
  let s ← deliver (readers chain) newYear Store.empty twoValidators
    (.lock ⟨accText (ascii "d"), ascii "2026-06-01", tsc 100⟩)
  let locked ← getLockedAmountByAddress newYear s.1 (ascii "d")
  let delegated ← getTotalDelegatedAmount (readers chain) halfDelegated (ascii "d")
  let balance ← inputOutputCoins (readers chain) newYear s.1 halfDelegated (ascii "d") outputs
  .ok (locked, delegated, balance (ascii "tsc"))

def fiftyTwice : List Output := [outputOf "x" 50 (by decide), outputOf "y" 50 (by decide)]

/-- Locked 100, delegated 50, balance 100: 50 must stay, and two outputs of 50 take all. -/
theorem two_outputs_take_the_deficit :
    ∃ st balance, Reachable (readers chain) newYear.blockTime newYear.blockTime st ∧
      getLockedAmountByAddress newYear st (ascii "d") = .ok 100 ∧
      getTotalDelegatedAmount (readers chain) halfDelegated (ascii "d") = .ok 50 ∧
      halfDelegated.balance (ascii "d") (ascii "tsc") = 100 ∧
      inputOutputCoins (readers chain) newYear st halfDelegated (ascii "d") fiftyTwice =
        .ok balance ∧
      balance (ascii "tsc") = 0 := by
  have h : lockThenSend fiftyTwice = .ok (100, 50, 0) := by decide +kernel
  simp only [lockThenSend, bind_eq_ok, Except.ok.injEq, Prod.mk.injEq] at h
  obtain ⟨s, hs, locked, hl, delegated, hd, balance, hb, rfl, rfl, hzero⟩ := h
  exact ⟨s.1, balance, Reachable.of_lock hs, hl, hd, rfl, hb, hzero⟩

theorem multi_send_keeps_deficit_sample :
    ∃ st, Reachable (readers chain) newYear.blockTime newYear.blockTime st ∧
      ∀ balance, inputOutputCoins (readers chain) newYear st halfDelegated (ascii "d")
        [outputOf "x" 50 (by decide)] = .ok balance →
        max 0 (100 - 50) ≤ balance (ascii "tsc") := by
  have h : lockThenSend [outputOf "x" 50 (by decide)] = .ok (100, 50, 50) := by decide +kernel
  simp only [lockThenSend, bind_eq_ok, Except.ok.injEq, Prod.mk.injEq] at h
  obtain ⟨s, hs, locked, hl, delegated, hd, _, _, rfl, rfl, _⟩ := h
  have hreach := Reachable.of_lock hs
  refine ⟨s.1, hreach, ?_⟩
  apply (multi_send_keeps_deficit_iff (readers chain) hreach newYear halfDelegated (ascii "d")
    [outputOf "x" 50 (by decide)] rfl hl hd (by decide) (by decide) (by decide +kernel)).mpr
  exact Or.inr (Or.inr (Or.inr (by decide)))

end Tsc.Lockup
