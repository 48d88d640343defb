import Tsc.Distro.Distributable
import Tsc.Distro.MsgServer

/-!
# The supply stays under the schedule

`Mint` keeps the supply under what the schedule has released by its own day. The
released amount never decreases, so the supply stays under it on every later day.
-/

namespace Tsc.Distro

open Go Sdk Release

namespace HalvingSchedule

/-- The schedule as a limit over block times, in nanoseconds. -/
def limit (h : HalvingSchedule) (hs : h.Sound) (hm : h.months ≤ 3500) : Limit ℤ where
  Value nanos v := h.totalDistributableAt (Time.truncateDay ⟨nanos⟩) = .ok v
  mono hst hu hv := totalDistributableAt_mono hs hm (Time.dayNumber_mono hst) hu hv

end HalvingSchedule

/-! ### Runs -/

variable {W : Type} {k : Keepers W}

def supply (k : Keepers W) (s : State W) (denom : Bytes) : ℤ := (k.getSupply s.world denom).amount

/-- What the bank guarantees of the supply: minting adds the minted coins, and a
transfer keeps it. -/
structure Keepers.Lawful (k : Keepers W) : Prop where
  mintCoins : ∀ {w w' : W} {name : Bytes} {coins : Coins}, k.mintCoins w name coins = .ok w' →
    ∀ denom, (k.getSupply w' denom).amount = (k.getSupply w denom).amount + coins.amountOf denom
  sendCoins : ∀ {w w' : W} {name : Bytes} {acct : AccAddress} {coins : Coins},
    k.sendCoinsFromModuleToAccount w name acct coins = .ok w' →
    ∀ denom, (k.getSupply w' denom).amount = (k.getSupply w denom).amount

/-- Runs under fixed parameters from state `s₀` at block time `t₀`: mint messages,
and steps of the rest of the chain that do not raise the supply, at block times that
never go back. -/
inductive Run (k : Keepers W) (authority denom : Bytes) (t₀ : Time) (s₀ : State W) :
    Time → State W → Prop
  | start : Run k authority denom t₀ s₀ t₀ s₀
  | mint {t t' : Time} {s : State W} (msg : MsgMint) : Run k authority denom t₀ s₀ t s →
      t.nanos ≤ t'.nanos →
      Run k authority denom t₀ s₀ t' (deliver k authority t' s (.mint msg))
  | other {t t' : Time} {s s' : State W} : Run k authority denom t₀ s₀ t s →
      t.nanos ≤ t'.nanos → s'.params = s.params → supply k s' denom ≤ supply k s denom →
      Run k authority denom t₀ s₀ t' s'

theorem mint_supply (hk : k.Lawful) {t : Time} {msg : MsgMint} {s s' : State W} {p : Params}
    (hp : s.params = some p) (h : mint k t msg s = .ok s') :
    s'.params = some p ∧ ∃ schedule limit, newHalvingSchedule k.toTexts p = .ok schedule ∧
      schedule.totalDistributableAt t.truncateDay = .ok limit ∧ supply k s' p.denom ≤ limit := by
  obtain ⟨params, amount, schedule, limit, minted, acct, hs, hs', -, hnew, hlimit, hle, hmint,
    hsend⟩ := mint_ok h
  cases hs.symm.trans hp
  have hone : Coins.amountOf [⟨p.denom, amount⟩] p.denom = amount := by simp [Coins.amountOf]
  have hsupply : supply k s' p.denom = (k.getSupply s.world p.denom).amount + amount := by
    unfold supply
    rw [hk.sendCoins hsend, hk.mintCoins hmint, hone]
  exact ⟨hs', schedule, limit, hnew, hlimit, by omega⟩

/-- The invariant of a run: the parameters are kept, and from the current time on the
supply is under the schedule. -/
theorem Run.holds (hk : k.Lawful) {authority : Bytes} {p : Params} {h : HalvingSchedule}
    (hs : h.Sound) (hm : h.months ≤ 3500) (hnew : newHalvingSchedule k.toTexts p = .ok h)
    {t₀ t : Time} {s₀ s : State W} (hp : s₀.params = some p)
    (hstart : (h.limit hs hm).Holds t₀.nanos (supply k s₀ p.denom))
    (hrun : Run k authority p.denom t₀ s₀ t s) :
    s.params = some p ∧ (h.limit hs hm).Holds t.nanos (supply k s p.denom) := by
  induction hrun with
  | start => exact ⟨hp, hstart⟩
  | @mint t t' s msg _ ht ih =>
    obtain ⟨hparams, hholds⟩ := ih
    rcases deliver_cases k authority t' s (.mint msg) with heq | hok
    · rw [heq]
      exact ⟨hparams, hholds.later ht le_rfl⟩
    · obtain ⟨hkept, schedule, limit, hsched, hlimit, hle⟩ := mint_supply hk hparams hok
      cases hnew.symm.trans hsched
      exact ⟨hkept, Limit.Holds.of_le hlimit hle⟩
  | other _ ht hsame hless ih =>
    obtain ⟨hparams, hholds⟩ := ih
    exact ⟨hsame.trans hparams, hholds.later ht hless⟩

/-- In every state of a run, and at every block time from that state on at which the
schedule has a value, the supply is at most that value, and the value at most the
maximal supply. -/
theorem supply_under_schedule (k : Keepers W) (hk : k.Lawful) (authority : Bytes) (p : Params)
    (hv : p.validate k.toTexts = .ok ()) (hm : p.monthsInHalvingPeriod.toNat ≤ 3500)
    (t₀ : Time) (s₀ : State W) (hp : s₀.params = some p) :
    ∃ h, newHalvingSchedule k.toTexts p = .ok h ∧
      k.newIntFromString p.maxSupply = some h.maxSupply ∧
      ∀ first, h.totalDistributableAt t₀.truncateDay = .ok first →
        supply k s₀ p.denom ≤ first →
        ∀ t s, Run k authority p.denom t₀ s₀ t s →
          ∀ t' : Time, t.nanos ≤ t'.nanos →
            ∀ limit, h.totalDistributableAt t'.truncateDay = .ok limit →
              supply k s p.denom ≤ limit ∧ limit ≤ h.maxSupply := by
  obtain ⟨h, hnew, hs, -, hmax, hmonths⟩ := newHalvingSchedule_sound hv
  have hm' : h.months ≤ 3500 := by
    unfold HalvingSchedule.months
    rw [hmonths]
    omega
  refine ⟨h, hnew, hmax, ?_⟩
  intro first hfirst hle t s hrun t' ht limit hlimit
  have hstart : (h.limit hs hm').Holds t₀.nanos (supply k s₀ p.denom) :=
    Limit.Holds.of_le hfirst hle
  obtain ⟨-, hholds⟩ := hrun.holds hk hs hm' hnew hp hstart
  exact ⟨hholds t'.nanos ht limit hlimit,
    HalvingSchedule.totalDistributableAt_le_maxSupply hs hm' hlimit⟩

def supplyTable : Keepers (Bytes → ℤ) where
  toTexts := decimalTexts
  getSupply w denom := ⟨denom, w denom⟩
  mintCoins w _ coins := .ok fun denom => w denom + coins.amountOf denom
  sendCoinsFromModuleToAccount w _ _ _ := .ok w
  getModuleAddress := some

theorem supplyTable_lawful : supplyTable.Lawful where
  mintCoins h := by
    cases h
    intro denom
    rfl
  sendCoins h := by
    cases h
    intro denom
    rfl

def genesisState : State (Bytes → ℤ) := ⟨some defaultParams, fun _ => 0⟩

def afterMint : State (Bytes → ℤ) :=
  deliver supplyTable [] (Time.ofDay 20291) genesisState (.mint ⟨ascii "100", defaultMintingAddress⟩)

theorem supply_under_schedule_sample :
    supply supplyTable afterMint defaultDenom = 100 ∧
      ∃ h, newHalvingSchedule decimalTexts defaultParams = .ok h ∧
        h.totalDistributableAt (Time.ofDay 20292) = .ok 14373716632443531827515 ∧
        supply supplyTable afterMint defaultDenom ≤ 14373716632443531827515 ∧
        14373716632443531827515 ≤ h.maxSupply := by
  obtain ⟨h, hnew, -, hrun⟩ := supply_under_schedule supplyTable supplyTable_lawful [] defaultParams
    (by decide +kernel) (by decide) (Time.ofDay 20291) genesisState rfl
  have hval : newHalvingSchedule decimalTexts defaultParams =
      .ok ⟨Time.ofDay 20291, 48, 21000000000000000000000000⟩ := by decide +kernel
  cases hnew.symm.trans hval
  have hlimit : HalvingSchedule.totalDistributableAt
      ⟨Time.ofDay 20291, 48, 21000000000000000000000000⟩ (Time.ofDay 20292) =
      .ok 14373716632443531827515 := by decide +kernel
  refine ⟨by decide +kernel, _, hnew, hlimit, ?_⟩
  exact hrun 7186858316221765913757 (by decide +kernel) (by decide +kernel) (Time.ofDay 20291)
    afterMint (.mint _ .start le_rfl) (Time.ofDay 20292) (by decide) _ hlimit

end Tsc.Distro
