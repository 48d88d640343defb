import Tsc.Lockup.Extending

/-!
# Extensions compose

An extension through a date in between is the extension past it, and two of one
date to another are one of both amounts: the same store is left, so the lock and
the queue entry that were made on the way are gone again.
-/

namespace Tsc.Lockup

open Go Sdk Kv Staking

variable {W : Type}

/-! ### On amounts -/

section Amounts

variable {ctx : Ctx} {A : Bytes → ℤ} {f m u denom : Bytes} {x y : ℤ}

theorem moveAmount_through :
    moveAmount (moveAmount A ⟨f, m, ⟨denom, x⟩⟩) ⟨m, u, ⟨denom, x⟩⟩ =
      moveAmount A ⟨f, u, ⟨denom, x⟩⟩ := by
  funext d
  simp only [moveAmount]
  ring

theorem moveAmount_twice :
    moveAmount (moveAmount A ⟨f, u, ⟨denom, x⟩⟩) ⟨f, u, ⟨denom, y⟩⟩ =
      moveAmount A ⟨f, u, ⟨denom, x + y⟩⟩ := by
  funext d
  simp only [moveAmount]
  split_ifs <;> ring

theorem canExtend_through
    (h : CanExtendAll ctx A [⟨f, m, ⟨denom, x⟩⟩, ⟨m, u, ⟨denom, x⟩⟩]) :
    CanExtendAll ctx A [⟨f, u, ⟨denom, x⟩⟩] := by
  obtain ⟨h₁, h₂, _⟩ := h
  obtain ⟨tf, tm, hf, hm, hfm, _⟩ := h₁.dates
  obtain ⟨tm', tu, hm', hu, hmu, hday, hlimit⟩ := h₂.dates
  have htm : tm = tm' := Option.some.inj (hm.symm.trans hm')
  rw [← htm] at hmu
  have hfu : tf.Before tu := lt_trans hfm hmu
  have hne : f ≠ u := parseDateOnly_ne hf hu ((parseDateOnly_before_iff hf hu).mp hfu)
  have hroom := h₂.room
  have hmu' : m ≠ u := h₂.fromDate_ne
  -- the two moves of the date in between do not touch what is under the last date
  simp only [moveAmount, if_neg hne, if_neg hmu', sub_zero, add_zero] at hroom
  exact ⟨⟨⟨tf, tu, hf, hu, hfu, hday, hlimit⟩, h₁.enough, hroom⟩, trivial⟩

theorem canExtend_twice_iff (hy : 0 < y) :
    CanExtendAll ctx A [⟨f, u, ⟨denom, x⟩⟩, ⟨f, u, ⟨denom, y⟩⟩] ↔
      CanExtendAll ctx A [⟨f, u, ⟨denom, x + y⟩⟩] := by
  constructor
  · rintro ⟨h₁, h₂, _⟩
    have hne : f ≠ u := h₁.fromDate_ne
    have henough := h₂.enough
    have hroom := h₂.room
    simp only [moveAmount, if_true, if_neg hne, if_neg hne.symm] at henough hroom
    refine ⟨⟨h₁.dates, ?_, ?_⟩, trivial⟩
    · dsimp only
      omega
    · dsimp only
      omega
  · rintro ⟨h, _⟩
    have hne : f ≠ u := h.fromDate_ne
    have henough := h.enough
    have hroom := h.room
    dsimp only at henough hroom
    refine ⟨⟨h.dates, ?_, ?_⟩, ⟨h.dates, ?_, ?_⟩, trivial⟩
    · dsimp only
      omega
    · dsimp only
      omega
    · simp only [moveAmount, if_true, if_neg hne.symm]
      omega
    · simp only [moveAmount, if_true, if_neg hne]
      omega

end Amounts

/-! ### On stores -/

section Stores

variable {k : Keepers W} {ctx : Ctx} {st st' : LockStore} {w : W}

theorem extendOne_bondDenom {addr : AccAddress} {e : Extension}
    (h : extendOne k ctx w addr st (some e) = .ok st') : k.bondDenom w = .ok e.amount.denom := by
  simp only [extendOne, checkExtension, deref, bind_eq_ok, failIf_eq_ok, ofOption_eq_ok,
    not_not] at h
  obtain ⟨_, ⟨denom, hdenom, e', he, _, hd, _⟩, _⟩ := h
  cases he
  rw [hd]
  exact hdenom

/-- `Extend` on a non-empty list of one denom, on a store that encodes a ledger. -/
theorem extend_eq_ok_iff (k : Keepers W) (w : W) {n : ℤ} {L : Ledger} (h : Encodes st L)
    (hlimit : ctx.blockTime.horizon ≤ n) (hn : Within n st) (address denom : Bytes)
    {es : List Extension} (hne : es ≠ [])
    (hes : ∀ e ∈ es, 0 < e.amount.amount ∧ e.amount.denom = denom) (st' : LockStore) :
    extend k ctx st w ⟨address, es.map some⟩ = .ok st' ↔
      ∃ addr, k.accAddressFromBech32 address = .ok addr ∧ k.getAccount w addr = some () ∧
        k.bondDenom w = .ok denom ∧
        CanExtendAll ctx (fun d => amountOn d (L addr).locks) es ∧
          Holding L addr (es.foldl moveAmount fun d => amountOn d (L addr).locks) st' := by
  have hrounds : ∀ addr, k.bondDenom w = .ok denom →
      (forRange (extendOne k ctx w addr) st (es.map some) = .ok st' ↔
        CanExtendAll ctx (fun d => amountOn d (L addr).locks) es ∧
          Holding L addr (es.foldl moveAmount fun d => amountOn d (L addr).locks) st') := by
    intro addr hbond
    apply extensions_eq_ok_iff h hlimit hn
    intro e he
    rw [(hes e he).2]
    exact ⟨(hes e he).1, hbond⟩
  simp only [extend, bind_eq_ok, wrapErr_eq_ok, ofOption_eq_ok]
  constructor
  · rintro ⟨addr, haddr, _, hacc, hloop⟩
    obtain ⟨e, he⟩ := List.exists_mem_of_ne_nil es hne
    obtain ⟨_, _, hone⟩ := forRange_mem_ok hloop (List.mem_map_of_mem he)
    have hbond := extendOne_bondDenom hone
    rw [(hes e he).2] at hbond
    exact ⟨addr, haddr, hacc, hbond, (hrounds addr hbond).mp hloop⟩
  · rintro ⟨addr, haddr, hacc, hbond, hend⟩
    exact ⟨addr, haddr, (), hacc, (hrounds addr hbond).mpr hend⟩

/-- In a reachable state, at any block time: extending `x` from `f` to `m` and from `m`
to `u` does what extending it from `f` to `u` does, and extending `x` and then `y`
from `f` to `u` goes through exactly when extending `x + y` does, with the same
store. Dates out of order are refused, so the texts may be any. -/
theorem extensions_compose (k : Keepers W) {t₀ t : BlockTime} {st : LockStore}
    (h : Reachable k t₀ t st) (ctx : Ctx) (w : W) (address f m u denom : Bytes) (x y : ℤ)
    (hx : 0 < x) (hy : 0 < y) :
    (∀ st', extend k ctx st w ⟨address, [some ⟨f, m, ⟨denom, x⟩⟩, some ⟨m, u, ⟨denom, x⟩⟩]⟩ =
        .ok st' → extend k ctx st w ⟨address, [some ⟨f, u, ⟨denom, x⟩⟩]⟩ = .ok st') ∧
      ∀ st', extend k ctx st w ⟨address, [some ⟨f, u, ⟨denom, x⟩⟩, some ⟨f, u, ⟨denom, y⟩⟩]⟩ =
        .ok st' ↔ extend k ctx st w ⟨address, [some ⟨f, u, ⟨denom, x + y⟩⟩]⟩ = .ok st' := by
  obtain ⟨L, hL, _⟩ := h.encodes
  have hn := h.delivered.within.mono (le_max_left t.horizon ctx.blockTime.horizon)
  have hiff := fun (es : List Extension) (hne : es ≠ [])
      (hes : ∀ e ∈ es, 0 < e.amount.amount ∧ e.amount.denom = denom) =>
    extend_eq_ok_iff k w hL (le_max_right t.horizon ctx.blockTime.horizon) hn address denom hne hes
  constructor
  · intro st' hok
    have h₂ := (hiff [⟨f, m, ⟨denom, x⟩⟩, ⟨m, u, ⟨denom, x⟩⟩] (by simp) (by simp [hx]) st').mp hok
    apply (hiff [⟨f, u, ⟨denom, x⟩⟩] (by simp) (by simp [hx]) st').mpr
    obtain ⟨addr, haddr, hacc, hbond, hall, hend⟩ := h₂
    simp only [List.foldl_cons, List.foldl_nil, moveAmount_through] at hend
    exact ⟨addr, haddr, hacc, hbond, canExtend_through hall, hend⟩
  · intro st'
    have h₂ := hiff [⟨f, u, ⟨denom, x⟩⟩, ⟨f, u, ⟨denom, y⟩⟩] (by simp) (by simp [hx, hy]) st'
    have h₁ := hiff [⟨f, u, ⟨denom, x + y⟩⟩] (by simp) (by simp [add_pos hx hy]) st'
    simp only [List.foldl_cons, List.foldl_nil, moveAmount_twice, canExtend_twice_iff hy] at h₁ h₂
    exact h₂.trans h₁.symm

end Stores

def juneToAugust : MsgExtend :=
  ⟨accText (ascii "d"), [some ⟨ascii "2026-06-01", ascii "2026-07-01", tsc 10⟩,
    some ⟨ascii "2026-07-01", ascii "2026-08-01", tsc 10⟩]⟩

theorem extensions_compose_through_july :
    ∃ s st', deliver (readers chain) newYear Store.empty twoValidators (.lock lockUntilJune) =
        .ok s ∧
      extend (readers chain) newYear s.1 twoValidators juneToAugust = .ok st' ∧
      extend (readers chain) newYear s.1 twoValidators
        ⟨accText (ascii "d"), [some ⟨ascii "2026-06-01", ascii "2026-08-01", tsc 10⟩]⟩ = .ok st' := by
  have hok : (deliver (readers chain) newYear Store.empty twoValidators
    (.lock lockUntilJune) >>= fun s =>
      extend (readers chain) newYear s.1 twoValidators juneToAugust).isOk = true := by
    decide +kernel
  obtain ⟨st', hst'⟩ := exists_of_isOk hok
  obtain ⟨s, hs, hextend⟩ := (bind_eq_ok _ _ _).mp hst'
  have hthrough := (extensions_compose (readers chain) (Reachable.of_lock hs) newYear
    twoValidators (accText (ascii "d")) (ascii "2026-06-01") (ascii "2026-07-01") (ascii "2026-08-01")
    (ascii "tsc") 10 10 (by decide) (by decide)).1 st' hextend
  exact ⟨s, st', hs, hextend, hthrough⟩

end Tsc.Lockup
