import Tsc.Lockup.Horizon

/-!
# When an extension goes through

What `Extend` asks for, as a condition on the message and on the amounts the
account has stored for each date. The conditions of an extension are read on the
amounts the ones before it have left.
-/

namespace Tsc.Lockup

open Go Sdk Kv

variable {W : Type}

/-- The amount an account has stored for a date. -/
def storedAmount (st : LockStore) (a : AccAddress) (d : Bytes) : ℤ :=
  match getLocksByAddress st a with
  | .ok l => amountOn d l
  | .error _ => 0

structure CanExtend (ctx : Ctx) (A : Bytes → ℤ) (e : Extension) : Prop where
  dates : ∃ tf tt, parseDateOnly e.fromDate = some tf ∧ parseDateOnly e.toDate = some tt ∧
    tf.Before tt ∧ ctx.blockDay.Before tt ∧ ¬ (ctx.blockDay.addDate 2 0 0).Before tt
  enough : e.amount.amount ≤ A e.fromDate
  room : A e.toDate + e.amount.amount < intBound

def moveAmount (A : Bytes → ℤ) (e : Extension) : Bytes → ℤ := fun d =>
  A d - (if e.fromDate = d then e.amount.amount else 0) +
    if e.toDate = d then e.amount.amount else 0

def CanExtendAll (ctx : Ctx) : (Bytes → ℤ) → List Extension → Prop
  | _, [] => True
  | A, e :: es => CanExtend ctx A e ∧ CanExtendAll ctx (moveAmount A e) es

/-! ### Calls that return -/

section Calls

variable {st : LockStore} {L : Ledger} {D : AccAddress → Bytes → ℤ} {a : AccAddress}
  {d : Bytes} {t : Time} {x : ℤ}

theorem Encodes.storedAmount_eq (h : Encodes st L) (a : AccAddress) (d : Bytes) :
    storedAmount st a d = amountOn d (L a).locks := by
  simp only [storedAmount, h.getLocksByAddress a]

theorem Views.takeLock_ok (h : Views st L D) (hx : 0 < x) (hle : x ≤ amountOn d (L a).locks)
    (hlt : amountOn d (L a).locks < intBound) : ∃ st', Lockup.takeLock st a d x = .ok st' := by
  have hget := h.getLocksByAddress a
  obtain ⟨e, i, hf⟩ := (L a).found_of_amountOn (lt_of_lt_of_le hx hle)
  obtain ⟨hi, _⟩ := lookupFrom_zero hf
  rw [lookupFrom_amountOn (L a).wellFormed hf] at hle hlt
  unfold Lockup.takeLock
  rw [getLockByAddressAndDate_eq hget, hf]
  dsimp only
  rw [if_neg (not_lt.mpr hle)]
  by_cases heq : e.amount = x
  · rw [if_pos heq, deleteLockByAddressAndIndex_eq hget hi]
    exact ⟨_, rfl⟩
  · have hsub : intSub e.amount x = .ok (e.amount - x) :=
      (intSub_eq_ok _ _ _).mpr ⟨⟨by omega, by omega⟩, rfl⟩
    rw [if_neg heq, hsub, ok_bind, updateLockByAddressAndIndex_eq hget hi]
    exact ⟨_, rfl⟩

theorem Views.mergeLock_ok (h : Views st L D) (hx : 0 < x)
    (hlt : amountOn d (L a).locks + x < intBound) : ∃ st', Lockup.mergeLock st a d x = .ok st' := by
  have hget := h.getLocksByAddress a
  have hbound := intBound_pos
  unfold Lockup.mergeLock
  rw [getLockByAddressAndDate_eq hget]
  cases hf : lookupFrom Lock.unlockDate d 0 (L a).locks with
  | none =>
    dsimp only
    rw [setLockByAddress_eq hget]
    exact ⟨_, rfl⟩
  | some r =>
    obtain ⟨hi, _⟩ := lookupFrom_zero hf
    have hpos := (L a).wellFormed.positive _ (List.mem_of_getElem? hi)
    rw [lookupFrom_amountOn (L a).wellFormed hf] at hlt
    have hadd : intAdd r.1.amount x = .ok (r.1.amount + x) :=
      (intAdd_eq_ok _ _ _).mpr ⟨⟨by omega, hlt⟩, rfl⟩
    dsimp only
    rw [hadd, ok_bind, updateLockByAddressAndIndex_eq hget hi]
    exact ⟨_, rfl⟩

theorem Views.removeFromExpirationQueue_ok (h : Views st L D) (hd : parseDateOnly d = some t)
    (hx : 0 < x) (hle : x ≤ D a d) (hlt : D a d < intBound) :
    ∃ st', Lockup.removeFromExpirationQueue st t a x = .ok st' := by
  have h0 : D a d ≠ 0 := by omega
  have hsub : intSub (D a d) x = .ok (D a d - x) :=
    (intSub_eq_ok _ _ _).mpr ⟨⟨by omega, by omega⟩, rfl⟩
  simp only [Lockup.removeFromExpirationQueue, h.byDate d t a hd, if_neg h0, Value.unmarshalInt,
    ok_bind, failIf_of_not _ (not_lt.mpr hle), hsub]
  split_ifs
  · exact ⟨_, rfl⟩
  · exact ⟨_, rfl⟩

theorem Views.addToExpirationQueue_ok (h : Views st L D) (hd : parseDateOnly d = some t)
    (h0 : 0 ≤ D a d) (hx : 0 < x) (hlt : D a d + x < intBound) :
    ∃ st', Lockup.addToExpirationQueue st t a x = .ok st' := by
  have hbound := intBound_pos
  have hadd : intAdd (D a d) x = .ok (D a d + x) :=
    (intAdd_eq_ok _ _ _).mpr ⟨⟨by omega, hlt⟩, rfl⟩
  simp only [Lockup.addToExpirationQueue, h.byDate d t a hd]
  by_cases hz : D a d = 0
  · rw [hz] at hadd
    simp only [if_pos hz, ok_bind, hadd]
    exact ⟨_, rfl⟩
  · simp only [if_neg hz, Value.unmarshalInt, ok_bind, hadd]
    exact ⟨_, rfl⟩

/-- A stored amount is also in the queue, where it passed a range check. -/
theorem Within.amountOn_lt {n : ℤ} (hn : Within n st) (h : Encodes st L) (a : AccAddress)
    (d : Bytes) : amountOn d (L a).locks < intBound := by
  have hnn := amountOn_nonneg (L a).wellFormed d
  rcases lt_or_eq_of_le hnn with hpos | hzero
  · obtain ⟨e, i, hf⟩ := (L a).found_of_amountOn hpos
    obtain ⟨hi, hed⟩ := lookupFrom_zero hf
    obtain ⟨t, ht⟩ := (L a).wellFormed.parses e (List.mem_of_getElem? hi)
    rw [hed] at ht
    have hget := h.byDate d t a ht
    unfold Ledger.amounts at hget
    rw [if_neg (ne_of_gt hpos)] at hget
    rcases hn _ _ hget with ⟨b, l, _, hval, _⟩ | ⟨_, _, _, x, _, _, hval, hx⟩
    · cases hval
    · cases hval
      exact hx.2
  · rw [← hzero]
    exact intBound_pos

end Calls

/-! ### Extensions -/

section Extensions

variable {k : Keepers W} {ctx : Ctx} {st st' : LockStore} {w : W} {L : Ledger} {addr : AccAddress}
  {e : Extension}

theorem checkExtension_ok (hbond : k.bondDenom w = .ok e.amount.denom) {tf tt : Time}
    (hf : parseDateOnly e.fromDate = some tf) (ht : parseDateOnly e.toDate = some tt)
    (hlt : tf.Before tt) (hday : ctx.blockDay.Before tt)
    (hlimit : ¬ (ctx.blockDay.addDate 2 0 0).Before tt) :
    checkExtension k ctx w (some e) = .ok (e, tf, tt) := by
  have hafter : ¬ ¬ tt.After tf := not_not.mpr hlt
  have hfuture : ¬ (ctx.blockDay.After tt ∨ ctx.blockDay = tt) := by
    intro h
    unfold Time.Before at hday
    rcases h with h | h
    · exact absurd hday (lt_asymm h)
    · rw [h] at hday
      exact lt_irrefl _ hday
  simp only [checkExtension, hbond, ok_bind, deref, ofOption, failIf_of_not _ (not_not.mpr rfl), hf,
    ht, failIf_of_not _ hafter, failIf_of_not _ hfuture, failIf_of_not _ hlimit]

/-- The ledger after an extension, seen as amounts. -/
theorem amountOn_moved {tt : Time} (ht : parseDateOnly e.toDate = some tt)
    (hx : 0 < e.amount.amount) (hle : e.amount.amount ≤ amountOn e.fromDate (L addr).locks)
    (d : Bytes) :
    amountOn d (((L addr).sub e.fromDate e.amount.amount hx hle).add e.toDate e.amount.amount
      ht hx).locks = moveAmount (fun d => amountOn d (L addr).locks) e d := by
  rw [LockList.amountOn_add, LockList.amountOn_sub]
  rfl

/-- The store of the ledger `L` in which account `addr` has the amounts `A` instead. -/
def Holding (L : Ledger) (addr : AccAddress) (A : Bytes → ℤ) (st : LockStore) : Prop :=
  ∃ M : LockList, Encodes st (Function.update L addr M) ∧ ∀ d, amountOn d M.locks = A d

theorem Holding.unique {A : Bytes → ℤ} (h : Holding L addr A st) (h' : Holding L addr A st') :
    st = st' := by
  obtain ⟨M, hM, hA⟩ := h
  obtain ⟨M', hM', hA'⟩ := h'
  have hlocks : M.locks = M'.locks :=
    M.wellFormed.ext M'.wellFormed fun d => (hA d).trans (hA' d).symm
  have heq : M = M' := by
    cases M
    cases M'
    cases hlocks
    rfl
  rw [heq] at hM
  exact hM.unique hM'

theorem holding_update (L : Ledger) (addr : AccAddress) (M : LockList) (A : Bytes → ℤ)
    (st : LockStore) : Holding (Function.update L addr M) addr A st ↔ Holding L addr A st := by
  unfold Holding
  simp only [Function.update_idem]

theorem extendOne_canExtend {n : ℤ} (h : Encodes st L) (hlimit : ctx.blockTime.horizon ≤ n)
    (hn : Within n st) (hx : 0 < e.amount.amount)
    (hm : extendOne k ctx w addr st (some e) = .ok st') :
    CanExtend ctx (fun d => amountOn d (L addr).locks) e ∧
      Holding L addr (moveAmount (fun d => amountOn d (L addr).locks) e) st' := by
  obtain ⟨e', tf', tt', _, _, _, he, hf', ht', _, hday', _⟩ := extendOne_ok k hm
  cases he
  obtain ⟨tf, tt, hf, ht, hle, hlt, hday, hL'⟩ := extendOne_encodes h hx hm
  have htt : tt = tt' := Option.some.inj (ht.symm.trans ht')
  rw [← htt] at hday'
  have hmoved : ∀ d, amountOn d (((L addr).sub e.fromDate e.amount.amount hx hle).add e.toDate
      e.amount.amount ht hx).locks = moveAmount (fun d => amountOn d (L addr).locks) e d :=
    amountOn_moved ht hx hle
  refine ⟨⟨⟨tf, tt, hf, ht, ?_, ?_, ?_⟩, hle, ?_⟩, _, hL', hmoved⟩
  · exact (parseDateOnly_before_iff hf ht).mpr hlt
  · rw [Ctx.blockDay_eq, parseDateOnly_ofDay ht, Time.before_ofDay]
    exact hday
  · rw [Ctx.blockDay_addDate, parseDateOnly_ofDay ht, Time.before_ofDay]
    exact not_lt.mpr hday'.2
  · -- the amount under the later date is stored now, so it is in range
    have hroom := (extendOne_within hlimit hn hm).amountOn_lt hL' addr e.toDate
    rw [Function.update_self] at hroom
    have hne := parseDateOnly_ne hf ht hlt
    have hval := hmoved e.toDate
    simp only [moveAmount, if_neg hne, if_true, sub_zero] at hval
    rw [← hval]
    exact hroom

theorem CanExtend.fromDate_ne {A : Bytes → ℤ} (h : CanExtend ctx A e) : e.fromDate ≠ e.toDate := by
  obtain ⟨tf, tt, hf, ht, hlt, _⟩ := h.dates
  exact parseDateOnly_ne hf ht ((parseDateOnly_before_iff hf ht).mp hlt)

theorem CanExtend.extendOne_ok {n : ℤ} (h : Encodes st L) (hn : Within n st)
    (hx : 0 < e.amount.amount) (hbond : k.bondDenom w = .ok e.amount.denom)
    (hcan : CanExtend ctx (fun d => amountOn d (L addr).locks) e) :
    ∃ st', extendOne k ctx w addr st (some e) = .ok st' := by
  obtain ⟨tf, tt, hf, ht, hlt, hday, hlimit⟩ := hcan.dates
  have hle := hcan.enough
  have hroom := hcan.room
  have hfromLt := hn.amountOn_lt h addr e.fromDate
  have hne := hcan.fromDate_ne
  obtain ⟨st₁, h₁⟩ := Views.takeLock_ok h hx hle hfromLt
  obtain ⟨hle', hv₁⟩ := Views.takeLock h hx h₁
  have hroom₁ : amountOn e.toDate (Function.update L addr
      ((L addr).sub e.fromDate e.amount.amount hx hle') addr).locks + e.amount.amount < intBound := by
    rw [Function.update_self, LockList.amountOn_sub, if_neg hne, sub_zero]
    exact hroom
  obtain ⟨st₂, h₂⟩ := hv₁.mergeLock_ok hx hroom₁
  have hv₂ := hv₁.mergeLock ht hx h₂
  obtain ⟨st₃, h₃⟩ := hv₂.removeFromExpirationQueue_ok hf hx hle hfromLt
  have hv₃ := hv₂.removeFromExpirationQueue hf hx hle h₃
  have hqueue : addAmount L.amounts addr e.fromDate (-e.amount.amount) addr e.toDate =
      amountOn e.toDate (L addr).locks := by
    simp [addAmount, Ledger.amounts, hne.symm]
  obtain ⟨st₄, h₄⟩ := hv₃.addToExpirationQueue_ok ht
    (by rw [hqueue]; exact amountOn_nonneg (L addr).wellFormed _) hx (by rw [hqueue]; exact hroom)
  refine ⟨st₄, ?_⟩
  simp only [extendOne, checkExtension_ok hbond hf ht hlt hday hlimit, ok_bind, h₁, h₂, h₃, h₄]

section Rounds

variable {n : ℤ} {es : List Extension}

theorem extensions_ok (h : Encodes st L) (hlimit : ctx.blockTime.horizon ≤ n) (hn : Within n st)
    (hpos : ∀ e ∈ es, 0 < e.amount.amount)
    (hm : forRange (extendOne k ctx w addr) st (es.map some) = .ok st') :
    CanExtendAll ctx (fun d => amountOn d (L addr).locks) es ∧
      Holding L addr (es.foldl moveAmount fun d => amountOn d (L addr).locks) st' := by
  induction es generalizing st L with
  | nil =>
    cases hm
    exact ⟨trivial, L addr, by rwa [Function.update_eq_self], fun _ => rfl⟩
  | cons e es ih =>
    obtain ⟨hx, htail⟩ := List.forall_mem_cons.mp hpos
    rw [List.map_cons, forRange_cons, bind_eq_ok] at hm
    obtain ⟨st₁, hone, hrest⟩ := hm
    obtain ⟨hcan, M, hM, hmoved⟩ := extendOne_canExtend h hlimit hn hx hone
    obtain ⟨hall, hend⟩ := ih hM (extendOne_within hlimit hn hone) htail hrest
    rw [Function.update_self, funext hmoved] at hall hend
    exact ⟨⟨hcan, hall⟩, (holding_update L addr M _ st').mp hend⟩

theorem CanExtendAll.extensions_ok (h : Encodes st L) (hlimit : ctx.blockTime.horizon ≤ n)
    (hn : Within n st)
    (hes : ∀ e ∈ es, 0 < e.amount.amount ∧ k.bondDenom w = .ok e.amount.denom)
    (hcan : CanExtendAll ctx (fun d => amountOn d (L addr).locks) es) :
    ∃ st', forRange (extendOne k ctx w addr) st (es.map some) = .ok st' := by
  induction es generalizing st L with
  | nil => exact ⟨st, rfl⟩
  | cons e es ih =>
    obtain ⟨⟨hx, hbond⟩, htail⟩ := List.forall_mem_cons.mp hes
    obtain ⟨hcan, hall⟩ := hcan
    obtain ⟨st₁, hone⟩ := hcan.extendOne_ok h hn hx hbond
    obtain ⟨_, M, hM, hmoved⟩ := extendOne_canExtend h hlimit hn hx hone
    have hall' : CanExtendAll ctx (fun d => amountOn d (Function.update L addr M addr).locks) es := by
      rw [Function.update_self, funext hmoved]
      exact hall
    obtain ⟨st', hrest⟩ := ih hM (extendOne_within hlimit hn hone) htail hall'
    exact ⟨st', by rw [List.map_cons, forRange_cons, hone, ok_bind, hrest]⟩

/-- The rounds of `Extend` go through exactly when each extension can be made on the
amounts left by those before it. -/
theorem extensions_iff (h : Encodes st L) (hlimit : ctx.blockTime.horizon ≤ n) (hn : Within n st)
    (hes : ∀ e ∈ es, 0 < e.amount.amount ∧ k.bondDenom w = .ok e.amount.denom) :
    (∃ st', forRange (extendOne k ctx w addr) st (es.map some) = .ok st') ↔
      CanExtendAll ctx (fun d => amountOn d (L addr).locks) es := by
  constructor
  · rintro ⟨st', hm⟩
    exact (Lockup.extensions_ok h hlimit hn (fun e he => (hes e he).1) hm).1
  · exact CanExtendAll.extensions_ok h hlimit hn hes

/-- They then leave the store with all the extensions made. -/
theorem extensions_eq_ok_iff (h : Encodes st L) (hlimit : ctx.blockTime.horizon ≤ n)
    (hn : Within n st)
    (hes : ∀ e ∈ es, 0 < e.amount.amount ∧ k.bondDenom w = .ok e.amount.denom) :
    forRange (extendOne k ctx w addr) st (es.map some) = .ok st' ↔
      CanExtendAll ctx (fun d => amountOn d (L addr).locks) es ∧
        Holding L addr (es.foldl moveAmount fun d => amountOn d (L addr).locks) st' := by
  have hpos := fun e he => (hes e he).1
  constructor
  · exact Lockup.extensions_ok h hlimit hn hpos
  · rintro ⟨hall, hend⟩
    obtain ⟨st₁, hm⟩ := hall.extensions_ok h hlimit hn hes
    rw [hend.unique (Lockup.extensions_ok h hlimit hn hpos hm).2]
    exact hm

end Rounds
end Extensions
end Tsc.Lockup
