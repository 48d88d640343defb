import Tsc.Lockup.Ledger
import Tsc.Lockup.MsgServer

/-!
# The stores encode the ledger

A message updates the address index and the expiration queue by separate calls,
so between two calls they stand for different ledgers. `Views st L D` says what
each of them stands for: the lists `L` in the address index, the amounts `D` in
the queue. A message starts and ends with both the same, which is `Encodes`.
-/

namespace Tsc.Lockup

open Go Sdk Kv

structure Views (st : LockStore) (L : Ledger) (D : AccAddress → Bytes → ℤ) : Prop where
  byAddress : ∀ a, st.get (getLocksByAddressKey a) =
    if (L a).locks = [] then none else some (.locks (L a).locks)
  byDate : ∀ d t a, parseDateOnly d = some t →
    st.get (getLockExpirationKey t a) = if D a d = 0 then none else some (.amount (D a d))
  onlyKeys : ∀ key v, st.get key = some v → (∃ a, key = getLocksByAddressKey a) ∨
    ∃ d t a, parseDateOnly d = some t ∧ key = getLockExpirationKey t a

def Ledger.amounts (L : Ledger) : AccAddress → Bytes → ℤ := fun a d => amountOn d (L a).locks

def Encodes (st : LockStore) (L : Ledger) : Prop := Views st L L.amounts

theorem encodes_empty : Encodes Store.empty Ledger.empty := by
  refine ⟨?_, ?_, ?_⟩
  · intro a
    rfl
  · intro d t a _
    rfl
  · intro key v h
    cases h

def addAmount (D : AccAddress → Bytes → ℤ) (a : AccAddress) (d : Bytes) (x : ℤ) :
    AccAddress → Bytes → ℤ := fun a' d' => D a' d' + if a' = a ∧ d' = d then x else 0

section Views

variable {st st' : LockStore} {L : Ledger} {D : AccAddress → Bytes → ℤ} {a : AccAddress}
  {d : Bytes} {t : Time} {x : ℤ}

theorem Views.getLocksByAddress (h : Views st L D) (a : AccAddress) :
    getLocksByAddress st a = .ok (L a).locks := by
  unfold Lockup.getLocksByAddress
  rw [h.byAddress a]
  by_cases hl : (L a).locks = []
  · rw [if_pos hl, hl]
  · rw [if_neg hl]
    rfl

/-! ### Address index -/

theorem Views.setLocksByAddress (h : Views st L D) (a : AccAddress) (M : LockList) :
    Views (setLocksByAddress st a M.locks) (Function.update L a M) D := by
  refine ⟨?_, ?_, ?_⟩
  · intro b
    by_cases hb : b = a
    · rw [hb, setLocksByAddress_get_self, Function.update_self]
    · have hne : getLocksByAddressKey b ≠ getLocksByAddressKey a := by
        intro he
        exact hb (getLocksByAddressKey_injective he)
      rw [setLocksByAddress_get _ _ _ _ hne, Function.update_of_ne hb]
      exact h.byAddress b
  · intro d t b hd
    rw [setLocksByAddress_get _ _ _ _ (addressKey_ne_dateKey a b t).symm]
    exact h.byDate d t b hd
  · intro key v hk
    by_cases hkey : key = getLocksByAddressKey a
    · exact Or.inl ⟨a, hkey⟩
    · rw [setLocksByAddress_get _ _ _ _ hkey] at hk
      exact h.onlyKeys key v hk

theorem Views.mergeLock (h : Views st L D) (hd : parseDateOnly d = some t) (hx : 0 < x)
    (hm : mergeLock st a d x = .ok st') :
    Views st' (Function.update L a ((L a).add d x hd hx)) D := by
  obtain ⟨l, hget, rfl⟩ := mergeLock_ok hm
  rw [h.getLocksByAddress a] at hget
  cases hget
  exact h.setLocksByAddress a ((L a).add d x hd hx)

theorem Views.takeLock (h : Views st L D) (hx : 0 < x) (ht : takeLock st a d x = .ok st') :
    ∃ hle : x ≤ amountOn d (L a).locks,
      Views st' (Function.update L a ((L a).sub d x hx hle)) D := by
  obtain ⟨l, e, i, hget, hf, hxe, rfl⟩ := takeLock_ok ht
  rw [h.getLocksByAddress a] at hget
  cases hget
  have hle : x ≤ amountOn d (L a).locks := by
    rw [lookupFrom_amountOn (L a).wellFormed hf]
    exact hxe
  exact ⟨hle, h.setLocksByAddress a ((L a).sub d x hx hle)⟩

/-! ### Expiration queue -/

theorem Views.setDate (h : Views st L D) (hd : parseDateOnly d = some t)
    (hself : st'.get (getLockExpirationKey t a) =
      if D a d + x = 0 then none else some (.amount (D a d + x)))
    (hother : ∀ key, key ≠ getLockExpirationKey t a → st'.get key = st.get key) :
    Views st' L (addAmount D a d x) := by
  refine ⟨?_, ?_, ?_⟩
  · intro b
    rw [hother _ (addressKey_ne_dateKey b a t)]
    exact h.byAddress b
  · intro d' t' b hd'
    by_cases hkey : getLockExpirationKey t' b = getLockExpirationKey t a
    · obtain ⟨hdd, hba⟩ := getLockExpirationKey_injective hd' hd hkey
      rw [hkey, hself]
      simp only [addAmount, hdd, hba, and_self, if_true]
    · have hne : ¬ (b = a ∧ d' = d) := by
        intro hboth
        obtain ⟨hba, hdd⟩ := hboth
        rw [hdd, hd] at hd'
        cases hd'
        exact hkey (by rw [hba])
      rw [hother _ hkey, h.byDate d' t' b hd']
      simp only [addAmount, if_neg hne, add_zero]
  · intro key v hk
    by_cases hkey : key = getLockExpirationKey t a
    · exact Or.inr ⟨d, t, a, hd, hkey⟩
    · rw [hother _ hkey] at hk
      exact h.onlyKeys key v hk

theorem Views.addToExpirationQueue (h : Views st L D) (hd : parseDateOnly d = some t)
    (hpos : 0 < D a d + x) (hq : addToExpirationQueue st t a x = .ok st') :
    Views st' L (addAmount D a d x) := by
  have hne : D a d + x ≠ 0 := by omega
  have hst : st' = st.set (getLockExpirationKey t a) (.amount (D a d + x)) := by
    unfold Lockup.addToExpirationQueue at hq
    dsimp only at hq
    rw [h.byDate d t a hd] at hq
    by_cases h0 : D a d = 0
    · simp only [if_pos h0, bind_eq_ok, ok_bind, intAdd_eq_ok] at hq
      obtain ⟨y, ⟨_, hy⟩, hq⟩ := hq
      cases hq
      rw [hy, h0]
    · simp only [if_neg h0, Value.unmarshalInt, bind_eq_ok, ok_bind, intAdd_eq_ok] at hq
      obtain ⟨y, ⟨_, hy⟩, hq⟩ := hq
      cases hq
      rw [hy]
  rw [hst]
  apply h.setDate hd
  · rw [Store.get_set, if_pos rfl, if_neg hne]
  · intro key hkey
    rw [Store.get_set, if_neg hkey]

/-- With at least the removed amount in the queue, neither the missing-entry nor
the insufficient-amount branch is taken. -/
theorem Views.removeFromExpirationQueue (h : Views st L D) (hd : parseDateOnly d = some t)
    (hx : 0 < x) (hle : x ≤ D a d) (hq : removeFromExpirationQueue st t a x = .ok st') :
    Views st' L (addAmount D a d (-x)) := by
  have h0 : D a d ≠ 0 := by omega
  unfold Lockup.removeFromExpirationQueue at hq
  simp only [h.byDate d t a hd, if_neg h0, Value.unmarshalInt, ok_bind, bind_eq_ok, intSub_eq_ok]
    at hq
  obtain ⟨_, _, y, ⟨_, hy⟩, hq⟩ := hq
  have hsum : D a d + -x = y := by omega
  by_cases hzero : y = 0
  · rw [if_pos hzero] at hq
    cases hq
    apply h.setDate hd
    · rw [Store.get_delete, if_pos rfl, hsum, if_pos hzero]
    · intro key hkey
      rw [Store.get_delete, if_neg hkey]
  · rw [if_neg hzero] at hq
    cases hq
    apply h.setDate hd
    · rw [Store.get_set, if_pos rfl, hsum, if_neg hzero]
    · intro key hkey
      rw [Store.get_set, if_neg hkey]

theorem Views.encodes (h : Views st L D) (hD : ∀ a d, D a d = amountOn d (L a).locks) :
    Encodes st L := by
  have heq : D = L.amounts := by
    funext a d
    exact hD a d
  rw [heq] at h
  exact h

/-- A ledger has one store. -/
theorem Encodes.unique (h : Encodes st L) (h' : Encodes st' L) : st = st' := by
  have hone : ∀ {s s' : LockStore}, Encodes s L → Encodes s' L → ∀ key v,
      s.get key = some v → s'.get key = some v := by
    intro s s' hs hs' key v hv
    rcases hs.onlyKeys key v hv with ⟨a, hkey⟩ | ⟨d, t, a, hd, hkey⟩
    · rw [hkey, hs.byAddress] at hv
      rw [hkey, hs'.byAddress, hv]
    · rw [hkey, hs.byDate d t a hd] at hv
      rw [hkey, hs'.byDate d t a hd, hv]
  apply Store.ext_get
  intro key
  apply Option.ext
  intro v
  exact ⟨hone h h' key v, hone h' h key v⟩

end Views
end Tsc.Lockup
