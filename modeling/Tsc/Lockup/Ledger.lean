import Tsc.Lockup.LockList
import Mathlib.Logic.Relation

/-!
# The ledger of locks

What the module keeps, apart from its stores: a lock list for every account.
There are two moves, at a block day `n`: a new amount is locked until a later
day, or an amount locked until one day is put off to a later day. No move takes
an amount away from a day without giving it to a later one.
-/

namespace Tsc.Lockup

open Go Sdk Kv

abbrev Ledger := AccAddress → LockList

namespace LockList

def empty : LockList := ⟨[], wellFormed_nil⟩

def add (L : LockList) (d : Bytes) (x : ℤ) {t : Time} (hd : parseDateOnly d = some t)
    (hx : 0 < x) : LockList := ⟨addLocks d x L.locks, wellFormed_addLocks L.wellFormed hd hx⟩

theorem found_of_amountOn (L : LockList) {d : Bytes} (h : 0 < amountOn d L.locks) :
    ∃ e i, lookupFrom Lock.unlockDate d 0 L.locks = some (e, i) := by
  cases hf : lookupFrom Lock.unlockDate d 0 L.locks with
  | some r => exact ⟨r.1, r.2, rfl⟩
  | none =>
    rw [lookupFrom_eq_none_iff, ← lookup_eq_none_iff] at hf
    unfold amountOn amountAt at h
    rw [hf] at h
    exact absurd h (lt_irrefl 0)

theorem wellFormed_sub (L : LockList) {d : Bytes} {x : ℤ} (hx : 0 < x)
    (hle : x ≤ amountOn d L.locks) : WellFormed (subLocks d x L.locks) := by
  obtain ⟨e, i, hf⟩ := L.found_of_amountOn (lt_of_lt_of_le hx hle)
  rw [lookupFrom_amountOn L.wellFormed hf] at hle
  exact wellFormed_subLocks L.wellFormed hf hle

def sub (L : LockList) (d : Bytes) (x : ℤ) (hx : 0 < x) (hle : x ≤ amountOn d L.locks) :
    LockList := ⟨subLocks d x L.locks, L.wellFormed_sub hx hle⟩

theorem weigh_add (f : Bytes → ℤ) (L : LockList) {d : Bytes} {x : ℤ} {t : Time}
    (hd : parseDateOnly d = some t) (hx : 0 < x) :
    weighLocks f (L.add d x hd hx).locks = weighLocks f L.locks + f d * x :=
  weighLocks_addLocks f d x L.locks

theorem weigh_sub (f : Bytes → ℤ) (L : LockList) {d : Bytes} {x : ℤ} (hx : 0 < x)
    (hle : x ≤ amountOn d L.locks) :
    weighLocks f (L.sub d x hx hle).locks = weighLocks f L.locks - f d * x := by
  obtain ⟨e, i, hf⟩ := L.found_of_amountOn (lt_of_lt_of_le hx hle)
  exact weighLocks_subLocks f hf

theorem amountOn_add (L : LockList) {d : Bytes} {x : ℤ} {t : Time}
    (hd : parseDateOnly d = some t) (hx : 0 < x) (d' : Bytes) :
    amountOn d' (L.add d x hd hx).locks = amountOn d' L.locks + if d = d' then x else 0 :=
  amountOn_addLocks L.wellFormed hd hx d'

theorem amountOn_sub (L : LockList) {d : Bytes} {x : ℤ} (hx : 0 < x)
    (hle : x ≤ amountOn d L.locks) (d' : Bytes) :
    amountOn d' (L.sub d x hx hle).locks = amountOn d' L.locks - if d = d' then x else 0 := by
  obtain ⟨e, i, hf⟩ := L.found_of_amountOn (lt_of_lt_of_le hx hle)
  have hle' := hle
  rw [lookupFrom_amountOn L.wellFormed hf] at hle'
  exact amountOn_subLocks L.wellFormed hf hle' d'

end LockList

namespace Ledger

def empty : Ledger := fun _ => LockList.empty

/-- One move at block day `n`. -/
inductive Step (n : ℤ) : Ledger → Ledger → Prop
  | lock (L : Ledger) (a : AccAddress) (d : Bytes) (x : ℤ) (t : Time)
      (hd : parseDateOnly d = some t) (hx : 0 < x) (hn : n < t.dayNumber) :
      Step n L (Function.update L a ((L a).add d x hd hx))
  | move (L : Ledger) (a : AccAddress) (d d' : Bytes) (x : ℤ) (t t' : Time)
      (hd : parseDateOnly d = some t) (hd' : parseDateOnly d' = some t')
      (hlt : t.dayNumber < t'.dayNumber) (hn : n < t'.dayNumber) (hx : 0 < x)
      (hle : x ≤ amountOn d (L a).locks) :
      Step n L (Function.update L a (((L a).sub d x hx hle).add d' x hd' hx))

abbrev Steps (n : ℤ) : Ledger → Ledger → Prop := Relation.ReflTransGen (Step n)

/-- A weight that does not fall with the date never loses by a move. -/
theorem Step.weigh_le {n : ℤ} {L L' : Ledger} (h : Step n L L') (f : Bytes → ℤ)
    (hpos : ∀ d, 0 ≤ f d)
    (hmono : ∀ d d' t t', parseDateOnly d = some t → parseDateOnly d' = some t' →
      t.dayNumber < t'.dayNumber → f d ≤ f d') (a : AccAddress) :
    weighLocks f (L a).locks ≤ weighLocks f (L' a).locks := by
  cases h with
  | lock b d x t hd hx hn =>
    by_cases hab : a = b
    · rw [hab, Function.update_self, LockList.weigh_add]
      have hfx := mul_nonneg (hpos d) hx.le
      omega
    · rw [Function.update_of_ne hab]
  | move b d d' x t t' hd hd' hlt hn hx hle =>
    by_cases hab : a = b
    · rw [hab, Function.update_self, LockList.weigh_add, LockList.weigh_sub]
      have hfx := mul_le_mul_of_nonneg_right (hmono d d' t t' hd hd' hlt) hx.le
      omega
    · rw [Function.update_of_ne hab]

theorem Step.activeAfter_le {n : ℤ} {L L' : Ledger} (h : Step n L L') (a : AccAddress) (m : ℤ) :
    activeAfter m (L a).locks ≤ activeAfter m (L' a).locks := by
  rw [activeAfter_eq_weigh, activeAfter_eq_weigh]
  apply h.weigh_le
  · intro d
    split_ifs <;> omega
  · intro d d' t t' hd hd' hlt
    rw [dayOf_eq hd, dayOf_eq hd']
    split_ifs <;> omega

theorem Steps.activeAfter_le {n : ℤ} {L L' : Ledger} (h : Steps n L L') (a : AccAddress) (m : ℤ) :
    activeAfter m (L a).locks ≤ activeAfter m (L' a).locks := by
  induction h with
  | refl => exact le_refl _
  | tail _ hstep ih => exact ih.trans (hstep.activeAfter_le a m)

def After (n : ℤ) (L : Ledger) : Prop :=
  ∀ a d, 0 < amountOn d (L a).locks → n < dayOf d

theorem Step.after {m n : ℤ} (hmn : m ≤ n) {L L' : Ledger} (h : Step n L L') (hL : After m L) :
    After m L' := by
  intro a d hd
  cases h with
  | lock b d₁ x t hd₁ hx hn =>
    by_cases hab : a = b
    · rw [hab, Function.update_self, LockList.amountOn_add] at hd
      by_cases hdd : d₁ = d
      · rw [← hdd, dayOf_eq hd₁]
        omega
      · rw [if_neg hdd, add_zero] at hd
        exact hL b d hd
    · rw [Function.update_of_ne hab] at hd
      exact hL a d hd
  | move b d₁ d₂ x t t' hd₁ hd₂ hlt hn hx hle =>
    by_cases hab : a = b
    · rw [hab, Function.update_self, LockList.amountOn_add, LockList.amountOn_sub] at hd
      by_cases hdd : d₂ = d
      · rw [← hdd, dayOf_eq hd₂]
        omega
      · rw [if_neg hdd, add_zero] at hd
        apply hL b d
        split_ifs at hd <;> omega
    · rw [Function.update_of_ne hab] at hd
      exact hL a d hd

theorem Steps.after {m n : ℤ} (hmn : m ≤ n) {L L' : Ledger} (h : Steps n L L') (hL : After m L) :
    After m L' := by
  induction h with
  | refl => exact hL
  | tail _ hstep ih => exact hstep.after hmn ih

end Ledger
end Tsc.Lockup
