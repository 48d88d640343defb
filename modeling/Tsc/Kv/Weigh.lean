import Tsc.Kv.KeyedList
import Mathlib.Algebra.BigOperators.Group.List.Basic
import Mathlib.Tactic

/-!
# Weighted totals of keyed amounts

Elements carry a key and an amount; a weight on keys turns a list into one
number. A total over a range of keys and the amount under one key are both such
numbers, so what a list operation does to all of them is said once.
-/

namespace Tsc.Kv

variable {α K : Type} (key : α → K) (amount : α → ℤ)

def weigh (f : K → ℤ) (l : List α) : ℤ := (l.map fun a => f (key a) * amount a).sum

@[simp] theorem weigh_cons (f : K → ℤ) (a : α) (l : List α) :
    weigh key amount f (a :: l) = f (key a) * amount a + weigh key amount f l := by
  simp only [weigh, List.map_cons, List.sum_cons]

theorem weigh_perm (f : K → ℤ) {l l' : List α} (h : l.Perm l') :
    weigh key amount f l = weigh key amount f l' := (h.map _).sum_eq

theorem weigh_eraseIdx (f : K → ℤ) {l : List α} {n : ℕ} {a : α} (hn : l[n]? = some a) :
    weigh key amount f (l.eraseIdx n) = weigh key amount f l - f (key a) * amount a := by
  obtain ⟨hlt, hget⟩ := List.getElem?_eq_some_iff.mp hn
  have hp := weigh_perm key amount f (List.getElem_cons_eraseIdx_perm hlt)
  rw [weigh_cons, hget] at hp
  omega

theorem weigh_set (f : K → ℤ) {l : List α} {n : ℕ} {a : α} (hn : l[n]? = some a) (x : α) :
    weigh key amount f (l.set n x) =
      weigh key amount f l - f (key a) * amount a + f (key x) * amount x := by
  obtain ⟨hlt, _⟩ := List.getElem?_eq_some_iff.mp hn
  rw [weigh_perm key amount f (List.set_perm_cons_eraseIdx hlt x), weigh_cons,
    weigh_eraseIdx key amount f hn]
  ring

theorem weigh_nonneg {f : K → ℤ} {l : List α} (hf : ∀ k, 0 ≤ f k) (hl : ∀ a ∈ l, 0 ≤ amount a) :
    0 ≤ weigh key amount f l := by
  induction l with
  | nil => exact le_refl 0
  | cons a l ih =>
    rw [weigh_cons]
    have ha : 0 ≤ f (key a) * amount a := mul_nonneg (hf _) (hl a (List.mem_cons_self ..))
    have ht := ih fun b hb => hl b (List.mem_cons_of_mem _ hb)
    omega

theorem weigh_mono {f g : K → ℤ} {l : List α} (hfg : ∀ k, f k ≤ g k)
    (hl : ∀ a ∈ l, 0 ≤ amount a) : weigh key amount f l ≤ weigh key amount g l := by
  induction l with
  | nil => exact le_refl 0
  | cons a l ih =>
    rw [weigh_cons, weigh_cons]
    have ha : f (key a) * amount a ≤ g (key a) * amount a :=
      mul_le_mul_of_nonneg_right (hfg _) (hl a (List.mem_cons_self ..))
    have ht := ih fun b hb => hl b (List.mem_cons_of_mem _ hb)
    omega

theorem weigh_indicator (p : K → Prop) [DecidablePred p] (l : List α) :
    weigh key amount (fun k => if p k then 1 else 0) l =
      ((l.filter fun a => p (key a)).map amount).sum := by
  induction l with
  | nil => rfl
  | cons a l ih =>
    rw [weigh_cons, ih]
    by_cases hp : p (key a)
    · simp [hp]
    · simp [hp]

variable [LinearOrder K]

theorem weigh_insertBefore (f : K → ℤ) (x : α) (l : List α) :
    weigh key amount f (insertBefore key x l) = f (key x) * amount x + weigh key amount f l := by
  rw [weigh_perm key amount f (insertBefore_perm key x l), weigh_cons]

def amountAt (k : K) (l : List α) : ℤ := ((lookup key k l).map amount).getD 0

theorem amountAt_eq_weigh {l : List α} (h : Ascending key l) (k : K) :
    amountAt key amount k l = weigh key amount (fun k' => if k' = k then 1 else 0) l := by
  induction l with
  | nil => rfl
  | cons a l ih =>
    obtain ⟨ha, hl⟩ := (ascending_cons key a l).mp h
    rw [weigh_cons, ← ih hl]
    by_cases hk : key a = k
    · have hnone : lookup key k l = none := by
        rw [lookup_eq_none_iff]
        intro b hb he
        have hlt := ha b hb
        rw [hk, he] at hlt
        exact lt_irrefl _ hlt
      have htail : amountAt key amount k l = 0 := by
        unfold amountAt
        rw [hnone]
        rfl
      simp [amountAt, lookup, hk] at htail ⊢
      exact htail
    · simp [amountAt, lookup, hk]

end Tsc.Kv
