import Tsc.Kv.Store
import Mathlib.Algebra.BigOperators.Group.List.Basic
import Mathlib.Tactic

/-!
# Totals over a store

The sum of a quantity over all entries, and how one write or one deletion
changes it: by the new entry's quantity and by the old one's.
-/

namespace Tsc.Kv.Store

variable {K V M : Type} [LinearOrder K]

section Group
variable [AddCommGroup M]

def total (g : K → V → M) (s : Store K V) : M := (s.entries.map fun e => g e.1 e.2).sum

def share (g : K → V → M) (s : Store K V) (k : K) : M :=
  match s.get k with
  | none => 0
  | some v => g k v

theorem share_some (g : K → V → M) {s : Store K V} {k : K} {v : V} (h : s.get k = some v) :
    s.share g k = g k v := by
  unfold share
  rw [h]

theorem share_none (g : K → V → M) {s : Store K V} {k : K} (h : s.get k = none) :
    s.share g k = 0 := by
  unfold share
  rw [h]

theorem filter_eq (s : Store K V) (k : K) :
    (s.entries.filter fun e => e.1 = k) =
      match s.get k with
      | none => []
      | some v => [(k, v)] := by
  cases hg : s.get k with
  | none =>
    apply List.filter_eq_nil_iff.mpr
    intro e he hk
    have hke : e.1 = k := by simpa using hk
    have hget := (get_eq_some_iff s e.1 e.2).mpr he
    rw [hke, hg] at hget
    cases hget
  | some v =>
    have hmem : ∀ e, e ∈ (s.entries.filter fun e => e.1 = k) ↔ e ∈ [(k, v)] := by
      intro e
      rw [List.mem_filter, List.mem_singleton]
      constructor
      · intro h
        have hke : e.1 = k := by simpa using h.2
        have hget := (get_eq_some_iff s e.1 e.2).mpr h.1
        rw [hke, hg] at hget
        cases hget
        rw [← hke]
      · intro h
        rw [h]
        exact ⟨(get_eq_some_iff s k v).mp hg, by simp⟩
    have hp : (s.entries.filter fun e => e.1 = k).Perm [(k, v)] :=
      (List.perm_ext_iff_of_nodup ((s.ascending.filter _ _).nodup _) (by simp)).mpr hmem
    exact List.perm_singleton.mp hp

theorem total_split (g : K → V → M) (s : Store K V) (k : K) :
    s.total g = (s.delete k).total g + s.share g k := by
  have hp := List.filter_append_perm (fun e : K × V => decide (e.1 ≠ k)) s.entries
  have hneg : (s.entries.filter fun e => !decide (e.1 ≠ k)) =
      s.entries.filter fun e => e.1 = k := by
    apply List.filter_congr
    intro e _
    simp
  have hsum := ((hp.map fun e => g e.1 e.2).sum_eq).symm
  rw [List.map_append, List.sum_append, hneg, filter_eq] at hsum
  unfold total share delete
  rw [hsum]
  cases s.get k with
  | none => simp
  | some v => simp

theorem total_delete (g : K → V → M) (s : Store K V) (k : K) :
    (s.delete k).total g = s.total g - s.share g k := by
  rw [total_split g s k, add_sub_cancel_right]

theorem total_set (g : K → V → M) (s : Store K V) (k : K) (v : V) :
    (s.set k v).total g = s.total g - s.share g k + g k v := by
  have hp := insertBefore_perm Prod.fst (k, v) (s.entries.filter fun e => e.1 ≠ k)
  have hsum := (hp.map fun e => g e.1 e.2).sum_eq
  rw [List.map_cons, List.sum_cons] at hsum
  rw [← total_delete]
  unfold total delete set
  rw [hsum, add_comm]

theorem total_congr {g g' : K → V → M} {s : Store K V}
    (h : ∀ k v, s.get k = some v → g k v = g' k v) : s.total g = s.total g' := by
  unfold total
  congr 1
  apply List.map_congr_left
  intro e he
  exact h e.1 e.2 ((get_eq_some_iff s e.1 e.2).mpr he)

theorem total_zero (s : Store K V) : (s.total fun _ _ => (0 : M)) = 0 := by
  unfold total
  apply List.sum_eq_zero
  intro x hx
  obtain ⟨_, _, rfl⟩ := List.mem_map.mp hx
  rfl

/-- A quantity that is zero off one key. -/
theorem total_at {g : K → V → M} {k : K} (h : ∀ k' v, k' ≠ k → g k' v = 0) (s : Store K V) :
    s.total g = s.share g k := by
  have hrest : (s.delete k).total g = 0 := by
    refine Eq.trans (total_congr ?_) (total_zero (s.delete k))
    intro k' v hk'
    rw [get_delete] at hk'
    split_ifs at hk' with hne
    exact h k' v hne
  rw [total_split g s k, hrest, zero_add]

theorem total_comm {K' V' : Type} [LinearOrder K'] (s : Store K V) (s' : Store K' V')
    (g : K → V → K' → V' → M) :
    (s.total fun k v => s'.total (g k v)) = s'.total fun k' v' => s.total fun k v => g k v k' v' := by
  have hswap := Multiset.sum_map_sum_map (f := fun (e : K × V) (e' : K' × V') => g e.1 e.2 e'.1 e'.2)
    (s.entries : Multiset (K × V)) (s'.entries : Multiset (K' × V'))
  unfold total
  simpa only [Multiset.map_coe, Multiset.sum_coe] using hswap

theorem total_finset_sum {ι : Type} (is : Finset ι) (g : ι → K → V → M) (s : Store K V) :
    ∑ i ∈ is, s.total (g i) = s.total fun k v => ∑ i ∈ is, g i k v := by
  unfold total
  induction s.entries with
  | nil => simp
  | cons e l ih => simp only [List.map_cons, List.sum_cons, Finset.sum_add_distrib, ih]

end Group

section Order
variable [AddCommGroup M] [PartialOrder M] [IsOrderedAddMonoid M]

theorem total_nonneg {g : K → V → M} {s : Store K V}
    (h : ∀ k v, s.get k = some v → 0 ≤ g k v) : 0 ≤ s.total g := by
  apply List.sum_nonneg
  intro x hx
  obtain ⟨e, he, hex⟩ := List.mem_map.mp hx
  rw [← hex]
  exact h e.1 e.2 ((get_eq_some_iff s e.1 e.2).mpr he)

theorem total_le_total {g g' : K → V → M} {s : Store K V}
    (h : ∀ k v, s.get k = some v → g k v ≤ g' k v) : s.total g ≤ s.total g' := by
  apply List.sum_le_sum
  intro e he
  exact h e.1 e.2 ((get_eq_some_iff s e.1 e.2).mpr he)

theorem le_total {g : K → V → M} {s : Store K V} (h : ∀ k v, s.get k = some v → 0 ≤ g k v)
    {k : K} {v : V} (hk : s.get k = some v) : g k v ≤ s.total g := by
  rw [total_split g s k, share_some g hk]
  apply le_add_of_nonneg_left
  apply total_nonneg
  intro k' v' hk'
  rw [get_delete] at hk'
  split_ifs at hk'
  exact h k' v' hk'

theorem sum_share_le_total {g : K → V → M} {s : Store K V}
    (h : ∀ k v, s.get k = some v → 0 ≤ g k v) {ks : List K} (hks : ks.Nodup) :
    (ks.map (s.share g)).sum ≤ s.total g := by
  induction ks generalizing s with
  | nil => exact total_nonneg h
  | cons k ks ih =>
    obtain ⟨hk, hnd⟩ := List.nodup_cons.mp hks
    have hdel : ∀ k' v', (s.delete k).get k' = some v' → 0 ≤ g k' v' := by
      intro k' v' hk'
      rw [get_delete] at hk'
      split_ifs at hk'
      exact h k' v' hk'
    have hmap : ks.map ((s.delete k).share g) = ks.map (s.share g) := by
      apply List.map_congr_left
      intro k' hk'
      have hne : k' ≠ k := by
        intro he
        rw [he] at hk'
        exact hk hk'
      unfold share
      rw [get_delete, if_neg hne]
    have hrest := ih hdel hnd
    rw [hmap] at hrest
    rw [List.map_cons, List.sum_cons, total_split g s k, add_comm]
    exact add_le_add_left hrest _

end Order
end Tsc.Kv.Store
