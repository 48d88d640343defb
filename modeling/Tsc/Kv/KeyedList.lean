import Mathlib.Data.List.Pairwise
import Mathlib.Data.List.Nodup
import Mathlib.Order.Lattice
import Mathlib.Data.List.Lex
import Mathlib.Data.List.Perm.Basic

/-!
# Lists kept in strictly ascending key order

A list whose elements carry a key in a linear order, kept strictly ascending by
key. Such a list is a finite map: the first element found under a key is the
only one, insertion in front of the first larger key keeps the order, and two
ascending lists that answer every lookup alike are the same list.
-/

namespace Tsc.Kv

variable {α K : Type} [LinearOrder K] (key : α → K)

def Ascending (l : List α) : Prop := l.Pairwise fun a b => key a < key b

def lookup (k : K) (l : List α) : Option α := l.find? fun a => key a = k

/-- First element under key `k` together with its index, counted from `i`. -/
def lookupFrom (k : K) : ℕ → List α → Option (α × ℕ)
  | _, [] => none
  | i, a :: l => if key a = k then some (a, i) else lookupFrom k (i + 1) l

/-- Insertion in front of the first element with a larger key. -/
def insertBefore (x : α) : List α → List α
  | [] => [x]
  | a :: l => if key x < key a then x :: a :: l else a :: insertBefore x l

theorem ascending_nil : Ascending key ([] : List α) := List.Pairwise.nil

theorem ascending_cons (a : α) (l : List α) :
    Ascending key (a :: l) ↔ (∀ b ∈ l, key a < key b) ∧ Ascending key l :=
  List.pairwise_cons

theorem Ascending.sublist {l l' : List α} (h : Ascending key l) (hs : l'.Sublist l) :
    Ascending key l' := List.Pairwise.sublist hs h

theorem Ascending.filter {l : List α} (h : Ascending key l) (p : α → Bool) :
    Ascending key (l.filter p) := h.sublist key List.filter_sublist

theorem Ascending.eraseIdx {l : List α} (h : Ascending key l) (i : ℕ) :
    Ascending key (l.eraseIdx i) := h.sublist key (List.eraseIdx_sublist l i)

theorem Ascending.nodup {l : List α} (h : Ascending key l) : l.Nodup :=
  List.Pairwise.imp (fun {a b} hab he => by rw [he] at hab; exact lt_irrefl _ hab) h

theorem Ascending.eq_of_key_eq {l : List α} (h : Ascending key l) {a b : α}
    (ha : a ∈ l) (hb : b ∈ l) (hk : key a = key b) : a = b := by
  by_contra hne
  have hlt : key a < key b ∨ key b < key a := by
    induction l with
    | nil => cases ha
    | cons c l ih =>
      obtain ⟨hc, hl⟩ := (ascending_cons key c l).mp h
      rcases List.mem_cons.mp ha with hac | ha' <;> rcases List.mem_cons.mp hb with hbc | hb'
      · exact absurd (hac.trans hbc.symm) hne
      · subst hac
        exact Or.inl (hc b hb')
      · subst hbc
        exact Or.inr (hc a ha')
      · exact ih hl ha' hb'
  rcases hlt with hlt | hlt
  · exact absurd hk (ne_of_lt hlt)
  · exact absurd hk.symm (ne_of_lt hlt)

/-- Two ascending lists with the same elements are the same list. -/
theorem Ascending.ext {l l' : List α} (h : Ascending key l) (h' : Ascending key l')
    (hmem : ∀ a, a ∈ l ↔ a ∈ l') : l = l' := by
  have hp : l.Perm l' := (List.perm_ext_iff_of_nodup (h.nodup key) (h'.nodup key)).mpr hmem
  apply hp.eq_of_pairwise _ h h'
  intro a b _ _ hab hba
  exact absurd hba (lt_asymm hab)

/-! ### Lookup -/

theorem lookup_eq_none_iff (k : K) (l : List α) :
    lookup key k l = none ↔ ∀ a ∈ l, key a ≠ k := by
  simp only [lookup, List.find?_eq_none, decide_eq_true_eq, ne_eq]

theorem lookup_mem {k : K} {l : List α} {a : α} (h : lookup key k l = some a) :
    a ∈ l ∧ key a = k :=
  ⟨List.mem_of_find?_eq_some h, by simpa using List.find?_some h⟩

theorem lookup_eq_some_iff {l : List α} (h : Ascending key l) (k : K) (a : α) :
    lookup key k l = some a ↔ a ∈ l ∧ key a = k := by
  constructor
  · exact lookup_mem key
  · rintro ⟨ha, hk⟩
    cases hl : lookup key k l with
    | none => exact absurd hk ((lookup_eq_none_iff key k l).mp hl a ha)
    | some b =>
      obtain ⟨hb, hbk⟩ := lookup_mem key hl
      rw [h.eq_of_key_eq key hb ha (hbk.trans hk.symm)]

theorem lookupFrom_eq_none_iff (k : K) (i : ℕ) (l : List α) :
    lookupFrom key k i l = none ↔ ∀ a ∈ l, key a ≠ k := by
  induction l generalizing i with
  | nil => simp [lookupFrom]
  | cons a l ih =>
    simp only [lookupFrom, List.forall_mem_cons]
    split_ifs with hk
    · simp [hk]
    · simp [hk, ih]

theorem lookupFrom_eq_some {k : K} {i j : ℕ} {l : List α} {a : α}
    (h : lookupFrom key k i l = some (a, j)) :
    ∃ n, j = i + n ∧ l[n]? = some a ∧ key a = k := by
  induction l generalizing i with
  | nil => simp [lookupFrom] at h
  | cons b l ih =>
    simp only [lookupFrom] at h
    split_ifs at h with hk
    · simp only [Option.some.injEq, Prod.mk.injEq] at h
      exact ⟨0, by omega, by simp [h.1], by rw [← h.1]; exact hk⟩
    · obtain ⟨n, hj, hn, ha⟩ := ih h
      exact ⟨n + 1, by omega, by simpa using hn, ha⟩

/-! ### Insertion -/

theorem insertBefore_perm (x : α) (l : List α) : (insertBefore key x l).Perm (x :: l) := by
  induction l with
  | nil => exact List.Perm.refl _
  | cons a l ih =>
    simp only [insertBefore]
    split_ifs
    · exact List.Perm.refl _
    · exact (ih.cons a).trans (List.Perm.swap x a l)

theorem mem_insertBefore (x a : α) (l : List α) :
    a ∈ insertBefore key x l ↔ a = x ∨ a ∈ l := by
  rw [(insertBefore_perm key x l).mem_iff, List.mem_cons]

theorem insertBefore_ascending (x : α) {l : List α} (h : Ascending key l)
    (hx : ∀ a ∈ l, key a ≠ key x) : Ascending key (insertBefore key x l) := by
  induction l with
  | nil => exact List.pairwise_singleton _ _
  | cons a l ih =>
    obtain ⟨ha, hl⟩ := (ascending_cons key a l).mp h
    simp only [insertBefore]
    split_ifs with hlt
    · refine (ascending_cons key x (a :: l)).mpr ⟨?_, h⟩
      intro b hb
      rcases List.mem_cons.mp hb with rfl | hb
      · exact hlt
      · exact hlt.trans (ha b hb)
    · have hax : key a < key x :=
        lt_of_le_of_ne (not_lt.mp hlt) (hx a (List.mem_cons_self ..))
      refine (ascending_cons key a _).mpr ⟨?_, ih hl fun b hb => hx b (List.mem_cons_of_mem _ hb)⟩
      intro b hb
      rcases (mem_insertBefore key x b l).mp hb with rfl | hb
      · exact hax
      · exact ha b hb

theorem insertBefore_comm {x y : α} (hxy : key x ≠ key y) (l : List α) :
    insertBefore key x (insertBefore key y l) = insertBefore key y (insertBefore key x l) := by
  induction l with
  | nil =>
    rcases lt_or_gt_of_ne hxy with hlt | hlt
    · simp [insertBefore, hlt, lt_asymm hlt]
    · simp [insertBefore, hlt, lt_asymm hlt]
  | cons a l ih =>
    by_cases hx : key x < key a <;> by_cases hy : key y < key a
    · rcases lt_or_gt_of_ne hxy with hlt | hlt
      · simp [insertBefore, hx, hy, hlt, lt_asymm hlt]
      · simp [insertBefore, hx, hy, hlt, lt_asymm hlt]
    · have hlt : key x < key y := lt_of_lt_of_le hx (not_lt.mp hy)
      simp [insertBefore, hx, hy, lt_asymm hlt]
    · have hlt : key y < key x := lt_of_lt_of_le hy (not_lt.mp hx)
      simp [insertBefore, hx, hy, lt_asymm hlt]
    · simp [insertBefore, hx, hy, ih]

/-! ### Update of the first element under a key -/

def updateFirst (k : K) (g : α → α) : List α → List α
  | [] => []
  | a :: l => if key a = k then g a :: l else a :: updateFirst k g l

theorem set_lookupFrom (g : α → α) {k : K} {i j : ℕ} {l : List α} {a : α}
    (h : lookupFrom key k i l = some (a, j)) : l.set (j - i) (g a) = updateFirst key k g l := by
  induction l generalizing i with
  | nil => cases h
  | cons b l ih =>
    simp only [lookupFrom] at h
    simp only [updateFirst]
    split_ifs at h ⊢ with hk
    · simp only [Option.some.injEq, Prod.mk.injEq] at h
      obtain ⟨rfl, rfl⟩ := h
      rw [Nat.sub_self]
      rfl
    · obtain ⟨n, hj, _⟩ := lookupFrom_eq_some key h
      have hidx : j - i = j - (i + 1) + 1 := by omega
      rw [hidx, List.set_cons_succ, ih h]

section UpdateFirst

variable {k k' : K} {g g' : α → α} (hg : ∀ a, key (g a) = key a) (hg' : ∀ a, key (g' a) = key a)

include hg in
theorem map_key_updateFirst (l : List α) : (updateFirst key k g l).map key = l.map key := by
  induction l with
  | nil => rfl
  | cons a l ih =>
    simp only [updateFirst]
    split_ifs
    · rw [List.map_cons, List.map_cons, hg]
    · rw [List.map_cons, List.map_cons, ih]

include hg in
theorem updateFirst_updateFirst (l : List α) :
    updateFirst key k g' (updateFirst key k g l) = updateFirst key k (g' ∘ g) l := by
  induction l with
  | nil => rfl
  | cons a l ih =>
    by_cases hk : key a = k
    · simp [updateFirst, hk, hg]
    · simp [updateFirst, hk, ih]

include hg hg' in
theorem updateFirst_comm (hk : k ≠ k') (l : List α) :
    updateFirst key k g (updateFirst key k' g' l) = updateFirst key k' g' (updateFirst key k g l) := by
  induction l with
  | nil => rfl
  | cons a l ih =>
    by_cases ha : key a = k
    · simp [updateFirst, ha, hg, hk]
    · by_cases ha' : key a = k'
      · simp [updateFirst, ha', hg', hk.symm]
      · simp [updateFirst, ha, ha', ih]

include hg in
theorem updateFirst_insertBefore {x : α} (hx : key x ≠ k) (l : List α) :
    updateFirst key k g (insertBefore key x l) = insertBefore key x (updateFirst key k g l) := by
  induction l with
  | nil => simp [insertBefore, updateFirst, hx]
  | cons a l ih =>
    by_cases ha : key a = k <;> by_cases hlt : key x < key a
    · simp [insertBefore, updateFirst, hx, ha, hg, ha ▸ hlt]
    · simp [insertBefore, updateFirst, ha, hg, ha ▸ hlt]
    · simp [insertBefore, updateFirst, hx, ha, hlt]
    · simp [insertBefore, updateFirst, ha, hlt, ih]

include hg in
theorem updateFirst_insertBefore_self {x : α} {l : List α} (hl : ∀ a ∈ l, key a ≠ key x) :
    updateFirst key (key x) g (insertBefore key x l) = insertBefore key (g x) l := by
  induction l with
  | nil => simp [insertBefore, updateFirst]
  | cons a l ih =>
    obtain ⟨ha, hl⟩ := List.forall_mem_cons.mp hl
    by_cases hlt : key x < key a
    · simp [insertBefore, updateFirst, hg, hlt]
    · simp [insertBefore, updateFirst, hg, hlt, ha, ih hl]

end UpdateFirst

/-! ### Replacement and removal at an index -/

theorem Ascending.set {l : List α} (h : Ascending key l) {n : ℕ} {a x : α}
    (hn : l[n]? = some a) (hk : key x = key a) : Ascending key (l.set n x) := by
  obtain ⟨hlt, hget⟩ := List.getElem?_eq_some_iff.mp hn
  have hmap : (l.set n x).map key = l.map key := by
    have hkey : key x = (l.map key).get ⟨n, by simpa using hlt⟩ := by
      simp [hget, hk]
    rw [List.map_set, hkey]
    exact List.set_getElem_self _
  have hp : (l.map key).Pairwise (· < ·) := List.pairwise_map.mpr h
  rw [← hmap] at hp
  exact List.pairwise_map.mp hp

theorem Ascending.mem_eraseIdx {l : List α} (h : Ascending key l) {n : ℕ} {a b : α}
    (hn : l[n]? = some a) : b ∈ l.eraseIdx n ↔ b ∈ l ∧ b ≠ a := by
  obtain ⟨hlt, hget⟩ := List.getElem?_eq_some_iff.mp hn
  have hp : l.Perm (a :: l.eraseIdx n) := by
    rw [← hget]
    exact (List.getElem_cons_eraseIdx_perm hlt).symm
  have hnd : (a :: l.eraseIdx n).Nodup := hp.nodup_iff.mp (h.nodup key)
  rw [hp.mem_iff, List.mem_cons]
  constructor
  · intro hb
    refine ⟨Or.inr hb, ?_⟩
    rintro rfl
    exact (List.nodup_cons.mp hnd).1 hb
  · rintro ⟨hb | hb, hne⟩
    · exact absurd hb hne
    · exact hb

theorem Ascending.mem_set {l : List α} (h : Ascending key l) {n : ℕ} {a x b : α}
    (hn : l[n]? = some a) : b ∈ l.set n x ↔ b = x ∨ (b ∈ l ∧ b ≠ a) := by
  obtain ⟨hlt, _⟩ := List.getElem?_eq_some_iff.mp hn
  rw [(List.set_perm_cons_eraseIdx hlt x).mem_iff, List.mem_cons, h.mem_eraseIdx key hn]

end Tsc.Kv
