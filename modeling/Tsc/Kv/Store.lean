import Tsc.Kv.KeyedList

/-!
# An ordered key-value store

The store a module works on: a finite map with ordered keys, read and written
key by key and scanned over a half-open key range in ascending key order. The
entries carry the proof of their order, so every store is a map.
-/

namespace Tsc.Kv

variable {K V : Type} [LinearOrder K]

/-- Entries in strictly ascending key order. -/
structure Store (K V : Type) [LinearOrder K] where
  entries : List (K × V)
  ascending : Ascending Prod.fst entries

namespace Store

def empty : Store K V := ⟨[], ascending_nil _⟩

def get (s : Store K V) (k : K) : Option V := (lookup Prod.fst k s.entries).map Prod.snd

theorem delete_ascending (s : Store K V) (k : K) :
    Ascending Prod.fst (s.entries.filter fun e => e.1 ≠ k) :=
  s.ascending.filter _ _

def delete (s : Store K V) (k : K) : Store K V :=
  ⟨s.entries.filter fun e => e.1 ≠ k, s.delete_ascending k⟩

theorem set_ascending (s : Store K V) (k : K) (v : V) :
    Ascending Prod.fst (insertBefore Prod.fst (k, v) (s.entries.filter fun e => e.1 ≠ k)) := by
  apply insertBefore_ascending _ _ (s.delete_ascending k)
  intro e he
  simpa using (List.mem_filter.mp he).2

def set (s : Store K V) (k : K) (v : V) : Store K V :=
  ⟨insertBefore Prod.fst (k, v) (s.entries.filter fun e => e.1 ≠ k), s.set_ascending k v⟩

/-- Read, compute, write back. -/
def modify (s : Store K V) (k : K) (f : Option V → V) : Store K V := s.set k (f (s.get k))

/-- Entries with `start ≤ key < stop` in key order; no `stop` scans to the end. -/
def iterator (s : Store K V) (start : K) (stop : Option K) : List (K × V) :=
  s.entries.filter fun e => decide (start ≤ e.1) && (stop.all fun t => decide (e.1 < t))

theorem get_eq_some_iff (s : Store K V) (k : K) (v : V) :
    s.get k = some v ↔ (k, v) ∈ s.entries := by
  simp only [get, Option.map_eq_some_iff, lookup_eq_some_iff _ s.ascending]
  constructor
  · rintro ⟨e, ⟨he, hk⟩, hv⟩
    rw [← hk, ← hv]
    exact he
  · intro h
    exact ⟨(k, v), ⟨h, rfl⟩, rfl⟩

/-- Stores that answer every read alike are the same store. -/
theorem ext_get {s s' : Store K V} (h : ∀ k, s.get k = s'.get k) : s = s' := by
  have he : s.entries = s'.entries := by
    apply s.ascending.ext Prod.fst s'.ascending
    intro e
    rw [← get_eq_some_iff s e.1 e.2, ← get_eq_some_iff s' e.1 e.2, h]
  cases s
  cases s'
  cases he
  rfl

theorem get_set (s : Store K V) (k k' : K) (v : V) :
    (s.set k v).get k' = if k' = k then some v else s.get k' := by
  apply Option.ext
  intro w
  have hmem : (k', w) ∈ (s.set k v).entries ↔
      (k' = k ∧ w = v) ∨ ((k', w) ∈ s.entries ∧ k' ≠ k) := by
    simp [set, mem_insertBefore, List.mem_filter]
  rw [get_eq_some_iff, hmem]
  split_ifs with hk
  · simp [hk, eq_comm]
  · simp [hk, get_eq_some_iff]

theorem get_delete (s : Store K V) (k k' : K) :
    (s.delete k).get k' = if k' = k then none else s.get k' := by
  apply Option.ext
  intro w
  have hmem : (k', w) ∈ (s.delete k).entries ↔ (k', w) ∈ s.entries ∧ k' ≠ k := by
    simp [delete, List.mem_filter]
  rw [get_eq_some_iff, hmem]
  split_ifs with hk
  · simp [hk]
  · simp [hk, get_eq_some_iff]

theorem get_foldl_delete (s : Store K V) (ks : List K) (k : K) :
    (ks.foldl delete s).get k = if k ∈ ks then none else s.get k := by
  induction ks generalizing s with
  | nil => simp
  | cons k' ks ih =>
    rw [List.foldl_cons, ih, get_delete]
    by_cases hk : k = k'
    · simp [hk]
    · simp [hk]

theorem get_modify (s : Store K V) (k k' : K) (f : Option V → V) :
    (s.modify k f).get k' = if k' = k then some (f (s.get k)) else s.get k' := get_set s k k' _

/-- Two modifications may be made in either order if they are of different keys or
their functions commute. -/
theorem modify_comm (s : Store K V) {k k' : K} {f g : Option V → V}
    (h : k = k' → ∀ o, f (some (g o)) = g (some (f o))) :
    (s.modify k f).modify k' g = (s.modify k' g).modify k f := by
  apply ext_get
  intro i
  simp only [get_modify]
  by_cases hk : k = k'
  · subst hk
    by_cases hi : i = k
    · simp [hi, h rfl]
    · simp [hi]
  · by_cases hi : i = k
    · subst hi
      simp [hk]
    · simp [hi, Ne.symm hk]

theorem forall_get_set {P : K → V → Prop} {s : Store K V} {k : K} {v : V} (hnew : P k v)
    (hold : ∀ k' v', s.get k' = some v' → P k' v') (k' : K) (v' : V)
    (h : (s.set k v).get k' = some v') : P k' v' := by
  rw [get_set] at h
  split_ifs at h with hk
  · cases h
    rw [hk]
    exact hnew
  · exact hold k' v' h

theorem mem_iterator (s : Store K V) (start : K) (stop : Option K) (k : K) (v : V) :
    (k, v) ∈ s.iterator start stop ↔
      s.get k = some v ∧ start ≤ k ∧ ∀ t ∈ stop, k < t := by
  rw [get_eq_some_iff, iterator, List.mem_filter]
  cases stop <;> simp

theorem iterator_ascending (s : Store K V) (start : K) (stop : Option K) :
    Ascending Prod.fst (s.iterator start stop) := s.ascending.filter _ _

end Store
end Tsc.Kv
