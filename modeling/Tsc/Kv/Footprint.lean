import Tsc.Go.Outcome
import Tsc.Kv.Store
import Tsc.Kv.KeyedSteps

/-!
# Footprints of calls on a store

A call has footprint `S` if keys of `S` are all it reads and writes: on two stores that agree
there it fails with the same error or returns stores that agree there again, and other keys
keep their values. Inputs are worked off one after another, each with a call that leaves the
store as it is when it fails. If the calls of different keys have disjoint footprints, what
happens to the inputs of one key, and to its part of the store, is as if they were alone.
-/

namespace Tsc.Kv

open Go

section Footprint

variable {K V ε γ : Type} [LinearOrder K] {S : Set K}

def AgreeOn (S : Set K) (s s' : Store K V) : Prop := ∀ k ∈ S, s.get k = s'.get k

theorem AgreeOn.trans {s t u : Store K V} (h : AgreeOn S s t) (h' : AgreeOn S t u) :
    AgreeOn S s u :=
  fun k hk => (h k hk).trans (h' k hk)

structure Footprint (S : Set K) (f : Store K V → Outcome ε (Store K V)) : Prop where
  frame : ∀ s u, f s = .ok u → ∀ k ∉ S, u.get k = s.get k
  returns : ∀ s s' u, AgreeOn S s s' → f s = .ok u → ∃ u', f s' = .ok u' ∧ AgreeOn S u u'
  fails : ∀ s s' e, AgreeOn S s s' → f s = .error e → f s' = .error e

/-- A call that always succeeds, and makes one change to the store. -/
theorem footprint_write {f : Store K V → Store K V} (hframe : ∀ s, ∀ k ∉ S, (f s).get k = s.get k)
    (hagree : ∀ s s', AgreeOn S s s' → AgreeOn S (f s) (f s')) :
    Footprint S fun s => (.ok (f s) : Outcome ε (Store K V)) := by
  refine ⟨?_, ?_, ?_⟩
  · intro s u h
    cases h
    exact hframe s
  · intro s s' u hs h
    cases h
    exact ⟨f s', rfl, hagree s s' hs⟩
  · intro s s' e _ h
    cases h

theorem footprint_ok : Footprint S fun s : Store K V => (.ok s : Outcome ε (Store K V)) :=
  footprint_write (fun _ _ _ => rfl) fun _ _ h => h

theorem footprint_set {k : K} (hk : k ∈ S) (v : V) :
    Footprint S fun s : Store K V => (.ok (s.set k v) : Outcome ε (Store K V)) := by
  refine footprint_write (fun s x hx => ?_) fun s s' hs x hx => ?_
  · have hne : x ≠ k := fun heq => hx (heq ▸ hk)
    rw [Store.get_set, if_neg hne]
  · rw [Store.get_set, Store.get_set, hs x hx]

theorem footprint_delete {k : K} (hk : k ∈ S) :
    Footprint S fun s : Store K V => (.ok (s.delete k) : Outcome ε (Store K V)) := by
  refine footprint_write (fun s x hx => ?_) fun s s' hs x hx => ?_
  · have hne : x ≠ k := fun heq => hx (heq ▸ hk)
    rw [Store.get_delete, if_neg hne]
  · rw [Store.get_delete, Store.get_delete, hs x hx]

theorem footprint_error (e : Fault ε) :
    Footprint S fun _ : Store K V => (.error e : Outcome ε (Store K V)) := by
  refine ⟨?_, ?_, ?_⟩
  · intro s u h
    cases h
  · intro s s' u _ h
    cases h
  · intro s s' e' _ h
    exact h

/-- A call that goes on according to a value it has read. -/
theorem footprint_read {r : Store K V → γ} {f : Store K V → Outcome ε (Store K V)}
    (hr : ∀ s s', AgreeOn S s s' → r s = r s')
    (hf : ∀ c, ∃ g, Footprint S g ∧ ∀ s, r s = c → f s = g s) : Footprint S f := by
  refine ⟨?_, ?_, ?_⟩
  · intro s u h
    obtain ⟨g, hg, heq⟩ := hf (r s)
    rw [heq s rfl] at h
    exact hg.frame s u h
  · intro s s' u hs h
    obtain ⟨g, hg, heq⟩ := hf (r s)
    rw [heq s rfl] at h
    rw [heq s' (hr s s' hs).symm]
    exact hg.returns s s' u hs h
  · intro s s' e hs h
    obtain ⟨g, hg, heq⟩ := hf (r s)
    rw [heq s rfl] at h
    rw [heq s' (hr s s' hs).symm]
    exact hg.fails s s' e hs h

/-- A call that goes on with the result of one that does not look at the store. -/
theorem footprint_after {x : Outcome ε γ} {f : γ → Store K V → Outcome ε (Store K V)}
    (hf : ∀ c, x = .ok c → Footprint S (f c)) : Footprint S fun s => x >>= fun c => f c s := by
  cases x with
  | error e => exact footprint_error e
  | ok c => exact hf c rfl

theorem footprint_read_bind {r : Store K V → Outcome ε γ}
    {f : γ → Store K V → Outcome ε (Store K V)} (hr : ∀ s s', AgreeOn S s s' → r s = r s')
    (hf : ∀ c, Footprint S (f c)) : Footprint S fun s => r s >>= fun c => f c s := by
  refine footprint_read hr fun x => ⟨_, footprint_after (x := x) fun c _ => hf c, ?_⟩
  intro s hs
  rw [hs]

theorem Footprint.bind {f g : Store K V → Outcome ε (Store K V)} (hf : Footprint S f)
    (hg : Footprint S g) : Footprint S fun s => f s >>= g := by
  refine ⟨?_, ?_, ?_⟩
  · intro s u h k hk
    obtain ⟨t, ht, hu⟩ := (bind_eq_ok _ _ _).mp h
    rw [hg.frame t u hu k hk, hf.frame s t ht k hk]
  · intro s s' u hs h
    obtain ⟨t, ht, hu⟩ := (bind_eq_ok _ _ _).mp h
    obtain ⟨t', ht', hagree⟩ := hf.returns s s' t hs ht
    obtain ⟨u', hu', hagree'⟩ := hg.returns t t' u hagree hu
    exact ⟨u', (bind_eq_ok _ _ _).mpr ⟨t', ht', hu'⟩, hagree'⟩
  · intro s s' e hs h
    cases ht : f s with
    | error e' =>
      rw [ht] at h
      rw [hf.fails s s' e' hs ht]
      exact h
    | ok t =>
      rw [ht, ok_bind] at h
      obtain ⟨t', ht', hagree⟩ := hf.returns s s' t hs ht
      rw [ht', ok_bind]
      exact hg.fails t t' e hagree h

theorem footprint_forRange {α : Type} {body : Store K V → α → Outcome ε (Store K V)} {l : List α}
    (h : ∀ a ∈ l, Footprint S fun s => body s a) : Footprint S fun s => forRange body s l := by
  induction l with
  | nil => exact footprint_ok
  | cons a l ih =>
    exact (h a (List.mem_cons_self ..)).bind (ih fun b hb => h b (List.mem_cons_of_mem _ hb))

end Footprint

/-! ### Inputs worked off one by one -/

section Inputs

variable {K V ε α κ : Type} [LinearOrder K] (call : α → Store K V → Outcome ε (Store K V))

/-- The store after an input, and what became of it. -/
def attempt (s : Store K V) (a : α) : Store K V × Outcome ε Unit :=
  match call a s with
  | .ok u => (u, .ok ())
  | .error e => (s, .error e)

def workOff (s : Store K V) : List α → Store K V × List (α × Outcome ε Unit)
  | [] => (s, [])
  | a :: l =>
    let r := attempt call s a
    let rest := workOff r.1 l
    (rest.1, (a, r.2) :: rest.2)

variable {call} {key : α → κ} {part : κ → Set K}
  (hcall : ∀ a, Footprint (part (key a)) (call a))
include hcall

theorem attempt_frame (s : Store K V) (a : α) {k : K} (hk : k ∉ part (key a)) :
    (attempt call s a).1.get k = s.get k := by
  unfold attempt
  cases h : call a s with
  | ok u => exact (hcall a).frame s u h k hk
  | error e => rfl

theorem attempt_agree {s s' : Store K V} {a : α} (h : AgreeOn (part (key a)) s s') :
    AgreeOn (part (key a)) (attempt call s a).1 (attempt call s' a).1 ∧
      (attempt call s a).2 = (attempt call s' a).2 := by
  unfold attempt
  cases hs : call a s with
  | ok u =>
    obtain ⟨u', hu', hagree⟩ := (hcall a).returns s s' u h hs
    rw [hu']
    exact ⟨hagree, rfl⟩
  | error e =>
    rw [(hcall a).fails s s' e h hs]
    exact ⟨h, rfl⟩

theorem workOff_frame (s : Store K V) (l : List α) {k : K} (hk : ∀ a ∈ l, k ∉ part (key a)) :
    (workOff call s l).1.get k = s.get k := by
  induction l generalizing s with
  | nil => rfl
  | cons a l ih =>
    obtain ⟨ha, hl⟩ := List.forall_mem_cons.mp hk
    exact (ih _ hl).trans (attempt_frame hcall s a ha)

variable [DecidableEq κ] (hdisjoint : ∀ x y, x ≠ y → ∀ k ∈ part x, k ∉ part y)
include hdisjoint

/-- The inputs of one key fare as if there were no others. -/
theorem workOff_ofKey (x : κ) {s s' : Store K V} (l : List α) (h : AgreeOn (part x) s s') :
    AgreeOn (part x) (workOff call s l).1 (workOff call s' (ofKey key x l)).1 ∧
      ((workOff call s l).2.filter fun p => key p.1 = x) =
        (workOff call s' (ofKey key x l)).2 := by
  induction l generalizing s s' with
  | nil => exact ⟨h, rfl⟩
  | cons a l ih =>
    by_cases ha : key a = x
    · subst ha
      obtain ⟨hagree, hsame⟩ := attempt_agree hcall h
      obtain ⟨hstore, hlog⟩ := ih hagree
      rw [ofKey_cons_self]
      refine ⟨hstore, ?_⟩
      simp only [workOff, List.filter_cons, decide_true, if_true, hsame, hlog]
    · -- an input of another key does not touch this part
      have hpart : AgreeOn (part x) (attempt call s a).1 s := by
        intro k hk
        exact attempt_frame hcall s a fun hka => hdisjoint _ _ ha k hka hk
      obtain ⟨hstore, hlog⟩ := ih (hpart.trans h)
      rw [ofKey_cons_of_ne ha]
      refine ⟨hstore, ?_⟩
      simp only [workOff, List.filter_cons, decide_eq_true_eq, if_neg ha, hlog]

/-- Only the order among inputs of one key matters, and of keys without any part not even
the inputs. -/
theorem workOff_eq_of_ofKey {l l' : List α}
    (h : ∀ x, (part x).Nonempty → ofKey key x l' = ofKey key x l) (s : Store K V) :
    (workOff call s l').1 = (workOff call s l).1 := by
  apply Store.ext_get
  intro k
  by_cases hk : ∃ x, k ∈ part x
  · obtain ⟨x, hx⟩ := hk
    have hl := (workOff_ofKey hcall hdisjoint x l (fun k _ => rfl : AgreeOn (part x) s s)).1 k hx
    have hl' := (workOff_ofKey hcall hdisjoint x l' (fun k _ => rfl : AgreeOn (part x) s s)).1 k hx
    rw [hl, hl', h x ⟨k, hx⟩]
  · have hno : ∀ x, k ∉ part x := fun x hx => hk ⟨x, hx⟩
    rw [workOff_frame hcall s l fun a _ => hno _, workOff_frame hcall s l' fun a _ => hno _]

end Inputs

end Tsc.Kv
