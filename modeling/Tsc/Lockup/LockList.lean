import Tsc.Lockup.Types
import Tsc.Kv.Weigh

/-!
# The locks of one account

What an account's lock list is for, apart from how it is stored: an amount for
each unlock date. `LockList` carries its own well-formedness, so the operations
on it are only defined where they keep it. `add` and `sub` are the merge and the
partial or full removal the messages perform.
-/

namespace Tsc.Lockup

open Go Sdk Kv

structure WellFormed (l : List Lock) : Prop where
  ascending : Ascending Lock.unlockDate l
  parses : ∀ e ∈ l, ∃ t, parseDateOnly e.unlockDate = some t
  positive : ∀ e ∈ l, 0 < e.amount

structure LockList where
  locks : List Lock
  wellFormed : WellFormed locks

/-- Day of a date text; only used on texts that parse. -/
def dayOf (d : Bytes) : ℤ := ((parseDateOnly d).map Time.dayNumber).getD 0

theorem dayOf_eq {d : Bytes} {t : Time} (h : parseDateOnly d = some t) : dayOf d = t.dayNumber := by
  unfold dayOf
  rw [h]
  rfl

def weighLocks (f : Bytes → ℤ) (l : List Lock) : ℤ := weigh Lock.unlockDate Lock.amount f l

def amountOn (d : Bytes) (l : List Lock) : ℤ := amountAt Lock.unlockDate Lock.amount d l

/-- Amount whose unlock day is strictly after day `n`. -/
def activeAfter (n : ℤ) (l : List Lock) : ℤ :=
  ((l.filter fun e => n < dayOf e.unlockDate).map Lock.amount).sum

theorem activeAfter_eq_weigh (n : ℤ) (l : List Lock) :
    activeAfter n l = weighLocks (fun d => if n < dayOf d then 1 else 0) l :=
  (weigh_indicator Lock.unlockDate Lock.amount (fun d => n < dayOf d) l).symm

/-! ### Operations on lists -/

def addLocks (d : Bytes) (x : ℤ) (l : List Lock) : List Lock :=
  match lookupFrom Lock.unlockDate d 0 l with
  | some (e, i) => l.set i ⟨e.unlockDate, e.amount + x⟩
  | none => insertBefore Lock.unlockDate ⟨d, x⟩ l

def subLocks (d : Bytes) (x : ℤ) (l : List Lock) : List Lock :=
  match lookupFrom Lock.unlockDate d 0 l with
  | some (e, i) => if e.amount = x then l.eraseIdx i else l.set i ⟨e.unlockDate, e.amount - x⟩
  | none => l

theorem lookupFrom_zero {d : Bytes} {l : List Lock} {e : Lock} {i : ℕ}
    (h : lookupFrom Lock.unlockDate d 0 l = some (e, i)) : l[i]? = some e ∧ e.unlockDate = d := by
  obtain ⟨n, hi, hn, hd⟩ := lookupFrom_eq_some Lock.unlockDate h
  rw [Nat.zero_add] at hi
  rw [hi]
  exact ⟨hn, hd⟩

theorem weighLocks_addLocks (f : Bytes → ℤ) (d : Bytes) (x : ℤ) (l : List Lock) :
    weighLocks f (addLocks d x l) = weighLocks f l + f d * x := by
  unfold weighLocks addLocks
  split
  next e i hfound =>
    obtain ⟨hi, hd⟩ := lookupFrom_zero hfound
    rw [weigh_set _ _ f hi]
    dsimp only
    rw [hd]
    ring
  next =>
    rw [weigh_insertBefore]
    ring

theorem weighLocks_subLocks (f : Bytes → ℤ) {d : Bytes} {x : ℤ} {l : List Lock} {e : Lock} {i : ℕ}
    (hfound : lookupFrom Lock.unlockDate d 0 l = some (e, i)) :
    weighLocks f (subLocks d x l) = weighLocks f l - f d * x := by
  obtain ⟨hi, hd⟩ := lookupFrom_zero hfound
  unfold weighLocks subLocks
  rw [hfound]
  dsimp only
  split_ifs with hx
  · rw [weigh_eraseIdx _ _ f hi, hd, hx]
  · rw [weigh_set _ _ f hi]
    dsimp only
    rw [hd]
    ring

/-! ### Two additions -/

def Lock.plus (x : ℤ) (e : Lock) : Lock := ⟨e.unlockDate, e.amount + x⟩

theorem Lock.plus_unlockDate (x : ℤ) (e : Lock) : (e.plus x).unlockDate = e.unlockDate := rfl

def HasDate (d : Bytes) (l : List Lock) : Prop := ∃ e ∈ l, e.unlockDate = d

theorem addLocks_of_hasDate {d : Bytes} {l : List Lock} (h : HasDate d l) (x : ℤ) :
    addLocks d x l = updateFirst Lock.unlockDate d (Lock.plus x) l := by
  unfold addLocks
  split
  next e i hfound => exact set_lookupFrom Lock.unlockDate (Lock.plus x) hfound
  next hnone =>
    rw [lookupFrom_eq_none_iff] at hnone
    obtain ⟨e, he, hd⟩ := h
    exact absurd hd (hnone e he)

theorem addLocks_of_not_hasDate {d : Bytes} {l : List Lock} (h : ¬ HasDate d l) (x : ℤ) :
    addLocks d x l = insertBefore Lock.unlockDate ⟨d, x⟩ l := by
  have hnone : lookupFrom Lock.unlockDate d 0 l = none := by
    rw [lookupFrom_eq_none_iff]
    intro e he hd
    exact h ⟨e, he, hd⟩
  unfold addLocks
  rw [hnone]

theorem hasDate_addLocks (d d' : Bytes) (x : ℤ) (l : List Lock) :
    HasDate d' (addLocks d x l) ↔ d' = d ∨ HasDate d' l := by
  by_cases h : HasDate d l
  · unfold HasDate
    rw [addLocks_of_hasDate h, ← List.mem_map, map_key_updateFirst _ (Lock.plus_unlockDate x),
      List.mem_map]
    constructor
    · exact Or.inr
    · rintro (rfl | h')
      · exact h
      · exact h'
  · rw [addLocks_of_not_hasDate h]
    simp only [HasDate, mem_insertBefore, exists_eq_or_imp]
    exact or_congr_left eq_comm

theorem addLocks_ne_nil (d : Bytes) (x : ℤ) (l : List Lock) : addLocks d x l ≠ [] := by
  intro hnil
  obtain ⟨e, he, _⟩ := (hasDate_addLocks d d x l).mpr (Or.inl rfl)
  rw [hnil] at he
  cases he

theorem addLocks_addLocks (d : Bytes) (x y : ℤ) (l : List Lock) :
    addLocks d x (addLocks d y l) = addLocks d (y + x) l := by
  have hcomp : Lock.plus x ∘ Lock.plus y = Lock.plus (y + x) := by
    funext e
    simp [Lock.plus, add_assoc]
  rw [addLocks_of_hasDate ((hasDate_addLocks d d y l).mpr (Or.inl rfl))]
  by_cases hd : HasDate d l
  · rw [addLocks_of_hasDate hd, addLocks_of_hasDate hd,
      updateFirst_updateFirst _ (Lock.plus_unlockDate y), hcomp]
  · have hne : ∀ e ∈ l, e.unlockDate ≠ d := fun e he h => hd ⟨e, he, h⟩
    rw [addLocks_of_not_hasDate hd, addLocks_of_not_hasDate hd]
    exact updateFirst_insertBefore_self Lock.unlockDate (x := ⟨d, y⟩) (Lock.plus_unlockDate x) hne

/-- Two additions may be made in either order, on the list itself and whether or not
it is well-formed. -/
theorem addLocks_comm (d d' : Bytes) (x y : ℤ) (l : List Lock) :
    addLocks d x (addLocks d' y l) = addLocks d' y (addLocks d x l) := by
  by_cases hdd : d = d'
  · rw [hdd, addLocks_addLocks, addLocks_addLocks, add_comm]
  have h₁ : HasDate d (addLocks d' y l) ↔ HasDate d l :=
    (hasDate_addLocks d' d y l).trans (or_iff_right hdd)
  have h₂ : HasDate d' (addLocks d x l) ↔ HasDate d' l :=
    (hasDate_addLocks d d' x l).trans (or_iff_right (Ne.symm hdd))
  have hx := Lock.plus_unlockDate x
  have hy := Lock.plus_unlockDate y
  by_cases hd : HasDate d l <;> by_cases hd' : HasDate d' l
  · rw [addLocks_of_hasDate (h₁.mpr hd), addLocks_of_hasDate (h₂.mpr hd'),
      addLocks_of_hasDate hd, addLocks_of_hasDate hd', updateFirst_comm _ hx hy hdd]
  · rw [addLocks_of_hasDate (h₁.mpr hd), addLocks_of_not_hasDate (mt h₂.mp hd'),
      addLocks_of_hasDate hd, addLocks_of_not_hasDate hd',
      updateFirst_insertBefore _ hx (Ne.symm hdd)]
  · rw [addLocks_of_not_hasDate (mt h₁.mp hd), addLocks_of_hasDate (h₂.mpr hd'),
      addLocks_of_not_hasDate hd, addLocks_of_hasDate hd', updateFirst_insertBefore _ hy hdd]
  · rw [addLocks_of_not_hasDate (mt h₁.mp hd), addLocks_of_not_hasDate (mt h₂.mp hd'),
      addLocks_of_not_hasDate hd, addLocks_of_not_hasDate hd', insertBefore_comm _ hdd]

/-! ### Well-formedness -/

theorem wellFormed_nil : WellFormed [] :=
  ⟨ascending_nil _, by simp, by simp⟩

theorem WellFormed.set {l : List Lock} (h : WellFormed l) {i : ℕ} {e : Lock} (hi : l[i]? = some e)
    {x : ℤ} (hx : 0 < x) : WellFormed (l.set i ⟨e.unlockDate, x⟩) := by
  have hmem : ∀ b ∈ l.set i ⟨e.unlockDate, x⟩, b = ⟨e.unlockDate, x⟩ ∨ b ∈ l := by
    intro b hb
    rcases (h.ascending.mem_set Lock.unlockDate hi).mp hb with hb | hb
    · exact Or.inl hb
    · exact Or.inr hb.1
  refine ⟨h.ascending.set Lock.unlockDate hi rfl, ?_, ?_⟩
  · intro b hb
    rcases hmem b hb with hb | hb
    · rw [hb]
      exact h.parses e (List.mem_of_getElem? hi)
    · exact h.parses b hb
  · intro b hb
    rcases hmem b hb with hb | hb
    · rw [hb]
      exact hx
    · exact h.positive b hb

theorem wellFormed_addLocks {l : List Lock} (h : WellFormed l) {d : Bytes} {t : Time} {x : ℤ}
    (hd : parseDateOnly d = some t) (hx : 0 < x) : WellFormed (addLocks d x l) := by
  unfold addLocks
  split
  next e i hfound =>
    obtain ⟨hi, _⟩ := lookupFrom_zero hfound
    have he := h.positive e (List.mem_of_getElem? hi)
    exact h.set hi (by omega)
  next hnone =>
    rw [lookupFrom_eq_none_iff] at hnone
    refine ⟨insertBefore_ascending Lock.unlockDate _ h.ascending hnone, ?_, ?_⟩
    · intro b hb
      rcases (mem_insertBefore Lock.unlockDate _ b l).mp hb with hb | hb
      · rw [hb]
        exact ⟨t, hd⟩
      · exact h.parses b hb
    · intro b hb
      rcases (mem_insertBefore Lock.unlockDate _ b l).mp hb with hb | hb
      · rw [hb]
        exact hx
      · exact h.positive b hb

theorem wellFormed_subLocks {l : List Lock} (h : WellFormed l) {d : Bytes} {x : ℤ} {e : Lock}
    {i : ℕ} (hfound : lookupFrom Lock.unlockDate d 0 l = some (e, i)) (hx : x ≤ e.amount) :
    WellFormed (subLocks d x l) := by
  obtain ⟨hi, _⟩ := lookupFrom_zero hfound
  unfold subLocks
  rw [hfound]
  dsimp only
  split_ifs with he
  · have hsub := List.eraseIdx_sublist l i
    exact ⟨h.ascending.eraseIdx Lock.unlockDate i, fun b hb => h.parses b (hsub.subset hb),
      fun b hb => h.positive b (hsub.subset hb)⟩
  · exact h.set hi (by omega)

/-! ### Amounts -/

theorem amountOn_eq {l : List Lock} (h : WellFormed l) (d : Bytes) :
    amountOn d l = weighLocks (fun d' => if d' = d then 1 else 0) l := by
  unfold amountOn weighLocks
  -- the order on byte strings brings its own decision of equality
  convert amountAt_eq_weigh Lock.unlockDate Lock.amount h.ascending d

theorem lookupFrom_amountOn {l : List Lock} (h : WellFormed l) {d : Bytes} {e : Lock} {i : ℕ}
    (hfound : lookupFrom Lock.unlockDate d 0 l = some (e, i)) : amountOn d l = e.amount := by
  obtain ⟨hi, hd⟩ := lookupFrom_zero hfound
  have hl := (lookup_eq_some_iff Lock.unlockDate h.ascending d e).mpr
    ⟨List.mem_of_getElem? hi, hd⟩
  unfold amountOn amountAt
  rw [hl]
  rfl

theorem amountOn_nonneg {l : List Lock} (h : WellFormed l) (d : Bytes) : 0 ≤ amountOn d l := by
  rw [amountOn_eq h]
  unfold weighLocks
  apply weigh_nonneg
  · intro d'
    split_ifs <;> omega
  · intro e he
    exact (h.positive e he).le

theorem amountOn_addLocks {l : List Lock} (h : WellFormed l) {d : Bytes} {t : Time} {x : ℤ}
    (hd : parseDateOnly d = some t) (hx : 0 < x) (d' : Bytes) :
    amountOn d' (addLocks d x l) = amountOn d' l + if d = d' then x else 0 := by
  rw [amountOn_eq (wellFormed_addLocks h hd hx), amountOn_eq h, weighLocks_addLocks]
  split_ifs <;> ring

theorem amountOn_subLocks {l : List Lock} (h : WellFormed l) {d : Bytes} {x : ℤ} {e : Lock} {i : ℕ}
    (hfound : lookupFrom Lock.unlockDate d 0 l = some (e, i)) (hx : x ≤ e.amount) (d' : Bytes) :
    amountOn d' (subLocks d x l) = amountOn d' l - if d = d' then x else 0 := by
  rw [amountOn_eq (wellFormed_subLocks h hfound hx), amountOn_eq h, weighLocks_subLocks _ hfound]
  split_ifs <;> ring

theorem lookup_eq_amountOn {l : List Lock} (h : WellFormed l) (d : Bytes) :
    (lookup Lock.unlockDate d l).map Lock.amount =
      if amountOn d l = 0 then none else some (amountOn d l) := by
  unfold amountOn amountAt
  cases hl : lookup Lock.unlockDate d l with
  | none => rfl
  | some e =>
    have hpos := h.positive e (lookup_mem Lock.unlockDate hl).1
    simp only [Option.map_some, Option.getD_some]
    rw [if_neg (by omega)]

theorem WellFormed.mem_iff {l : List Lock} (h : WellFormed l) (e : Lock) :
    e ∈ l ↔ 0 < e.amount ∧ amountOn e.unlockDate l = e.amount := by
  constructor
  · intro he
    have hl := (lookup_eq_some_iff Lock.unlockDate h.ascending e.unlockDate e).mpr ⟨he, rfl⟩
    refine ⟨h.positive e he, ?_⟩
    unfold amountOn amountAt
    rw [hl]
    rfl
  · intro hr
    obtain ⟨hpos, hamount⟩ := hr
    have hl := lookup_eq_amountOn h e.unlockDate
    rw [hamount, if_neg (by omega), Option.map_eq_some_iff] at hl
    obtain ⟨f, hf, hfa⟩ := hl
    obtain ⟨hmem, hdate⟩ := (lookup_eq_some_iff Lock.unlockDate h.ascending e.unlockDate f).mp hf
    have hfe : f = e := by
      cases f
      cases e
      cases hdate
      cases hfa
      rfl
    rw [← hfe]
    exact hmem

theorem WellFormed.ext {l l' : List Lock} (h : WellFormed l) (h' : WellFormed l')
    (hamount : ∀ d, amountOn d l = amountOn d l') : l = l' := by
  apply h.ascending.ext Lock.unlockDate h'.ascending
  intro e
  rw [h.mem_iff, h'.mem_iff, hamount]

theorem activeAfter_nonneg {l : List Lock} (h : WellFormed l) (n : ℤ) : 0 ≤ activeAfter n l := by
  rw [activeAfter_eq_weigh]
  unfold weighLocks
  apply weigh_nonneg
  · intro d
    split_ifs <;> omega
  · intro e he
    exact (h.positive e he).le

theorem amountOn_le_activeAfter {l : List Lock} (h : WellFormed l) {d : Bytes} {n : ℤ}
    (hd : n < dayOf d) : amountOn d l ≤ activeAfter n l := by
  rw [amountOn_eq h, activeAfter_eq_weigh]
  unfold weighLocks
  apply weigh_mono
  · intro d'
    by_cases hd' : d' = d
    · rw [if_pos hd', hd', if_pos hd]
    · rw [if_neg hd']
      split_ifs <;> omega
  · intro e he
    exact (h.positive e he).le

theorem activeAfter_anti {l : List Lock} (h : WellFormed l) {m n : ℤ} (hmn : m ≤ n) :
    activeAfter n l ≤ activeAfter m l := by
  rw [activeAfter_eq_weigh, activeAfter_eq_weigh]
  unfold weighLocks
  apply weigh_mono
  · intro d
    split_ifs <;> omega
  · intro e he
    exact (h.positive e he).le

end Tsc.Lockup
