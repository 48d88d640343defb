import Tsc.Go.Outcome

/-!
# Loops that move a cursor

`for i < len(data) { … }` where the body moves the cursor `i`, may return from the
function, fail, or panic. The cursor is an `int` the body may also move backwards,
so such a loop need not end. `CursorLoop.Total` says that a call comes back with a
value or an error and that every round moves the cursor forward;
`CursorLoop.total_iff` reduces it to the single rounds.
-/

namespace Tsc.Go

variable {ε α β σ ρ : Type}

/-! ### Calls that come back -/

/-- The call ends with a value or an error: it neither panics nor runs forever. -/
def Settles (x : Outcome ε α) : Prop := (∃ a, x = .ok a) ∨ ∃ e, x = .error (.err e)

@[simp] theorem settles_ok (a : α) : Settles (.ok a : Outcome ε α) := Or.inl ⟨a, rfl⟩

@[simp] theorem settles_err (e : ε) : Settles (.error (.err e) : Outcome ε α) := Or.inr ⟨e, rfl⟩

@[simp] theorem not_settles_panic (why : String) :
    ¬ Settles (.error (.panic why) : Outcome ε α) := by
  simp [Settles]

@[simp] theorem not_settles_hang : ¬ Settles (.error .hang : Outcome ε α) := by simp [Settles]

theorem settles_bind (x : Outcome ε α) (f : α → Outcome ε β) :
    Settles (x >>= f) ↔ Settles x ∧ ∀ a, x = .ok a → Settles (f a) := by
  cases x with
  | ok a => simp
  | error e => cases e <;> simp [Settles]

theorem settles_failIf (c : Prop) [Decidable c] (e : ε) : Settles (failIf c (.err e)) := by
  unfold failIf
  split <;> simp

/-! ### Loops -/

inductive Jump (σ ρ : Type) where
  | next (i : ℤ) (s : σ)
  | ret (r : ρ)

structure CursorLoop (ε σ ρ : Type) where
  len : ℕ
  body : ℤ → σ → Outcome ε (Jump σ ρ)
  done : σ → Outcome ε ρ
  done_settles : ∀ s, Settles (done s)

namespace CursorLoop

variable (l : CursorLoop ε σ ρ) (s₀ : σ)

/-- The loop from cursor `i`, cut off after `fuel` tests of its condition. -/
def run : ℕ → ℤ → σ → Outcome ε ρ
  | 0, _, _ => .error .hang
  | fuel + 1, i, s =>
    if i < l.len then l.body i s >>= fun
      | .next i' s' => run fuel i' s'
      | .ret r => .ok r
    else l.done s

/-- The loop from the start. A cursor that always moves forward passes the end
within `len` rounds. -/
def call : Outcome ε ρ := l.run (l.len + 1) 0 s₀

inductive Reaches : ℤ → σ → Prop
  | start : Reaches 0 s₀
  | round {i i' : ℤ} {s s' : σ} : Reaches i s → i < l.len → l.body i s = .ok (.next i' s') →
      Reaches i' s'

/-- However many rounds it is given, the loop needs finitely many to come back, and
each moves the cursor forward. -/
structure Total : Prop where
  ends : ∃ fuel, Settles (l.run fuel 0 s₀)
  increases : ∀ i s i' s', l.Reaches s₀ i s → i < l.len → l.body i s = .ok (.next i' s') → i < i'

end CursorLoop

/-- A round from cursor `i` moves it forward, returns, or fails with an error. -/
def Advances (i : ℤ) (x : Outcome ε (Jump σ ρ)) : Prop :=
  Settles x ∧ ∀ i' s', x = .ok (.next i' s') → i < i'

@[simp] theorem advances_next (i i' : ℤ) (s : σ) :
    Advances i (.ok (.next i' s) : Outcome ε (Jump σ ρ)) ↔ i < i' := by
  simp [Advances]

@[simp] theorem advances_ret (i : ℤ) (r : ρ) :
    Advances i (.ok (.ret r) : Outcome ε (Jump σ ρ)) := by
  simp [Advances]

@[simp] theorem advances_err (i : ℤ) (e : ε) :
    Advances i (.error (.err e) : Outcome ε (Jump σ ρ)) := by
  simp [Advances]

theorem advances_bind (i : ℤ) (x : Outcome ε α) (f : α → Outcome ε (Jump σ ρ)) :
    Advances i (x >>= f) ↔ Settles x ∧ ∀ a, x = .ok a → Advances i (f a) := by
  cases x with
  | ok a => simp
  | error e => cases e <;> simp [Advances, Settles]

@[simp] theorem advances_failIf (i : ℤ) (c : Prop) [Decidable c] (e : ε)
    (f : Unit → Outcome ε (Jump σ ρ)) :
    Advances i (failIf c (.err e) >>= f) ↔ (¬ c → Advances i (f ())) := by
  rw [advances_bind]
  simp only [settles_failIf, failIf_eq_ok, true_and]
  exact ⟨fun h => h (), fun h _ => h⟩

namespace CursorLoop

variable {l : CursorLoop ε σ ρ} {s₀ : σ}

theorem run_settles (h : ∀ i s, l.Reaches s₀ i s → i < l.len → Advances i (l.body i s))
    (fuel : ℕ) {i : ℤ} {s : σ} (hr : l.Reaches s₀ i s) (hfuel : l.len ≤ i + fuel) :
    Settles (l.run (fuel + 1) i s) := by
  induction fuel generalizing i s with
  | zero =>
    unfold run
    rw [if_neg (by omega)]
    exact l.done_settles s
  | succ fuel ih =>
    unfold run
    by_cases hi : i < l.len
    · obtain ⟨hset, hadv⟩ := h i s hr hi
      rw [if_pos hi, settles_bind]
      refine ⟨hset, ?_⟩
      intro jump hjump
      cases jump with
      | next i' s' =>
        have hlt := hadv i' s' hjump
        exact ih (.round hr hi hjump) (by omega)
      | ret r => exact settles_ok r
    · rw [if_neg hi]
      exact l.done_settles s

theorem run_ret {P : ρ → Prop} (hbody : ∀ i s r, l.body i s = .ok (.ret r) → P r)
    (hdone : ∀ s r, l.done s = .ok r → P r) {fuel : ℕ} {i : ℤ} {s : σ} {r : ρ}
    (h : l.run fuel i s = .ok r) : P r := by
  induction fuel generalizing i s with
  | zero => cases h
  | succ fuel ih =>
    unfold run at h
    split_ifs at h
    · obtain ⟨jump, hjump, h⟩ := (bind_eq_ok _ _ _).mp h
      cases jump with
      | next i' s' => exact ih h
      | ret r' =>
        cases h
        exact hbody i s r hjump
    · exact hdone s r h

theorem Reaches.run_settles (h : ∃ fuel, Settles (l.run fuel 0 s₀)) {i : ℤ} {s : σ}
    (hr : l.Reaches s₀ i s) : ∃ fuel, Settles (l.run (fuel + 1) i s) := by
  induction hr with
  | start =>
    obtain ⟨fuel, hfuel⟩ := h
    cases fuel with
    | zero => exact absurd hfuel not_settles_hang
    | succ fuel => exact ⟨fuel, hfuel⟩
  | @round i i' s s' _ hi hbody ih =>
    obtain ⟨fuel, hfuel⟩ := ih
    unfold run at hfuel
    rw [if_pos hi, hbody, ok_bind] at hfuel
    cases fuel with
    | zero => exact absurd hfuel not_settles_hang
    | succ fuel => exact ⟨fuel, hfuel⟩

theorem total_iff :
    l.Total s₀ ↔ ∀ i s, l.Reaches s₀ i s → i < l.len → Advances i (l.body i s) := by
  constructor
  · intro ht i s hr hi
    obtain ⟨fuel, hfuel⟩ := hr.run_settles ht.ends
    unfold run at hfuel
    rw [if_pos hi, settles_bind] at hfuel
    exact ⟨hfuel.1, fun i' s' hbody => ht.increases i s i' s' hr hi hbody⟩
  · intro h
    refine ⟨⟨_, run_settles h l.len .start (by omega)⟩, ?_⟩
    intro i s i' s' hr hi hbody
    exact (h i s hr hi).2 i' s' hbody

theorem Total.settles (h : l.Total s₀) : Settles (l.call s₀) :=
  run_settles (total_iff.mp h) l.len .start (by omega)

theorem Reaches.nonneg
    (h : ∀ i s, l.Reaches s₀ i s → 0 ≤ i → i < l.len → Advances i (l.body i s))
    {i : ℤ} {s : σ} (hr : l.Reaches s₀ i s) : 0 ≤ i := by
  induction hr with
  | start => exact le_rfl
  | round hr hi hbody ih =>
    have hlt := (h _ _ hr ih hi).2 _ _ hbody
    omega

/-- Loop rule: if on nonnegative cursors `C` says which rounds advance, the loop is
total exactly when all its rounds meet `C`. -/
theorem total_iff_of_body {C : ℤ → σ → Prop}
    (hC : ∀ i s, 0 ≤ i → i < (l.len : ℤ) → (Advances i (l.body i s) ↔ C i s)) :
    l.Total s₀ ↔ ∀ i s, l.Reaches s₀ i s → i < l.len → C i s := by
  rw [total_iff]
  constructor
  · intro h i s hr hi
    have h0 := hr.nonneg fun i s hr _ hi => h i s hr hi
    exact (hC i s h0 hi).mp (h i s hr hi)
  · intro h i s hr hi
    have h0 := hr.nonneg fun i s hr h0 hi => (hC i s h0 hi).mpr (h i s hr hi)
    exact (hC i s h0 hi).mpr (h i s hr hi)

end CursorLoop

/-! ### Loops over pieces -/

/-- From `s` to `s'` by one step of `R` for each element of the list. -/
inductive Steps {γ : Type} (R : γ → σ → σ → Prop) : List γ → σ → σ → Prop
  | nil {s : σ} : Steps R [] s s
  | cons {c : γ} {l : List γ} {s s' s'' : σ} : R c s s' → Steps R l s' s'' → Steps R (c :: l) s s''

theorem Steps.append {γ : Type} {R : γ → σ → σ → Prop} {l l' : List γ} {s s' s'' : σ}
    (h : Steps R l s s') (h' : Steps R l' s' s'') : Steps R (l ++ l') s s'' := by
  induction h with
  | nil => exact h'
  | cons hc _ ih => exact .cons hc (ih h')

theorem Steps.single {γ : Type} {R : γ → σ → σ → Prop} {c : γ} {s s' : σ} (h : R c s s') :
    Steps R [c] s s' := .cons h .nil

/-- The states on the way. -/
theorem Steps.states {γ : Type} {R : γ → σ → σ → Prop} {l : List γ} {s s' : σ}
    (h : Steps R l s s') : ∃ state : ℕ → σ, state 0 = s ∧ state l.length = s' ∧
      ∀ pre c post, l = pre ++ c :: post → R c (state pre.length) (state (pre.length + 1)) := by
  induction h with
  | nil =>
    refine ⟨fun _ => _, rfl, rfl, ?_⟩
    intro pre c post hsplit
    exact absurd hsplit (by simp)
  | @cons c l s _ s'' hc _ ih =>
    obtain ⟨state, h0, hlast, hsteps⟩ := ih
    refine ⟨fun n => n.casesOn s state, rfl, hlast, ?_⟩
    intro pre d post hsplit
    cases pre with
    | nil =>
      obtain ⟨rfl, -⟩ := List.cons.inj hsplit
      show R c s (state 0)
      rwa [h0]
    | cons b pre => exact hsteps pre d post (List.cons.inj hsplit).2

namespace CursorLoop

section Pieces

variable {γ : Type} {l : CursorLoop ε σ ρ} {size : γ → ℕ} {pieces pre post : List γ} {c : γ}
  (hlen : l.len = (pieces.map size).sum) (s : σ) (fuel : ℕ)
include hlen

theorem run_piece (hsize : 0 < size c) (hsplit : pieces = pre ++ c :: post) :
    l.run (fuel + 1) (pre.map size).sum s = l.body (pre.map size).sum s >>= fun
      | .next i' s' => l.run fuel i' s'
      | .ret r => .ok r := by
  have hin : ((pre.map size).sum : ℤ) < l.len := by
    rw [hlen, hsplit, List.map_append, List.sum_append, List.map_cons, List.sum_cons]
    omega
  exact if_pos hin

theorem run_behind : l.run (fuel + 1) (pieces.map size).sum s = l.done s := by
  unfold run
  rw [hlen, if_neg (lt_irrefl _)]

end Pieces

/-- Loop rule: on data made of pieces, if the round at a piece succeeds exactly if a
step does, and then goes on behind the piece, the loop succeeds exactly if all the
steps do. -/
theorem call_eq_ok_iff {γ : Type} {l : CursorLoop ε σ σ} (size : γ → ℕ)
    (step : σ → γ → Option σ) (pieces : List γ) (hlen : l.len = (pieces.map size).sum)
    (hsize : ∀ c, 0 < size c) (hdone : ∀ s, l.done s = .ok s)
    (hbody : ∀ pre c post s jump, pieces = pre ++ c :: post →
      (l.body (pre.map size).sum s = .ok jump ↔
        ∃ s', step s c = some s' ∧ jump = .next ((pre.map size).sum + size c : ℕ) s'))
    (s r : σ) : l.call s = .ok r ↔ pieces.foldlM step s = some r := by
  have hrun : ∀ post pre s fuel, pieces = pre ++ post → (post.map size).sum ≤ fuel →
      (l.run (fuel + 1) (pre.map size).sum s = .ok r ↔ post.foldlM step s = some r) := by
    intro post
    induction post with
    | nil =>
      intro pre s fuel hsplit _
      rw [List.append_nil] at hsplit
      subst hsplit
      rw [run_behind hlen, hdone, List.foldlM_nil]
      exact ⟨fun h => congrArg some (Except.ok.inj h), fun h => congrArg Except.ok (Option.some.inj h)⟩
    | cons c post ih =>
      intro pre s fuel hsplit hfuel
      have hpos := hsize c
      rw [List.map_cons, List.sum_cons] at hfuel
      obtain ⟨fuel, rfl⟩ : ∃ k, fuel = k + 1 := ⟨fuel - 1, by omega⟩
      have hnext : ∀ s', l.run (fuel + 1) ((pre.map size).sum + size c : ℕ) s' = .ok r ↔
          post.foldlM step s' = some r := by
        intro s'
        have hrest := ih (pre ++ [c]) s' fuel (by rw [hsplit]; simp) (by omega)
        simpa using hrest
      rw [run_piece hlen s _ hpos hsplit, bind_eq_ok, List.foldlM_cons, Option.bind_eq_bind,
        Option.bind_eq_some_iff]
      constructor
      · rintro ⟨jump, hjump, hrun⟩
        obtain ⟨s', hs', rfl⟩ := (hbody pre c post s jump hsplit).mp hjump
        exact ⟨s', hs', (hnext s').mp hrun⟩
      · rintro ⟨s', hs', hfold⟩
        exact ⟨_, (hbody pre c post s _ hsplit).mpr ⟨s', hs', rfl⟩, (hnext s').mpr hfold⟩
  have hstart := hrun pieces [] s l.len rfl (le_of_eq hlen.symm)
  simpa [call] using hstart

/-- Loop rule: if the round at a piece returns its result if the piece is one looked for
and goes on behind it otherwise, the loop returns the result of the first such piece. -/
theorem call_eq_find {γ : Type} {l : CursorLoop ε σ ρ} (size : γ → ℕ) (target : γ → Bool)
    (result : γ → ρ) (pieces : List γ) (hlen : l.len = (pieces.map size).sum)
    (hsize : ∀ c, 0 < size c) (s : σ)
    (hbody : ∀ pre c post, pieces = pre ++ c :: post → l.body (pre.map size).sum s =
      if target c then .ok (.ret (result c))
      else .ok (.next ((pre.map size).sum + size c : ℕ) s)) :
    l.call s = (pieces.find? target).elim (l.done s) fun c => .ok (result c) := by
  have hrun : ∀ post pre fuel, pieces = pre ++ post → (post.map size).sum ≤ fuel →
      l.run (fuel + 1) (pre.map size).sum s =
        (post.find? target).elim (l.done s) fun c => .ok (result c) := by
    intro post
    induction post with
    | nil =>
      intro pre fuel hsplit _
      rw [List.append_nil] at hsplit
      subst hsplit
      exact run_behind hlen s fuel
    | cons c post ih =>
      intro pre fuel hsplit hfuel
      have hpos := hsize c
      rw [List.map_cons, List.sum_cons] at hfuel
      obtain ⟨fuel, rfl⟩ : ∃ k, fuel = k + 1 := ⟨fuel - 1, by omega⟩
      rw [run_piece hlen s _ hpos hsplit, hbody pre c post hsplit]
      by_cases hc : target c
      · rw [if_pos hc, ok_bind, List.find?_cons_of_pos hc, Option.elim_some]
      · have hrest := ih (pre ++ [c]) fuel (by rw [hsplit]; simp) (by omega)
        rw [List.map_append, List.sum_append, List.map_singleton, List.sum_singleton] at hrest
        rw [if_neg hc, ok_bind, List.find?_cons_of_neg hc]
        exact hrest
  have hstart := hrun pieces [] l.len rfl (le_of_eq hlen.symm)
  simpa [call] using hstart

/-- Loop rule: if the round at each piece goes on behind it, from the state for the pieces
before to the state with the piece, the loop is left in the state for all the pieces. -/
theorem call_of_states {γ : Type} {l : CursorLoop ε σ ρ} (size : γ → ℕ) (pieces : List γ)
    (hlen : l.len = (pieces.map size).sum) (hsize : ∀ c, 0 < size c) (state : List γ → σ)
    (hbody : ∀ pre c post, pieces = pre ++ c :: post → l.body (pre.map size).sum (state pre) =
      .ok (.next ((pre.map size).sum + size c : ℕ) (state (pre ++ [c])))) :
    l.call (state []) = l.done (state pieces) := by
  have hrun : ∀ post pre fuel, pieces = pre ++ post → (post.map size).sum ≤ fuel →
      l.run (fuel + 1) (pre.map size).sum (state pre) = l.done (state pieces) := by
    intro post
    induction post with
    | nil =>
      intro pre fuel hsplit _
      rw [List.append_nil] at hsplit
      subst hsplit
      exact run_behind hlen _ fuel
    | cons c post ih =>
      intro pre fuel hsplit hfuel
      have hpos := hsize c
      rw [List.map_cons, List.sum_cons] at hfuel
      obtain ⟨fuel, rfl⟩ : ∃ k, fuel = k + 1 := ⟨fuel - 1, by omega⟩
      have hrest := ih (pre ++ [c]) fuel (by rw [hsplit]; simp) (by omega)
      rw [List.map_append, List.sum_append, List.map_singleton, List.sum_singleton] at hrest
      rw [run_piece hlen _ _ hpos hsplit, hbody pre c post hsplit, ok_bind]
      exact hrest
  have hstart := hrun pieces [] l.len rfl (le_of_eq hlen.symm)
  simpa [call] using hstart

end CursorLoop

end Tsc.Go
