import Mathlib.Tactic

/-!
# Outcomes of Go calls

A Go call ends with a value, with a returned error, with a run-time panic, or
not at all. Calls are sequenced in `Except`, so the first bad outcome stops the
caller, as `if err != nil { return err }` and an unrecovered panic do.
-/

namespace Tsc.Go

inductive Fault (ε : Type) where
  | err (e : ε)
  | panic (why : String)
  | hang
  deriving Repr, DecidableEq

abbrev Outcome (ε α : Type) := Except (Fault ε) α

variable {ε α β : Type}

/-- `if c { return f }`. -/
def failIf (c : Prop) [Decidable c] (f : Fault ε) : Outcome ε Unit :=
  if c then .error f else .ok ()

@[simp] theorem failIf_eq_ok (c : Prop) [Decidable c] (f : Fault ε) (u : Unit) :
    failIf c f = .ok u ↔ ¬ c := by
  unfold failIf
  split <;> simp_all

theorem failIf_of_not {c : Prop} [Decidable c] (f : Fault ε) (h : ¬ c) :
    failIf c f = .ok () := (failIf_eq_ok c f ()).mpr h

theorem failIf_of {c : Prop} [Decidable c] (f : Fault ε) (h : c) : failIf c f = .error f := if_pos h

theorem bind_eq_ok (x : Outcome ε α) (f : α → Outcome ε β) (b : β) :
    (x >>= f) = .ok b ↔ ∃ a, x = .ok a ∧ f a = .ok b := by
  cases x with
  | error e => simp [bind, Except.bind]
  | ok a => simp [bind, Except.bind]

@[simp] theorem ok_bind (a : α) (f : α → Outcome ε β) : (Except.ok a >>= f) = f a := rfl

@[simp] theorem error_bind (e : Fault ε) (f : α → Outcome ε β) :
    (Except.error e >>= f) = .error e := rfl

theorem exists_of_isOk {x : Outcome ε α} (h : x.isOk = true) : ∃ a, x = .ok a := by
  cases x with
  | ok a => exact ⟨a, rfl⟩
  | error e => cases h

def ofOption (f : Fault ε) : Option α → Outcome ε α
  | none => .error f
  | some a => .ok a

@[simp] theorem ofOption_eq_ok (f : Fault ε) (o : Option α) (a : α) :
    ofOption f o = .ok a ↔ o = some a := by
  cases o <;> simp [ofOption]

/-- `for _, a := range l { s = body(s, a) }`, stopped by the first fault. -/
def forRange (body : β → α → Outcome ε β) : β → List α → Outcome ε β
  | s, [] => .ok s
  | s, a :: l => body s a >>= fun s' => forRange body s' l

theorem forRange_cons (body : β → α → Outcome ε β) (s : β) (a : α) (l : List α) :
    forRange body s (a :: l) = body s a >>= fun s' => forRange body s' l := rfl

theorem forRange_bind (body : β → α → Outcome ε β) (s : β) (l m : List α) :
    forRange body s (l ++ m) = forRange body s l >>= fun s' => forRange body s' m := by
  induction l generalizing s with
  | nil => rfl
  | cons a l ih =>
    rw [List.cons_append, forRange_cons, forRange_cons, bind_assoc]
    exact bind_congr ih

theorem forRange_concat (body : β → α → Outcome ε β) (s : β) (l : List α) (a : α) :
    forRange body s (l ++ [a]) = forRange body s l >>= fun s' => body s' a := by
  rw [forRange_bind]
  exact bind_congr fun s' => bind_pure (body s' a)

theorem forRange_map {γ : Type} (body : β → α → Outcome ε β) (f : γ → α) (s : β) (l : List γ) :
    forRange body s (l.map f) = forRange (fun s c => body s (f c)) s l := by
  induction l generalizing s with
  | nil => rfl
  | cons c l ih =>
    rw [List.map_cons, forRange_cons, forRange_cons]
    congr 1
    funext s'
    exact ih s'

theorem forRange_congr {body body' : β → α → Outcome ε β} {l : List α}
    (h : ∀ a ∈ l, ∀ s, body s a = body' s a) (s : β) : forRange body s l = forRange body' s l := by
  induction l generalizing s with
  | nil => rfl
  | cons a l ih =>
    rw [forRange_cons, forRange_cons, h a (List.mem_cons_self ..)]
    congr 1
    funext s'
    exact ih (fun b hb => h b (List.mem_cons_of_mem _ hb)) s'

/-- Loop rule: elements that `f` leaves out are passed by. -/
theorem forRange_filterMap {γ : Type} {body : β → α → Outcome ε β} {body' : β → γ → Outcome ε β}
    {f : α → Option γ} {l : List α}
    (h : ∀ a ∈ l, ∀ s, body s a = (f a).elim (.ok s) (body' s)) (s : β) :
    forRange body s l = forRange body' s (l.filterMap f) := by
  induction l generalizing s with
  | nil => rfl
  | cons a l ih =>
    have hrest := ih fun b hb => h b (List.mem_cons_of_mem _ hb)
    rw [forRange_cons, h a (List.mem_cons_self ..)]
    cases hf : f a with
    | none =>
      rw [List.filterMap_cons_none hf, Option.elim_none, ok_bind]
      exact hrest s
    | some c =>
      rw [List.filterMap_cons_some hf, forRange_cons, Option.elim_some]
      exact bind_congr hrest

theorem forRange_filter {body : β → α → Outcome ε β} {p : α → Prop} [DecidablePred p] {l : List α}
    (h : ∀ a ∈ l, ¬ p a → ∀ s, body s a = .ok s) (s : β) :
    forRange body s l = forRange body s (l.filter fun a => p a) := by
  induction l generalizing s with
  | nil => rfl
  | cons a l ih =>
    have hrest := ih fun b hb => h b (List.mem_cons_of_mem _ hb)
    rw [forRange_cons, List.filter_cons]
    by_cases ha : p a
    · rw [if_pos (decide_eq_true ha), forRange_cons]
      exact bind_congr hrest
    · rw [if_neg (by simpa using ha), h a (List.mem_cons_self ..) ha, ok_bind, hrest]

/-- Loop rule: a second part of the state that takes no part in the calls. -/
theorem forRange_prod {γ : Type} {body : β → α → Outcome ε β} {g : γ → α → γ} {l : List α}
    (c : γ) (s : β) :
    forRange (fun (p : γ × β) a => body p.2 a >>= fun s' => .ok (g p.1 a, s')) (c, s) l =
      forRange body s l >>= fun s' => .ok (l.foldl g c, s') := by
  induction l generalizing c s with
  | nil => rfl
  | cons a l ih =>
    rw [forRange_cons, forRange_cons, bind_assoc, bind_assoc]
    refine bind_congr fun s' => ?_
    rw [ok_bind, ih, List.foldl_cons]

/-- Loop rule: a loop on a richer state that returns whenever, and with the state that,
the plain one does. -/
theorem forRange_proj {γ : Type} {body : β → α → Outcome ε β} {body' : γ → α → Outcome ε γ}
    {p : γ → β} {l : List α}
    (h : ∀ a ∈ l, ∀ c s', (∃ c', body' c a = .ok c' ∧ p c' = s') ↔ body (p c) a = .ok s') (c : γ)
    (s' : β) : (∃ c', forRange body' c l = .ok c' ∧ p c' = s') ↔ forRange body (p c) l = .ok s' := by
  induction l generalizing c with
  | nil =>
    constructor
    · intro hc
      obtain ⟨c', heq, rfl⟩ := hc
      cases heq
      rfl
    · intro hs
      cases hs
      exact ⟨c, rfl, rfl⟩
  | cons a l ih =>
    have hrest := ih fun b hb => h b (List.mem_cons_of_mem _ hb)
    have hhead := h a (List.mem_cons_self ..) c
    simp only [forRange_cons, bind_eq_ok]
    constructor
    · intro hc
      obtain ⟨c', ⟨c₁, h₁, h₂⟩, hp⟩ := hc
      exact ⟨p c₁, (hhead _).mp ⟨c₁, h₁, rfl⟩, (hrest c₁).mp ⟨c', h₂, hp⟩⟩
    · intro hs
      obtain ⟨s₁, h₁, h₂⟩ := hs
      obtain ⟨c₁, hc₁, rfl⟩ := (hhead _).mpr h₁
      obtain ⟨c', hc', hp⟩ := (hrest c₁).mpr h₂
      exact ⟨c', ⟨c₁, hc₁, hc'⟩, hp⟩

/-- Loop rule: what every iteration preserves holds when the loop is left. -/
theorem forRange_invariant {body : β → α → Outcome ε β} (P : β → Prop) {l : List α} {s s' : β}
    (hstep : ∀ a ∈ l, ∀ u u', P u → body u a = .ok u' → P u')
    (hs : P s) (h : forRange body s l = .ok s') : P s' := by
  induction l generalizing s with
  | nil =>
    cases h
    exact hs
  | cons a l ih =>
    rw [forRange_cons, bind_eq_ok] at h
    obtain ⟨u, hu, hr⟩ := h
    exact ih (fun b hb => hstep b (List.mem_cons_of_mem _ hb))
      (hstep a (List.mem_cons_self ..) s u hs hu) hr

/-- Loop rule for two bodies: under the invariant, what the one returns the other returns. -/
theorem forRange_follows {body body' : β → α → Outcome ε β} (P : β → Prop) {l : List α} {s s' : β}
    (hstep : ∀ a ∈ l, ∀ u u', P u → body u a = .ok u' → body' u a = .ok u' ∧ P u')
    (hs : P s) (h : forRange body s l = .ok s') : forRange body' s l = .ok s' ∧ P s' := by
  induction l generalizing s with
  | nil =>
    cases h
    exact ⟨rfl, hs⟩
  | cons a l ih =>
    rw [forRange_cons, bind_eq_ok] at h
    obtain ⟨u, hu, hr⟩ := h
    obtain ⟨hu', hP⟩ := hstep a (List.mem_cons_self ..) s u hs hu
    rw [forRange_cons, hu', ok_bind]
    exact ih (fun b hb => hstep b (List.mem_cons_of_mem _ hb)) hP hr

theorem forRange_returns {body : β → α → Outcome ε β} {l : List α}
    (h : ∀ s, ∀ a ∈ l, ∃ s', body s a = .ok s') (s : β) : ∃ s', forRange body s l = .ok s' := by
  induction l generalizing s with
  | nil => exact ⟨s, rfl⟩
  | cons a l ih =>
    obtain ⟨u, hu⟩ := h s a (List.mem_cons_self ..)
    obtain ⟨s', hs'⟩ := ih (fun s b hb => h s b (List.mem_cons_of_mem _ hb)) u
    exact ⟨s', by rw [forRange_cons, hu, ok_bind, hs']⟩

/-- Loop rule for a running total: every iteration adds the amount of its element. -/
theorem forRange_sum {M : Type} [AddCommMonoid M] {body : β → α → Outcome ε β} (P : β → Prop)
    (f : β → M) (g : α → M) {l : List α} {s s' : β}
    (hstep : ∀ a ∈ l, ∀ u u', P u → body u a = .ok u' → P u' ∧ f u' = f u + g a)
    (hs : P s) (h : forRange body s l = .ok s') : f s' = f s + (l.map g).sum := by
  induction l generalizing s with
  | nil =>
    cases h
    rw [List.map_nil, List.sum_nil, add_zero]
  | cons a l ih =>
    rw [forRange_cons, bind_eq_ok] at h
    obtain ⟨u, hu, hr⟩ := h
    obtain ⟨hP, hf⟩ := hstep a (List.mem_cons_self ..) s u hs hu
    rw [ih (fun b hb => hstep b (List.mem_cons_of_mem _ hb)) hP hr, hf, List.map_cons,
      List.sum_cons, add_assoc]

/-- Loop rule for `out = append(out, w(f(a)))` where every call of `f` returns. -/
theorem forRange_append {γ δ : Type} {f : α → Outcome ε γ} {g : α → γ} {w : γ → δ} {l : List α}
    (h : ∀ a ∈ l, f a = .ok (g a)) (acc : List δ) :
    forRange (fun out a => f a >>= fun c => .ok (out ++ [w c])) acc l =
      .ok (acc ++ l.map fun a => w (g a)) := by
  induction l generalizing acc with
  | nil => simp [forRange]
  | cons a l ih =>
    rw [forRange_cons, h a (List.mem_cons_self ..), ok_bind, ok_bind,
      ih fun b hb => h b (List.mem_cons_of_mem _ hb), List.map_cons, List.append_assoc,
      List.singleton_append]

theorem forRange_mem_ok {body : β → α → Outcome ε β} {l : List α} {s s' : β}
    (h : forRange body s l = .ok s') {a : α} (ha : a ∈ l) : ∃ u u', body u a = .ok u' := by
  induction l generalizing s with
  | nil => cases ha
  | cons b l ih =>
    rw [forRange_cons, bind_eq_ok] at h
    obtain ⟨u, hu, hr⟩ := h
    rcases List.mem_cons.mp ha with rfl | ha
    · exact ⟨s, u, hu⟩
    · exact ih hr ha

end Tsc.Go
