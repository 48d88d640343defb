import Mathlib.Data.List.Basic
import Mathlib.Tactic

/-!
# Steps that matter per key

A list of inputs is worked off one by one, each with a step that may fail. If steps of
different keys commute, only the order among inputs of one key matters: two lists with
the same inputs in the same order for every key lead to the same state, or both fail.
-/

namespace Tsc.Kv

variable {α κ σ : Type} {key : α → κ} {step : σ → α → Option σ}

/-- In either order the two steps lead to the same state, or one of them fails. -/
def CommuteAcross (key : α → κ) (step : σ → α → Option σ) : Prop :=
  ∀ a b s, key a ≠ key b → (step s a).bind (step · b) = (step s b).bind (step · a)

/-- An input moves to the front past inputs of other keys. -/
theorem foldlM_front (hc : CommuteAcross key step) {a : α} {l : List α}
    (hl : ∀ b ∈ l, key b ≠ key a) (r : List α) (s : σ) :
    (l ++ a :: r).foldlM step s = (a :: (l ++ r)).foldlM step s := by
  induction l generalizing s with
  | nil => rfl
  | cons b l ih =>
    obtain ⟨hb, hl⟩ := List.forall_mem_cons.mp hl
    calc (b :: l ++ a :: r).foldlM step s
        = (step s b).bind fun t => (l ++ a :: r).foldlM step t := rfl
      _ = (step s b).bind fun t => (step t a).bind fun u => (l ++ r).foldlM step u := by
          congr 1
          funext t
          exact ih hl t
      _ = ((step s b).bind (step · a)).bind fun u => (l ++ r).foldlM step u :=
          (Option.bind_assoc _ _ _).symm
      _ = ((step s a).bind (step · b)).bind fun u => (l ++ r).foldlM step u := by
          rw [hc b a s hb]
      _ = (a :: (b :: l ++ r)).foldlM step s := Option.bind_assoc _ _ _

section OfKey

variable [DecidableEq κ]

/-- The inputs of key `k`, in their order. -/
def ofKey (key : α → κ) (k : κ) (l : List α) : List α := l.filter fun a => key a = k

theorem ofKey_append (k : κ) (l l' : List α) :
    ofKey key k (l ++ l') = ofKey key k l ++ ofKey key k l' :=
  List.filter_append ..

theorem ofKey_cons_self (a : α) (l : List α) :
    ofKey key (key a) (a :: l) = a :: ofKey key (key a) l :=
  List.filter_cons_of_pos (decide_eq_true rfl)

theorem ofKey_cons_of_ne {a : α} {k : κ} (h : key a ≠ k) (l : List α) :
    ofKey key k (a :: l) = ofKey key k l :=
  List.filter_cons_of_neg (by simpa using h)

theorem foldlM_eq_of_ofKey (hc : CommuteAcross key step) {l l' : List α}
    (h : ∀ k, ofKey key k l' = ofKey key k l) (s : σ) :
    l'.foldlM step s = l.foldlM step s := by
  induction l generalizing l' s with
  | nil =>
    cases l' with
    | nil => rfl
    | cons b l' =>
      have hb := h (key b)
      rw [ofKey_cons_self] at hb
      cases hb
  | cons a l ih =>
    -- the first input of `a`'s key in the other list is `a` itself
    have ha := h (key a)
    rw [ofKey_cons_self] at ha
    obtain ⟨pre, post, rfl, hpre, -, hpost⟩ := List.filter_eq_cons_iff.mp ha
    have hother : ∀ b ∈ pre, key b ≠ key a := by
      intro b hb heq
      exact hpre b hb (decide_eq_true heq)
    have hnone : ofKey key (key a) pre = [] := List.filter_eq_nil_iff.mpr hpre
    rw [foldlM_front hc hother]
    have hrest : ∀ t, (pre ++ post).foldlM step t = l.foldlM step t := by
      intro t
      apply ih
      intro k
      rw [ofKey_append]
      by_cases hk : key a = k
      · subst hk
        rw [hnone, List.nil_append]
        exact hpost
      · have hkeep := h k
        rw [ofKey_append, ofKey_cons_of_ne hk, ofKey_cons_of_ne hk] at hkeep
        exact hkeep
    show (step s a).bind (fun t => (pre ++ post).foldlM step t) =
      (step s a).bind fun t => l.foldlM step t
    rw [funext hrest]

end OfKey

/-- Inputs whose step does nothing may be left out. -/
theorem foldlM_filter {P : α → Prop} [DecidablePred P]
    (hidle : ∀ a s, ¬ P a → step s a = some s) (l : List α) (s : σ) :
    (l.filter fun a => P a).foldlM step s = l.foldlM step s := by
  induction l generalizing s with
  | nil => rfl
  | cons a l ih =>
    by_cases ha : P a
    · rw [List.filter_cons_of_pos (by simpa using ha)]
      show (step s a).bind _ = (step s a).bind _
      rw [funext ih]
    · rw [List.filter_cons_of_neg (by simpa using ha), ih]
      show _ = (step s a).bind _
      rw [hidle a s ha]
      rfl

end Tsc.Kv
