import Tsc.Lockup.Delegations

/-!
# Redelegation marks (`x/lockup/keeper/hooks.go:16-44`)

A mark is one byte string, the delegator's address, a zero byte and the validator's.
An address may have any length and may contain zero bytes, so two pairs share a mark
if the one byte string can be split at two of its zero bytes.
-/

namespace Tsc.Lockup

open Go Sdk

/-- The pairs `(d, v)` and `(d', v')` split one byte string at two different zero bytes. -/
def Shifted (d d' : AccAddress) (v v' : ValAddress) : Prop :=
  ∃ m, (d' = d ++ 0 :: m ∧ v = m ++ 0 :: v') ∨ (d = d' ++ 0 :: m ∧ v' = m ++ 0 :: v)

theorem cons_eq_append_cons_iff {α : Type} {x : α} {l m l' : List α} :
    x :: l = m ++ x :: l' ↔ (m = [] ∧ l = l') ∨ ∃ m', m = x :: m' ∧ l = m' ++ x :: l' := by
  cases m with
  | nil => simp
  | cons y m => simp [eq_comm]

theorem redelegateMapKey_eq_iff {d d' : AccAddress} {v v' : ValAddress} :
    redelegateMapKey d v = redelegateMapKey d' v' ↔ (d = d' ∧ v = v') ∨ Shifted d d' v v' := by
  unfold redelegateMapKey Shifted
  rw [List.append_assoc, List.append_assoc, List.singleton_append, List.singleton_append,
    List.append_eq_append_iff]
  simp only [cons_eq_append_cons_iff]
  grind

theorem not_shifted_of_length_eq {d d' : AccAddress} {v v' : ValAddress}
    (h : d.length = d'.length) : ¬ Shifted d d' v v' := by
  rintro ⟨m, ⟨hd, -⟩ | ⟨hd, -⟩⟩
  · have hlen := congrArg List.length hd
    rw [List.length_append, List.length_cons] at hlen
    omega
  · have hlen := congrArg List.length hd
    rw [List.length_append, List.length_cons] at hlen
    omega

theorem Shifted.zero_mem {d d' : AccAddress} {v v' : ValAddress} (h : Shifted d d' v v') :
    (0 ∈ d' ∧ 0 ∈ v) ∨ (0 ∈ d ∧ 0 ∈ v') := by
  rcases h with ⟨m, ⟨rfl, rfl⟩ | ⟨rfl, rfl⟩⟩
  · exact Or.inl (by simp)
  · exact Or.inr (by simp)

/-! ### Sequences of calls -/

/-- `WithRedelegating` for each pair, as the marker decorator calls it. -/
def withRedelegatingAll (ctx : Ctx) (calls : List (AccAddress × ValAddress)) : Ctx :=
  calls.foldl (fun ctx call => withRedelegating ctx call.1 call.2) ctx

theorem isRedelegating_withRedelegating (ctx : Ctx) (d d' : AccAddress) (v v' : ValAddress) :
    isRedelegating (withRedelegating ctx d' v') d v ↔
      redelegateMapKey d v = redelegateMapKey d' v' ∨ isRedelegating ctx d v := List.mem_cons

theorem isRedelegating_withRedelegatingAll (ctx : Ctx) (calls : List (AccAddress × ValAddress))
    (d : AccAddress) (v : ValAddress) :
    isRedelegating (withRedelegatingAll ctx calls) d v ↔ isRedelegating ctx d v ∨
      ∃ call ∈ calls, redelegateMapKey d v = redelegateMapKey call.1 call.2 := by
  induction calls generalizing ctx with
  | nil => simp [withRedelegatingAll]
  | cons call calls ih =>
    refine (ih (withRedelegating ctx call.1 call.2)).trans ?_
    rw [isRedelegating_withRedelegating, List.exists_mem_cons_iff, or_right_comm, or_comm,
      or_left_comm]

section Unmarked

variable (ctx : Ctx) (hctx : ctx.redelegating = []) (calls : List (AccAddress × ValAddress))
  (d : AccAddress) (v : ValAddress)
include hctx

theorem isRedelegating_iff_passed :
    isRedelegating (withRedelegatingAll ctx calls) d v ↔
      (d, v) ∈ calls ∨ ∃ call ∈ calls, Shifted d call.1 v call.2 := by
  have hnone : ¬ isRedelegating ctx d v := by
    unfold isRedelegating
    rw [hctx]
    exact List.not_mem_nil
  rw [isRedelegating_withRedelegatingAll]
  simp only [hnone, false_or, redelegateMapKey_eq_iff, and_or_left, exists_or]
  refine or_congr_left ?_
  constructor
  · rintro ⟨call, hcall, rfl, rfl⟩
    exact hcall
  · intro hcall
    exact ⟨(d, v), hcall, rfl, rfl⟩

/-- Among delegators with addresses of one length the marks are exact. -/
theorem isRedelegating_iff_of_length (hlen : ∀ call ∈ calls, d.length = call.1.length) :
    isRedelegating (withRedelegatingAll ctx calls) d v ↔ (d, v) ∈ calls := by
  rw [isRedelegating_iff_passed ctx hctx]
  refine or_iff_left ?_
  rintro ⟨call, hcall, hshift⟩
  exact not_shifted_of_length_eq (hlen call hcall) hshift

/-- The mark of a pair is found exactly if the pair was passed, unless it was not and
another pair with the same mark was. -/
theorem redelegation_marks_exact_iff :
    (isRedelegating (withRedelegatingAll ctx calls) d v ↔ (d, v) ∈ calls) ↔
      ((d, v) ∈ calls ∨ ∀ call ∈ calls, ¬ Shifted d call.1 v call.2) := by
  rw [isRedelegating_iff_passed ctx hctx]
  by_cases hpassed : (d, v) ∈ calls
  · simp [hpassed]
  · simp [hpassed]

end Unmarked

def unmarked : Ctx := ⟨⟨⟨0⟩, by decide⟩, []⟩

/-- The end of one delegator's address reads as the start of the validator's. -/
theorem redelegation_mark_shared :
    isRedelegating (withRedelegatingAll unmarked [([1, 0, 2], [3])]) [1] [2, 0, 3] ∧
      (([1], [2, 0, 3]) : AccAddress × ValAddress) ∉
        ([([1, 0, 2], [3])] : List (AccAddress × ValAddress)) := by
  decide

theorem redelegation_marks_exact_sample :
    ¬ isRedelegating (withRedelegatingAll unmarked [([1, 0, 2], [3]), ([1], [4])]) [1] [3] := by
  have hiff := redelegation_marks_exact_iff unmarked rfl [([1, 0, 2], [3]), ([1], [4])] [1] [3]
  have hapart : ∀ call ∈ [(([1, 0, 2], [3]) : AccAddress × ValAddress), ([1], [4])],
      ¬ Shifted [1] call.1 [3] call.2 := by
    intro call _ hshift
    rcases hshift.zero_mem with h | h
    · exact absurd h.2 (by decide)
    · exact absurd h.1 (by decide)
  intro hmarked
  exact absurd ((hiff.mpr (Or.inr hapart)).mp hmarked) (by decide)

end Tsc.Lockup
