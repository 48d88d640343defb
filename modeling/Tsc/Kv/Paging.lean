import Tsc.Kv.Store
import Tsc.Go.Outcome

/-!
# Reading a store page by page

A query reads a range of the store from a start key, hands back what it made of
the entries it read and the key of the first entry it did not read. Asked again
with that key on the same store it goes on where it stopped. When every answer
that names a next key has read at least one entry, the requests come to an end and
their answers together are what one scan of the range gives.
-/

namespace Tsc.Kv

open Go

variable {K V α ε : Type} [LinearOrder K]

/-- The requests made from a key on, each with the next key of the answer before it,
up to the answer without one, and all they answer. -/
inductive Pages (query : Option K → Outcome ε (List α × Option K)) : Option K → List α → Prop
  | last {key : Option K} {page : List α} (h : query key = .ok (page, none)) :
      Pages query key page
  | next {key : Option K} {page rest : List α} {k : K} (h : query key = .ok (page, some k))
      (hrest : Pages query (some k) rest) : Pages query key (page ++ rest)

namespace Store

/-- A scan that starts at a key another scan came to sees the rest of that scan. -/
theorem iterator_resume (s : Store K V) {start : K} {stop : Option K} {l₁ l₂ : List (K × V)}
    {e : K × V} (h : s.iterator start stop = l₁ ++ e :: l₂) :
    s.iterator e.1 stop = e :: l₂ := by
  have hasc := s.iterator_ascending start stop
  have hmem : e ∈ s.iterator start stop := by
    rw [h]
    exact List.mem_append_right l₁ (List.mem_cons_self ..)
  have hstart : start ≤ e.1 := ((s.mem_iterator start stop e.1 e.2).mp hmem).2.1
  have hsub : s.iterator e.1 stop = (s.iterator start stop).filter fun x => decide (e.1 ≤ x.1) := by
    unfold iterator
    rw [List.filter_filter]
    apply List.filter_congr
    intro x _
    by_cases hx : e.1 ≤ x.1
    · simp [hx, hstart.trans hx]
    · simp [hx]
  rw [h, Ascending, List.pairwise_append, List.pairwise_cons] at hasc
  obtain ⟨_, ⟨hafter, _⟩, hbefore⟩ := hasc
  have hfront : l₁.filter (fun x => decide (e.1 ≤ x.1)) = [] := by
    rw [List.filter_eq_nil_iff]
    intro x hx
    simpa using hbefore x hx e (List.mem_cons_self ..)
  have hback : (e :: l₂).filter (fun x => decide (e.1 ≤ x.1)) = e :: l₂ := by
    rw [List.filter_eq_self]
    intro x hx
    rcases List.mem_cons.mp hx with hxe | hx
    · simp [hxe]
    · simpa using (hafter x hx).le
  rw [hsub, h, List.filter_append, hfront, hback, List.nil_append]

/-- `first` is where a request without a key starts. -/
theorem pages_eq_scan (s : Store K V) (first : K) (stop : Option K) (f : K × V → Option α)
    {query : Option K → Outcome ε (List α × Option K)}
    (hquery : ∀ key : Option K, first ≤ key.getD first → ∃ l₁ l₂,
      s.iterator (key.getD first) stop = l₁ ++ l₂ ∧
      query key = .ok (l₁.filterMap f, l₂.head?.map Prod.fst) ∧ (l₂ ≠ [] → l₁ ≠ []))
    (key : Option K) (hkey : first ≤ key.getD first) :
    Pages query key ((s.iterator (key.getD first) stop).filterMap f) := by
  -- on the number of entries the request has before it
  induction hn : (s.iterator (key.getD first) stop).length using Nat.strong_induction_on
    generalizing key with
  | _ n ih =>
    obtain ⟨l₁, l₂, hsplit, hanswer, hprogress⟩ := hquery key hkey
    cases l₂ with
    | nil =>
      rw [hsplit, List.append_nil]
      exact Pages.last hanswer
    | cons e l₂ =>
      have hresume := s.iterator_resume hsplit
      have hmem : e ∈ s.iterator (key.getD first) stop := by
        rw [hsplit]
        exact List.mem_append_right l₁ (List.mem_cons_self ..)
      have hfirst : first ≤ e.1 :=
        hkey.trans ((s.mem_iterator _ stop e.1 e.2).mp hmem).2.1
      have hlt : (e :: l₂).length < n := by
        have hpos := List.length_pos_of_ne_nil (hprogress (List.cons_ne_nil e l₂))
        rw [← hn, hsplit, List.length_append]
        omega
      have hrest := ih _ hlt (some e.1) hfirst (by rw [Option.getD_some, hresume])
      rw [Option.getD_some, hresume] at hrest
      rw [hsplit, List.filterMap_append]
      exact Pages.next hanswer hrest

end Store

/-! ### Pages by offset -/

theorem flatMap_pages (l : List α) (limit n : ℕ) :
    (List.range n).flatMap (fun i => (l.drop (i * limit)).take limit) = l.take (n * limit) := by
  induction n with
  | zero => simp
  | succ n ih =>
    rw [List.range_succ, List.flatMap_append, ih, List.flatMap_cons, List.flatMap_nil,
      List.append_nil, Nat.succ_mul, List.take_add]

/-- The first page of a list without duplicates shows each element once only if it is
the whole list. -/
theorem count_take_eq_one_iff [DecidableEq α] {l : List α} (hl : l.Nodup) (limit : ℕ) :
    (∀ x ∈ l, (l.take limit).count x = 1) ↔ l.length ≤ limit := by
  constructor
  · intro hone
    by_contra hlt
    rw [not_le] at hlt
    have hcount := hone _ (List.getElem_mem hlt)
    rw [List.count_eq_zero_of_not_mem] at hcount
    · cases hcount
    · intro hmem
      obtain ⟨i, hi, heq⟩ := List.mem_take_iff_getElem.mp hmem
      have hsame := (hl.getElem_inj_iff).mp heq
      omega
  · intro hle x hx
    rw [List.take_of_length_le hle]
    exact List.count_eq_one_of_mem hl hx

end Tsc.Kv
