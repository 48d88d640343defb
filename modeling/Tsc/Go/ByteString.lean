import Mathlib.Data.List.Lex
import Mathlib.Order.Fin.Basic
import Mathlib.Tactic

/-!
# Byte strings and their order

Go strings and byte slices as lists of bytes, compared byte-wise as Go's `<` on
strings and the ordered store compare them, and the fixed-width big-endian
numerals of `binary.BigEndian`. On numerals of one width the byte-wise order is
the numeric order.
-/

namespace Tsc.Go

abbrev Byte := Fin 256
abbrev Bytes := List Byte

/-- Byte literals in every module stand on this instance. -/
instance byteNeZero : NeZero 256 := ⟨by decide⟩

def ascii (s : String) : Bytes := s.toList.map fun c => Fin.ofNat 256 c.toNat

/-! ### `strings.TrimSpace` -/

/-- The UTF-8 texts of the code points that `unicode.IsSpace` holds of. -/
def spaceTexts : List Bytes :=
  [[9], [10], [11], [12], [13], [32], [194, 133], [194, 160], [225, 154, 128],
    [226, 128, 128], [226, 128, 129], [226, 128, 130], [226, 128, 131], [226, 128, 132],
    [226, 128, 133], [226, 128, 134], [226, 128, 135], [226, 128, 136], [226, 128, 137],
    [226, 128, 138], [226, 128, 168], [226, 128, 169], [226, 128, 175], [226, 129, 159],
    [227, 128, 128]]

/-- Takes texts off the front, at most `fuel` of them. -/
def trimFront (texts : List Bytes) : ℕ → Bytes → Bytes
  | 0, s => s
  | fuel + 1, s =>
    match texts.find? (List.isPrefixOf · s) with
    | none => s
    | some t => trimFront texts fuel (s.drop t.length)

def trimSpace (s : Bytes) : Bytes :=
  let s := trimFront spaceTexts s.length s
  (trimFront (spaceTexts.map List.reverse) s.length s.reverse).reverse

example : trimSpace (ascii " \tab c\n") = ascii "ab c" := by decide

/-! ### Numerals -/

def beValFrom (acc : ℕ) : Bytes → ℕ
  | [] => acc
  | b :: bs => beValFrom (acc * 256 + b.val) bs

/-- `BigEndian.Uint64` on a numeral of any width. -/
def beVal (bs : Bytes) : ℕ := beValFrom 0 bs

/-- The big-endian numeral of `v` in `n` bytes; `PutUint64` at `n = 8`. -/
def beBytes : ℕ → ℕ → Bytes
  | 0, _ => []
  | n + 1, v => Fin.ofNat 256 (v / 256 ^ n) :: beBytes n v

theorem beBytes_length (n v : ℕ) : (beBytes n v).length = n := by
  induction n with
  | zero => rfl
  | succ n ih => simp [beBytes, ih]

theorem beValFrom_eq (acc : ℕ) (bs : Bytes) :
    beValFrom acc bs = acc * 256 ^ bs.length + beVal bs := by
  induction bs generalizing acc with
  | nil => simp [beValFrom, beVal]
  | cons b bs ih =>
    simp only [beVal, beValFrom, List.length_cons]
    rw [ih, ih (0 * 256 + b.val), pow_succ]
    ring

theorem beVal_cons (b : Byte) (bs : Bytes) :
    beVal (b :: bs) = b.val * 256 ^ bs.length + beVal bs := by
  show beValFrom (0 * 256 + b.val) bs = _
  rw [beValFrom_eq]
  simp

theorem beVal_lt (bs : Bytes) : beVal bs < 256 ^ bs.length := by
  induction bs with
  | nil => simp [beVal, beValFrom]
  | cons b bs ih =>
    rw [beVal_cons, List.length_cons, pow_succ]
    have hb : b.val + 1 ≤ 256 := b.isLt
    calc b.val * 256 ^ bs.length + beVal bs
        < b.val * 256 ^ bs.length + 256 ^ bs.length := by omega
      _ = (b.val + 1) * 256 ^ bs.length := by ring
      _ ≤ 256 * 256 ^ bs.length := Nat.mul_le_mul_right _ hb
      _ = 256 ^ bs.length * 256 := by ring

theorem beVal_beBytes (n v : ℕ) : beVal (beBytes n v) = v % 256 ^ n := by
  induction n with
  | zero => simp [beBytes, beVal, beValFrom, Nat.mod_one]
  | succ n ih =>
    rw [beBytes, beVal_cons, ih, beBytes_length, pow_succ, Nat.mod_mul]
    show v / 256 ^ n % 256 * 256 ^ n + v % 256 ^ n = _
    ring

theorem lt_iff_beVal_lt (a b : Bytes) (h : a.length = b.length) :
    a < b ↔ beVal a < beVal b := by
  induction a generalizing b with
  | nil =>
    cases b with
    | nil => simp [beVal, beValFrom]
    | cons y ys => simp at h
  | cons x xs ih =>
    cases b with
    | nil => simp at h
    | cons y ys =>
      have hlen : xs.length = ys.length := by simpa using h
      have hx := beVal_lt xs
      have hy := beVal_lt ys
      rw [List.cons_lt_cons_iff, ih ys hlen, beVal_cons, beVal_cons, hlen]
      rw [hlen] at hx
      rcases lt_trichotomy x y with hxy | hxy | hxy
      · have hv : x.val + 1 ≤ y.val := hxy
        have hm : (x.val + 1) * 256 ^ ys.length ≤ y.val * 256 ^ ys.length :=
          Nat.mul_le_mul_right _ hv
        have hr : (x.val + 1) * 256 ^ ys.length = x.val * 256 ^ ys.length + 256 ^ ys.length := by
          ring
        constructor
        · intro _
          omega
        · intro _
          exact Or.inl hxy
      · subst hxy
        simp
      · have hv : y.val + 1 ≤ x.val := hxy
        have hm : (y.val + 1) * 256 ^ ys.length ≤ x.val * 256 ^ ys.length :=
          Nat.mul_le_mul_right _ hv
        have hr : (y.val + 1) * 256 ^ ys.length = y.val * 256 ^ ys.length + 256 ^ ys.length := by
          ring
        constructor
        · rintro (hlt | ⟨heq, _⟩)
          · exact absurd hlt (not_lt.mpr hxy.le)
          · exact absurd heq (ne_of_gt hxy)
        · intro hlt
          omega

theorem append_lt_append_iff (a b x y : Bytes) (h : a.length = b.length) :
    a ++ x < b ++ y ↔ a < b ∨ (a = b ∧ x < y) := by
  induction a generalizing b with
  | nil =>
    cases b with
    | nil => simp
    | cons c cs => simp at h
  | cons c cs ih =>
    cases b with
    | nil => simp at h
    | cons d ds =>
      have hlen : cs.length = ds.length := by simpa using h
      simp only [List.cons_append, List.cons_lt_cons_iff, ih ds hlen, List.cons.injEq]
      tauto

theorem append_left_lt_iff (a x y : Bytes) : a ++ x < a ++ y ↔ x < y := by
  rw [append_lt_append_iff a a x y rfl]
  simp

end Tsc.Go
