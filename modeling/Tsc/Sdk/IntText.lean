import Tsc.Sdk.Math
import Tsc.Go.CursorLoop
import Tsc.Go.Time

/-!
# The stored form of `math.Int`

`math.Int` is stored as the decimal text of its value, zero for a nil `Int`. Reading it
back goes through `big.Int.UnmarshalText`, which takes more than decimal texts (other
bases, underscores); all that is assumed of it is that it reads decimal texts right and
never panics.
-/

namespace Tsc.Sdk

open Go

/-! ### Decimal texts -/

/-- `big.Int.MarshalText`. -/
def decimalText (x : ℤ) : Bytes :=
  (if x < 0 then [45] else []) ++
    if x = 0 then [48] else ((10).digits x.natAbs).reverse.map digitByte

structure TextReader where
  unmarshalText : Bytes → Out ℤ
  settles : ∀ data, Settles (unmarshalText data)
  decimal : ∀ x, unmarshalText (decimalText x) = .ok x

theorem decimalText_pos (x : ℤ) : 0 < (decimalText x).length := by
  unfold decimalText
  by_cases h0 : x = 0
  · rw [if_pos h0, List.length_append]
    exact Nat.succ_pos _
  · have hd : (10).digits x.natAbs ≠ [] := by
      rw [Ne, Nat.digits_eq_nil_iff_eq_zero]
      omega
    rw [if_neg h0, List.length_append, List.length_map, List.length_reverse]
    have hpos := List.length_pos_iff.mpr hd
    omega

/-- 2 ^ 256 has 78 digits. -/
theorem decimalText_length {x : ℤ} (h : InRange x) : (decimalText x).length ≤ 79 := by
  have hd : ((10).digits x.natAbs).length ≤ 78 := by
    rw [Nat.digits_length_le_iff (by norm_num)]
    have hb : x.natAbs < 2 ^ 256 := by
      unfold InRange intBound at h
      omega
    exact hb.trans (by norm_num)
  have hsign : (if x < 0 then ([45] : Bytes) else []).length ≤ 1 := by
    split_ifs <;> simp
  unfold decimalText
  rw [List.length_append]
  by_cases h0 : x = 0
  · rw [if_pos h0, List.length_singleton]
    omega
  · rw [if_neg h0, List.length_map, List.length_reverse]
    omega

/-! ### A reader of decimal texts -/

def readDigits (ds : Bytes) : ℕ := ds.foldl (fun v b => 10 * v + (b.val - 48)) 0

def readUnsigned (ds : Bytes) : Out ℤ :=
  if ds ≠ [] ∧ ∀ b ∈ ds, isDigit b then .ok (readDigits ds)
  else .error (fail .plain "math/big: cannot unmarshal %q into a *big.Int" [.str ds])

def readDecimal (data : Bytes) : Out ℤ :=
  if data.head? = some 45 then do
    let v ← readUnsigned data.tail
    .ok (-v)
  else readUnsigned data

theorem readDigits_digits (n : ℕ) : readDigits (((10).digits n).reverse.map digitByte) = n := by
  have hsum : ∀ ds : List ℕ, (∀ d ∈ ds, d < 10) →
      readDigits (ds.reverse.map digitByte) = Nat.ofDigits 10 ds := by
    intro ds hds
    induction ds with
    | nil => rfl
    | cons d ds ih =>
      obtain ⟨hd, hds⟩ := List.forall_mem_cons.mp hds
      have hval : (digitByte d).val - 48 = d := by
        have hmod : (digitByte d).val = (48 + d) % 256 := rfl
        omega
      rw [List.reverse_cons, List.map_append, readDigits, List.foldl_append]
      change 10 * readDigits (ds.reverse.map digitByte) + ((digitByte d).val - 48) = _
      rw [ih hds, hval, Nat.ofDigits_cons]
      ring
  rw [hsum _ fun d hd => Nat.digits_lt_base (by norm_num) hd, Nat.ofDigits_digits]

theorem isDigit_digitByte {d : ℕ} (h : d < 10) : isDigit (digitByte d) := by
  have hmod : (digitByte d).val = (48 + d) % 256 := rfl
  unfold isDigit
  omega

theorem readUnsigned_settles (ds : Bytes) : Settles (readUnsigned ds) := by
  unfold readUnsigned
  split_ifs
  · exact settles_ok _
  · exact settles_err _

theorem readDecimal_settles (data : Bytes) : Settles (readDecimal data) := by
  unfold readDecimal
  split_ifs
  · simp only [settles_bind, readUnsigned_settles, settles_ok, implies_true, and_self]
  · exact readUnsigned_settles data

theorem readUnsigned_digits {n : ℕ} (h : n ≠ 0) :
    readUnsigned (((10).digits n).reverse.map digitByte) = .ok n := by
  have hne : ((10).digits n).reverse.map digitByte ≠ [] := by
    rw [Ne, List.map_eq_nil_iff, List.reverse_eq_nil_iff, Nat.digits_eq_nil_iff_eq_zero]
    exact h
  have hall : ∀ b ∈ ((10).digits n).reverse.map digitByte, isDigit b := by
    intro b hb
    obtain ⟨d, hd, rfl⟩ := List.mem_map.mp hb
    exact isDigit_digitByte (Nat.digits_lt_base (by norm_num) (List.mem_reverse.mp hd))
  rw [readUnsigned, if_pos ⟨hne, hall⟩, readDigits_digits]

theorem readDecimal_decimalText (x : ℤ) : readDecimal (decimalText x) = .ok x := by
  unfold decimalText
  by_cases h0 : x = 0
  · rw [if_neg (by omega), if_pos h0, h0, List.nil_append]
    decide +kernel
  rw [if_neg h0]
  have hread := readUnsigned_digits (n := x.natAbs) (by omega)
  by_cases hneg : x < 0
  · rw [if_pos hneg, List.singleton_append, readDecimal, List.head?_cons, if_pos rfl,
      List.tail_cons, hread, ok_bind]
    congr 1
    omega
  · have hhead : (((10).digits x.natAbs).reverse.map digitByte).head? ≠ some 45 := by
      intro hh
      obtain ⟨d, hd, heq⟩ := List.mem_map.mp (List.mem_of_head? hh)
      have hdig := isDigit_digitByte (Nat.digits_lt_base (by norm_num) (List.mem_reverse.mp hd))
      rw [heq] at hdig
      exact absurd hdig (by decide)
    rw [if_neg hneg, List.nil_append, readDecimal, if_neg hhead, hread]
    congr 1
    omega

def decimalReader : TextReader := ⟨readDecimal, readDecimal_settles, readDecimal_decimalText⟩

/-! ### `math.Int`

`none` is the nil `Int`. -/

def intMarshal (x : Option ℤ) : Bytes := decimalText (x.getD 0)

def intSize (x : Option ℤ) : ℕ := (intMarshal x).length

/-- `MarshalTo` as the bytes it copies. -/
def intMarshalTo (x : Option ℤ) : Bytes := if x.getD 0 = 0 then [48] else intMarshal x

theorem intMarshalTo_eq (x : Option ℤ) : intMarshalTo x = intMarshal x := by
  unfold intMarshalTo intMarshal
  split_ifs with h
  · rw [h]
    rfl
  · rfl

/-- What `Unmarshal` makes of an `Int`; an empty text leaves it as it is. -/
def intUnmarshal (T : TextReader) (data : Bytes) (x : Option ℤ) : Out (Option ℤ) :=
  if data.length = 0 then .ok x
  else do
    let v ← T.unmarshalText data
    failIf (¬ InRange v) (fail .plain "integer out of range; got: %d, max: %d"
      [.int v.natAbs.size, .int 256])
    .ok (some v)

theorem intUnmarshal_settles (T : TextReader) (data : Bytes) (x : Option ℤ) :
    Settles (intUnmarshal T data x) := by
  unfold intUnmarshal
  split_ifs
  · exact settles_ok _
  · simp only [settles_bind, T.settles, fail, settles_failIf, settles_ok, implies_true, and_self]

theorem intUnmarshal_marshal (T : TextReader) {x : ℤ} (h : InRange x) (old : Option ℤ) :
    intUnmarshal T (decimalText x) old = .ok (some x) := by
  have hpos := decimalText_pos x
  rw [intUnmarshal, if_neg (by omega), T.decimal, ok_bind, failIf_of_not _ (not_not.mpr h), ok_bind]

end Tsc.Sdk
