import Tsc.Go.ByteString

/-!
# Hexadecimal texts

`encoding/hex` and the readers of go-ethereum's `common` package over it: a prefix `0x`
may be missing, a leading zero is put in front of an odd number of digits, reading stops
at the first byte that is no digit, and the last bytes fill a value of fixed size from
the right.
-/

namespace Tsc.Sdk.Hex

open Go

def digit (d : ℕ) : Byte := Fin.ofNat 256 (if d < 10 then 48 + d else 87 + d)

/-- `hex.EncodeToString`. -/
def text : Bytes → Bytes
  | [] => []
  | b :: bs => digit (b.val / 16) :: digit (b.val % 16) :: text bs

/-- Digits of both cases. -/
def digitValue (c : Byte) : Option ℕ :=
  if 48 ≤ c.val ∧ c.val ≤ 57 then some (c.val - 48)
  else if 97 ≤ c.val ∧ c.val ≤ 102 then some (c.val - 87)
  else if 65 ≤ c.val ∧ c.val ≤ 70 then some (c.val - 55)
  else none

/-- `Hex2Bytes`, which drops the error. -/
def read : Bytes → Bytes
  | a :: b :: rest =>
    match digitValue a, digitValue b with
    | some x, some y => Fin.ofNat 256 (16 * x + y) :: read rest
    | _, _ => []
  | _ => []

def fromHex (s : Bytes) : Bytes :=
  let s := if ascii "0x" <+: s ∨ ascii "0X" <+: s then s.drop 2 else s
  read (if s.length % 2 = 1 then 48 :: s else s)

/-- `SetBytes` of a value of `n` bytes that was zero. -/
def setBytes (n : ℕ) (b : Bytes) : Vector Byte n :=
  Vector.ofFn fun i => (List.replicate (n - b.length) 0 ++ b.drop (b.length - n)).getD i.val 0

theorem digitValue_digit {d : ℕ} (h : d < 16) : digitValue (digit d) = some d := by
  interval_cases d <;> rfl

theorem text_length (b : Bytes) : (text b).length = 2 * b.length := by
  induction b with
  | nil => rfl
  | cons x xs ih =>
    rw [text, List.length_cons, List.length_cons, ih, List.length_cons]
    ring

theorem read_text (b : Bytes) : read (text b) = b := by
  induction b with
  | nil => rfl
  | cons x xs ih =>
    have hx := x.isLt
    have hbyte : Fin.ofNat 256 (16 * (x.val / 16) + x.val % 16) = x := by
      apply Fin.ext
      show (16 * (x.val / 16) + x.val % 16) % 256 = x.val
      omega
    simp only [text, read, digitValue_digit (show x.val / 16 < 16 by omega),
      digitValue_digit (show x.val % 16 < 16 by omega), ih, hbyte]

theorem fromHex_text (b : Bytes) : fromHex (ascii "0x" ++ text b) = b := by
  have heven : ¬ (text b).length % 2 = 1 := by
    rw [text_length]
    omega
  have hdrop : (ascii "0x" ++ text b).drop 2 = text b := List.drop_left' rfl
  simp only [fromHex, List.prefix_append, true_or, if_true, hdrop, if_neg heven, read_text]

theorem setBytes_toList {n : ℕ} (v : Vector Byte n) : setBytes n v.toList = v := by
  ext i hi
  simp [setBytes]

theorem setBytes_fromHex_text {n : ℕ} (v : Vector Byte n) :
    setBytes n (fromHex (ascii "0x" ++ text v.toList)) = v := by
  rw [fromHex_text, setBytes_toList]

end Tsc.Sdk.Hex
