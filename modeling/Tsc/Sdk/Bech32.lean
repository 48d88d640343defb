import Tsc.Go.ByteString

/-!
# Addresses as bech32 text (BIP-173)

An address of some bytes is written as a human-readable part, the character `1`, the
bytes in groups of five bits and a checksum of six such groups. A text is in lower case or
in upper case; `encode` gives the one in lower case, and `decode` accepts exactly the two
spellings of an address.
-/

namespace Tsc.Sdk.Bech32

open Go

/-! ### Letter case -/

def lowerByte (c : Byte) : Byte := if 65 ≤ c.val ∧ c.val ≤ 90 then c + 32 else c

def upperByte (c : Byte) : Byte := if 97 ≤ c.val ∧ c.val ≤ 122 then c - 32 else c

def lower (s : Bytes) : Bytes := s.map lowerByte

def upper (s : Bytes) : Bytes := s.map upperByte

theorem lowerByte_upperByte (c : Byte) : lowerByte (upperByte c) = lowerByte c := by
  revert c
  decide +kernel

theorem lower_upper (s : Bytes) : lower (upper s) = lower s := by
  unfold lower upper
  rw [List.map_map]
  exact List.map_congr_left fun c _ => lowerByte_upperByte c

/-- The two spellings of a text in lower case. -/
def Spells (v s : Bytes) : Prop := v = s ∨ v = upper s

instance (v s : Bytes) : Decidable (Spells v s) := inferInstanceAs (Decidable (_ ∨ _))

theorem Spells.lower_eq {v s : Bytes} (h : Spells v s) (hs : lower s = s) : lower v = s := by
  rcases h with rfl | rfl
  · exact hs
  · rw [lower_upper, hs]

/-! ### Groups of five bits -/

/-- The last `m` digits of `v` in base 32, the last one first. -/
def quintets : ℕ → ℕ → List ℕ
  | 0, _ => []
  | m + 1, v => v % 32 :: quintets m (v / 32)

theorem length_quintets (m v : ℕ) : (quintets m v).length = m := by
  induction m generalizing v with
  | zero => rfl
  | succ m ih => rw [quintets, List.length_cons, ih]

theorem lt_of_mem_quintets {m v q : ℕ} (h : q ∈ quintets m v) : q < 32 := by
  induction m generalizing v with
  | zero => cases h
  | succ m ih =>
    rcases List.mem_cons.mp h with rfl | h
    · exact Nat.mod_lt _ (by norm_num)
    · exact ih h

theorem ofDigits_quintets (m v : ℕ) : Nat.ofDigits 32 (quintets m v) = v % 32 ^ m := by
  induction m generalizing v with
  | zero => rw [quintets, Nat.ofDigits_nil, pow_zero, Nat.mod_one]
  | succ m ih =>
    rw [quintets, Nat.ofDigits_cons, ih, pow_succ', Nat.mod_mul]

/-- The bytes in groups of five bits, the last group filled up with zero bits. -/
def toQuintets (a : Bytes) : List ℕ :=
  let m := (8 * a.length + 4) / 5
  (quintets m (beVal a * 2 ^ (5 * m - 8 * a.length))).reverse

/-- The bytes back, without the bits left over. -/
def ofQuintets (qs : List ℕ) : Bytes :=
  let n := 5 * qs.length / 8
  beBytes n (Nat.ofDigits 32 qs.reverse / 2 ^ (5 * qs.length - 8 * n))

theorem beBytes_beVal (a : Bytes) : beBytes a.length (beVal a) = a := by
  have hval : beVal (beBytes a.length (beVal a)) = beVal a := by
    rw [beVal_beBytes, Nat.mod_eq_of_lt (beVal_lt a)]
  have hlen := beBytes_length a.length (beVal a)
  rcases lt_trichotomy (beBytes a.length (beVal a)) a with h | h | h
  · rw [lt_iff_beVal_lt _ _ hlen, hval] at h
    exact absurd h (lt_irrefl _)
  · exact h
  · rw [lt_iff_beVal_lt _ _ hlen.symm, hval] at h
    exact absurd h (lt_irrefl _)

theorem ofQuintets_toQuintets (a : Bytes) : ofQuintets (toQuintets a) = a := by
  have hlen : (toQuintets a).length = (8 * a.length + 4) / 5 := by
    unfold toQuintets
    rw [List.length_reverse, length_quintets]
  have hback : 5 * ((8 * a.length + 4) / 5) / 8 = a.length := by omega
  have hfit : beVal a * 2 ^ (5 * ((8 * a.length + 4) / 5) - 8 * a.length) <
      32 ^ ((8 * a.length + 4) / 5) := by
    calc beVal a * 2 ^ (5 * ((8 * a.length + 4) / 5) - 8 * a.length)
        < 256 ^ a.length * 2 ^ (5 * ((8 * a.length + 4) / 5) - 8 * a.length) :=
          Nat.mul_lt_mul_of_pos_right (beVal_lt a) (by positivity)
      _ = 2 ^ (8 * a.length + (5 * ((8 * a.length + 4) / 5) - 8 * a.length)) := by
          rw [pow_add, pow_mul 2 8]
          norm_num
      _ = 2 ^ (5 * ((8 * a.length + 4) / 5)) := by
          congr 1
          omega
      _ = 32 ^ ((8 * a.length + 4) / 5) := by
          rw [pow_mul]
          norm_num
  unfold ofQuintets
  rw [hlen, hback]
  unfold toQuintets
  dsimp only
  rw [List.reverse_reverse, ofDigits_quintets, Nat.mod_eq_of_lt hfit,
    Nat.mul_div_cancel _ (by positivity), beBytes_beVal]

/-! ### Characters and checksum -/

def charset : Bytes := ascii "qpzry9x8gf2tvdw0s3jn54khce6mua7l"

def char (q : ℕ) : Byte := charset.getD q 0

def index (c : Byte) : ℕ := charset.idxOf c

theorem index_char {q : ℕ} (h : q < 32) : index (char q) = q := by
  revert q
  decide

theorem lowerByte_char {q : ℕ} (h : q < 32) : lowerByte (char q) = char q := by
  revert q
  decide

def generators : List ℕ := [0x3b6a57b2, 0x26508e6d, 0x1ea119fa, 0x3d4233dd, 0x2a1462b3]

def polymodStep (chk v : ℕ) : ℕ :=
  let top := chk >>> 25
  (generators.zipIdx).foldl (fun acc g => if top.testBit g.2 then acc ^^^ g.1 else acc)
    (((chk &&& 0x1ffffff) <<< 5) ^^^ v)

def polymod (vs : List ℕ) : ℕ := vs.foldl polymodStep 1

def hrpExpand (hrp : Bytes) : List ℕ :=
  hrp.map (fun c => c.val / 32) ++ 0 :: hrp.map fun c => c.val % 32

def checksum (hrp : Bytes) (qs : List ℕ) : List ℕ :=
  (quintets 6 (polymod (hrpExpand hrp ++ qs ++ [0, 0, 0, 0, 0, 0]) ^^^ 1)).reverse

/-! ### The codec -/

def encode (hrp a : Bytes) : Bytes :=
  hrp ++ 49 :: (toQuintets a ++ checksum hrp (toQuintets a)).map char

/-- The address a text in lower case carries, its last six characters not looked at. -/
def carried (hrp s : Bytes) : Bytes :=
  let qs := (s.drop (hrp.length + 1)).map index
  ofQuintets (qs.take (qs.length - 6))

/-- The address the text is a spelling of. A text with another human-readable part, a
wrong checksum, bits left over or both cases is a spelling of none. -/
def decode (hrp v : Bytes) : Option Bytes :=
  let a := carried hrp (lower v)
  if Spells v (encode hrp a) then some a else none

theorem lt_of_mem_groups {hrp a : Bytes} {q : ℕ}
    (h : q ∈ toQuintets a ++ checksum hrp (toQuintets a)) : q < 32 := by
  unfold toQuintets checksum at h
  rcases List.mem_append.mp h with h | h
  · exact lt_of_mem_quintets (List.mem_reverse.mp h)
  · exact lt_of_mem_quintets (List.mem_reverse.mp h)

theorem lower_encode {hrp : Bytes} (h : lower hrp = hrp) (a : Bytes) :
    lower (encode hrp a) = encode hrp a := by
  unfold lower at h ⊢
  unfold encode
  rw [List.map_append, h, List.map_cons, List.map_map]
  congr 2
  exact List.map_congr_left fun q hq => lowerByte_char (lt_of_mem_groups hq)

theorem carried_encode (hrp a : Bytes) : carried hrp (encode hrp a) = a := by
  have hdrop : (encode hrp a).drop (hrp.length + 1) =
      (toQuintets a ++ checksum hrp (toQuintets a)).map char := by
    unfold encode
    rw [← List.drop_drop, List.drop_left, List.drop_one, List.tail_cons]
  have hread : ((toQuintets a ++ checksum hrp (toQuintets a)).map char).map index =
      toQuintets a ++ checksum hrp (toQuintets a) := by
    have hid : ∀ q ∈ toQuintets a ++ checksum hrp (toQuintets a), (index ∘ char) q = id q :=
      fun q hq => index_char (lt_of_mem_groups hq)
    rw [List.map_map, List.map_congr_left hid, List.map_id]
  have htake : (toQuintets a ++ checksum hrp (toQuintets a)).length - 6 =
      (toQuintets a).length := by
    unfold checksum
    rw [List.length_append, List.length_reverse, length_quintets]
    omega
  unfold carried
  rw [hdrop, hread]
  dsimp only
  rw [htake, List.take_left, ofQuintets_toQuintets]

/-- Exactly the two spellings of an address decode to it. -/
theorem decode_eq_some_iff {hrp : Bytes} (h : lower hrp = hrp) (v a : Bytes) :
    decode hrp v = some a ↔ Spells v (encode hrp a) := by
  unfold decode
  dsimp only
  constructor
  · intro hdecode
    split_ifs at hdecode with hspells
    cases hdecode
    exact hspells
  · intro hspells
    rw [hspells.lower_eq (lower_encode h a), carried_encode, if_pos hspells]

end Tsc.Sdk.Bech32
