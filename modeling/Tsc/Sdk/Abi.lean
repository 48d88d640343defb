import Tsc.Sdk.Math

/-!
# Contract ABI

Arguments, results and log data of contracts. A record of numbers and texts is a head of
32-byte words and a tail: a number stands in its word, and the word of a text is the offset
of its place in the tail, where the length precedes the bytes and zeros fill the last word.
Whatever stands behind a record is not looked at.
-/

namespace Tsc.Sdk.Abi

open Go

def word (n : ℕ) : Bytes := beBytes 32 n

/-- A value shorter than a word, such as an address, stands at its end. -/
def leftPad (s : Bytes) : Bytes := List.replicate (32 - s.length) 0 ++ s

def text (s : Bytes) : Bytes :=
  word s.length ++ (s ++ List.replicate ((32 - s.length % 32) % 32) 0)

inductive Kind where
  | uint
  | string

inductive Field where
  | uint (x : ℕ)
  | string (s : Bytes)
  deriving DecidableEq

def Field.kind : Field → Kind
  | .uint _ => .uint
  | .string _ => .string

/-- The words of the head. The first text goes to `offset`. -/
def heads : ℕ → List Field → Bytes
  | _, [] => []
  | offset, .uint x :: fields => word x ++ heads offset fields
  | offset, .string s :: fields => word offset ++ heads (offset + (text s).length) fields

def tails : List Field → Bytes
  | [] => []
  | .uint _ :: fields => tails fields
  | .string s :: fields => text s ++ tails fields

def encode (fields : List Field) : Bytes := heads (32 * fields.length) fields ++ tails fields

/-- An array of records: their number, where each starts, and the records. -/
def encodeArray (records : List (List Field)) : Bytes :=
  word records.length ++ places (32 * records.length) (records.map encode) ++
    (records.map encode).flatten
where
  places : ℕ → List Bytes → Bytes
    | _, [] => []
    | offset, r :: rs => word offset ++ places (offset + r.length) rs

/-! ### Reading -/

def tooShort (data : Bytes) (required : ℕ) : Fault Err :=
  fail .plain "abi: cannot marshal in to go type: length insufficient %d require %d"
    [.int data.length, .int required]

def wordAt (data : Bytes) (i : ℕ) : Out ℕ := do
  failIf (data.length < i + 32) (tooShort data (i + 32))
  .ok (beVal ((data.drop i).take 32))

/-- The offset in the word at `i`, and the length in front of the text. -/
def stringAt (data : Bytes) (i : ℕ) : Out Bytes := do
  let offset ← wordAt data i
  let length ← wordAt data offset
  failIf (2 ^ 63 ≤ length) (fail .plain "abi: length larger than int64: %v" [.int length])
  failIf (data.length < offset + 32 + length) (tooShort data (offset + 32 + length))
  .ok ((data.drop (offset + 32)).take length)

def fieldAt (data : Bytes) (i : ℕ) : Kind → Out Field
  | .uint => do
    let x ← wordAt data i
    .ok (.uint x)
  | .string => do
    let s ← stringAt data i
    .ok (.string s)

def decodeFrom (data : Bytes) : ℕ → List Kind → Out (List Field)
  | _, [] => .ok []
  | i, kind :: kinds => do
    let field ← fieldAt data i kind
    let fields ← decodeFrom data (i + 32) kinds
    .ok (field :: fields)

def decode (kinds : List Kind) (data : Bytes) : Out (List Field) := decodeFrom data 0 kinds

/-- An array at the offset in the word at `i`; its elements are read where their own
offsets, counted from behind the number of elements, point. -/
def arrayAt {α : Type} (read : Bytes → Out α) (data : Bytes) (i : ℕ) : Out (List α) := do
  let offset ← wordAt data i
  let length ← wordAt data offset
  failIf (data.length < offset + 32 + 32 * length) (tooShort data (offset + 32 + 32 * length))
  let elements := data.drop (offset + 32)
  forRange (fun acc j => do
    let start ← wordAt elements (32 * j)
    let a ← read (elements.drop start)
    .ok (acc ++ [a])) [] (List.range length)

/-! ### Reading what was written -/

theorem word_length (n : ℕ) : (word n).length = 32 := beBytes_length 32 n

theorem heads_length (offset : ℕ) (fields : List Field) :
    (heads offset fields).length = 32 * fields.length := by
  induction fields generalizing offset with
  | nil => rfl
  | cons field fields ih =>
    cases field with
    | uint x =>
      rw [heads, List.length_append, word_length, ih, List.length_cons]
      ring
    | string s =>
      rw [heads, List.length_append, word_length, ih, List.length_cons]
      ring

theorem wordAt_append (front : Bytes) {n : ℕ} (hn : n < 256 ^ 32) (rest : Bytes) :
    wordAt (front ++ (word n ++ rest)) front.length = .ok n := by
  have hlen : ¬ (front ++ (word n ++ rest)).length < front.length + 32 := by
    rw [List.length_append, List.length_append, word_length]
    omega
  unfold wordAt
  rw [failIf_of_not _ hlen, ok_bind, List.drop_left, ← word_length n, List.take_left, word,
    beVal_beBytes, Nat.mod_eq_of_lt hn]

theorem wordAt_lt {data : Bytes} {i n : ℕ} (h : wordAt data i = .ok n) : n < 256 ^ 32 := by
  simp only [wordAt, bind_eq_ok] at h
  obtain ⟨_, _, heq⟩ := h
  cases heq
  refine lt_of_lt_of_le (beVal_lt _) (Nat.pow_le_pow_right (by norm_num) ?_)
  exact List.length_take_le 32 _

/-- The text stands behind `front`, and `i` is the place of its offset. -/
theorem stringAt_append (front rest : Bytes) {data s : Bytes} {i : ℕ}
    (hoffset : wordAt data i = .ok front.length) (hs : s.length < 2 ^ 63)
    (hdata : data = front ++ (text s ++ rest)) : stringAt data i = .ok s := by
  have hword : wordAt data front.length = .ok s.length := by
    rw [hdata, text, List.append_assoc]
    exact wordAt_append front (hs.trans (by norm_num)) _
  have hdrop : data.drop (front.length + 32) =
      s ++ (List.replicate ((32 - s.length % 32) % 32) 0 ++ rest) := by
    have hsplit : data = (front ++ word s.length) ++
        (s ++ (List.replicate ((32 - s.length % 32) % 32) 0 ++ rest)) := by
      rw [hdata, text]
      simp only [List.append_assoc]
    have hlen : front.length + 32 = (front ++ word s.length).length := by
      rw [List.length_append, word_length]
    rw [hsplit, hlen, List.drop_left]
  have hfits : ¬ data.length < front.length + 32 + s.length := by
    have hd := congrArg List.length hdrop
    rw [List.length_drop, List.length_append] at hd
    by_cases h0 : s.length = 0
    · have hw := hword
      simp only [wordAt, bind_eq_ok, failIf_eq_ok] at hw
      obtain ⟨_, hlen, _⟩ := hw
      omega
    · omega
  unfold stringAt
  rw [hoffset, ok_bind, hword, ok_bind, failIf_of_not _ (not_le.mpr hs), ok_bind,
    failIf_of_not _ hfits, ok_bind, hdrop, List.take_left]

theorem stringAt_length {data s : Bytes} {i : ℕ} (h : stringAt data i = .ok s) :
    s.length < 2 ^ 63 := by
  simp only [stringAt, bind_eq_ok, failIf_eq_ok, not_le] at h
  obtain ⟨_, _, length, _, _, hlt, _, _, heq⟩ := h
  cases heq
  exact lt_of_le_of_lt (List.length_take_le length _) hlt

def Field.Fits : Field → Prop
  | .uint x => x < 256 ^ 32
  | .string s => s.length < 2 ^ 63

/-- The words read so far are `words`, and the texts they point to are `written`. -/
theorem decodeFrom_append {data : Bytes} (hlen : data.length < 256 ^ 32) (rest : Bytes)
    (fields : List Field) (hfit : ∀ f ∈ fields, f.Fits) (words written : Bytes) (offset : ℕ)
    (hdata : data = words ++ (heads offset fields ++ (written ++ (tails fields ++ rest))))
    (hoffset : offset = words.length + 32 * fields.length + written.length) :
    decodeFrom data words.length (fields.map Field.kind) = .ok fields := by
  induction fields generalizing words written offset with
  | nil => rfl
  | cons field fields ih =>
    have hrest := fun f hf => hfit f (List.mem_cons_of_mem _ hf)
    have hnext : ∀ n, words.length + 32 = (words ++ word n).length := by
      intro n
      rw [List.length_append, word_length]
    cases field with
    | uint x =>
      have hx : x < 256 ^ 32 := hfit _ List.mem_cons_self
      rw [heads, tails, List.append_assoc] at hdata
      have hword : wordAt data words.length = .ok x := by
        rw [hdata]
        exact wordAt_append words hx _
      have hfrom := ih hrest (words ++ word x) written offset
        (by rw [hdata, List.append_assoc])
        (by rw [hoffset, List.length_append, word_length, List.length_cons]; ring)
      rw [← hnext] at hfrom
      simp only [List.map_cons, Field.kind, decodeFrom, fieldAt, hword, ok_bind, hfrom]
    | string s =>
      have hs : s.length < 2 ^ 63 := hfit _ List.mem_cons_self
      rw [heads, tails, List.append_assoc] at hdata
      have hlens := congrArg List.length hdata
      have hheads := heads_length (offset + (text s).length) fields
      rw [List.length_cons] at hoffset
      simp only [List.length_append, word_length] at hlens
      have hword : wordAt data words.length = .ok offset := by
        rw [hdata]
        exact wordAt_append words (by omega) _
      have hstring : stringAt data words.length = .ok s := by
        apply stringAt_append (words ++ (word offset ++
          (heads (offset + (text s).length) fields ++ written))) (tails fields ++ rest) _ hs
        · rw [hdata]
          simp only [List.append_assoc]
        · rw [hword]
          simp only [List.length_append, word_length]
          congr 1
          omega
      have hfrom := ih hrest (words ++ word offset) (written ++ text s) (offset + (text s).length)
        (by rw [hdata]; simp only [List.append_assoc])
        (by simp only [List.length_append, word_length]; omega)
      rw [← hnext] at hfrom
      simp only [List.map_cons, Field.kind, decodeFrom, fieldAt, hstring, ok_bind, hfrom]

theorem text_length_le (s : Bytes) : (text s).length ≤ s.length + 64 := by
  unfold text
  rw [List.length_append, List.length_append, List.length_replicate, word_length]
  omega

theorem decode_encode {fields : List Field} (hfit : ∀ f ∈ fields, f.Fits)
    (hlen : (encode fields).length < 256 ^ 32) :
    decode (fields.map Field.kind) (encode fields) = .ok fields := by
  refine decodeFrom_append hlen [] fields hfit [] [] (32 * fields.length) ?_ ?_
  · rw [List.nil_append, List.nil_append, List.append_nil]
    rfl
  · simp

theorem tails_length_le {fields : List Field} (hfit : ∀ f ∈ fields, f.Fits) :
    (tails fields).length ≤ (2 ^ 63 + 64) * fields.length := by
  induction fields with
  | nil => exact le_refl 0
  | cons field fields ih =>
    have hrest := ih fun f hf => hfit f (List.mem_cons_of_mem _ hf)
    rw [List.length_cons, mul_add, mul_one]
    cases field with
    | uint x =>
      rw [tails]
      omega
    | string s =>
      have hs : s.length < 2 ^ 63 := hfit _ List.mem_cons_self
      have ht := text_length_le s
      rw [tails, List.length_append]
      omega

/-- Records of fewer than a million fields fit. -/
theorem decode_encode_short {fields : List Field} (hfit : ∀ f ∈ fields, f.Fits)
    (hcount : fields.length < 10 ^ 6) :
    decode (fields.map Field.kind) (encode fields) = .ok fields := by
  apply decode_encode hfit
  have htails := tails_length_le hfit
  rw [encode, List.length_append, heads_length]
  have hbig : (2 ^ 63 + 96) * 10 ^ 6 < 256 ^ 32 := by norm_num
  omega

end Tsc.Sdk.Abi
