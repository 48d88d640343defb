import Tsc.Gogo.Message
import Tsc.Sdk.IntText
import Tsc.Lockup.Invariants

/-!
# The stored form of lock lists (`x/lockup/types/lock.pb.go`)

The generated code of `Lock` and `Locks`. `Marshal` allocates a buffer of `Size()` bytes
and fills it from the back; `Unmarshal` is total on every byte string, and reads back
what `Marshal` wrote. In every reachable state all stored lists and amounts pass through
their stored form unchanged, so that the other modules may keep them decoded.
-/

namespace Tsc.Lockup

open Go Sdk Kv Gogo LegacyTx Staking

/-- `types.Lock` as `Unmarshal` leaves it: the amount may be a nil `Int`. -/
structure RawLock where
  unlockDate : Bytes
  amount : Option ℤ
  deriving Repr, DecidableEq

/-! ### `Size` and `Marshal` -/

namespace RawLock

def size (m : RawLock) : ℕ :=
  (if 0 < m.unlockDate.length then 1 + m.unlockDate.length + sov m.unlockDate.length else 0) +
    (1 + intSize m.amount + sov (intSize m.amount))

def marshalToSizedBuffer (m : RawLock) (dAtA : Bytes) : Out (ℤ × Bytes) := do
  let i : ℤ := dAtA.length
  let size := intSize m.amount
  let i := i - size
  let dAtA ← copyTo dAtA i (intMarshalTo m.amount)
  let (dAtA, i) ← writeHeader dAtA i size 0x12
  let (dAtA, i) ← (if 0 < m.unlockDate.length then do
    let i := i - m.unlockDate.length
    let dAtA ← copyTo dAtA i m.unlockDate
    writeHeader dAtA i m.unlockDate.length 0xa
  else .ok (dAtA, i))
  .ok (dAtA.length - i, dAtA)

end RawLock

/-- The locks of `types.Locks`; the list holds pointers, none of them nil. -/
abbrev RawLocks := List RawLock

namespace RawLocks

def size (m : RawLocks) : ℕ := (m.map fun e => 1 + e.size + sov e.size).sum

/-- One round of the loop over the locks, from the last to the first. -/
def marshalLock (s : ℤ × Bytes) (e : RawLock) : Out (ℤ × Bytes) := do
  let (i, dAtA) := s
  let front ← slice dAtA 0 i
  let (size, front) ← e.marshalToSizedBuffer front
  let dAtA := front ++ dAtA.drop i.toNat
  let i := i - size
  let (dAtA, i) ← writeHeader dAtA i size.toNat 0xa
  .ok (i, dAtA)

def marshalToSizedBuffer (m : RawLocks) (dAtA : Bytes) : Out (ℤ × Bytes) := do
  let (i, dAtA) ← forRange marshalLock ((dAtA.length : ℤ), dAtA) m.reverse
  .ok (dAtA.length - i, dAtA)

def marshal (m : RawLocks) : Out Bytes := do
  let dAtA := List.replicate (size m) 0
  let (n, dAtA) ← marshalToSizedBuffer m dAtA
  slice dAtA 0 n

end RawLocks

/-! ### `Unmarshal` -/

def lockMessage (T : TextReader) : Unmarshaler RawLock where
  name := "Lock"
  field
    | 1 => some ("UnlockDate", fun content m => .ok { m with unlockDate := content })
    | 2 => some ("Amount", fun content m => do
      let amount ← intUnmarshal T content m.amount
      .ok { m with amount })
    | _ => none

def RawLock.unmarshal (T : TextReader) (dAtA : Bytes) : Out RawLock :=
  (lockMessage T).unmarshal ⟨[], none⟩ dAtA

def locksMessage (T : TextReader) : Unmarshaler RawLocks where
  name := "Locks"
  field
    | 1 => some ("Locks", fun content m => do
      let e ← RawLock.unmarshal T content
      .ok (m ++ [e]))
    | _ => none

def RawLocks.unmarshal (T : TextReader) (dAtA : Bytes) : Out RawLocks :=
  (locksMessage T).unmarshal [] dAtA

/-! ### Every input is decided -/

theorem lockMessage_settles (T : TextReader) (num : ℤ) (name : String)
    (read : Bytes → RawLock → Out RawLock) (h : (lockMessage T).field num = some (name, read))
    (content : Bytes) (m : RawLock) : Settles (read content m) := by
  simp only [lockMessage] at h
  split at h
  · cases h
    exact settles_ok _
  · cases h
    simp only [settles_bind, intUnmarshal_settles, settles_ok, implies_true, and_self]
  · cases h

theorem locksMessage_settles (T : TextReader) {n : ℕ} (hn : n < 2 ^ 63) (num : ℤ) (name : String)
    (read : Bytes → RawLocks → Out RawLocks) (h : (locksMessage T).field num = some (name, read))
    (content : Bytes) (m : RawLocks) (hlen : content.length ≤ n) : Settles (read content m) := by
  simp only [locksMessage] at h
  split at h
  · cases h
    simp only [settles_bind, settles_ok, implies_true, and_true]
    exact Unmarshaler.unmarshal_settles (by omega)
      (fun num name read hf content m _ => lockMessage_settles T num name read hf content m) _
  · cases h

/-- On every byte string both generated decoders come back with a value or an error, and
every round of their loops moves the cursor forward. -/
theorem unmarshal_total (T : TextReader) (dAtA : Bytes) (hlen : dAtA.length < 2 ^ 63) :
    (((lockMessage T).loop dAtA).Total (0, ⟨[], none⟩) ∧ Settles (RawLock.unmarshal T dAtA)) ∧
      ((locksMessage T).loop dAtA).Total (0, []) ∧ Settles (RawLocks.unmarshal T dAtA) := by
  have hlock : ((lockMessage T).loop dAtA).Total (0, ⟨[], none⟩) :=
    Unmarshaler.loop_total hlen
      (fun num name read hf content m _ => lockMessage_settles T num name read hf content m) _
  have hlocks : ((locksMessage T).loop dAtA).Total (0, []) :=
    Unmarshaler.loop_total hlen (locksMessage_settles T hlen) _
  exact ⟨⟨hlock, hlock.settles⟩, hlocks, hlocks.settles⟩

/-- A lock that claims more bytes than there are, and a group that is never closed. -/
theorem unmarshal_total_malformed :
    Settles (RawLocks.unmarshal decimalReader [0x0a, 0x7f, 0x0a]) ∧
      Settles (RawLock.unmarshal decimalReader [0x1b, 0x1b, 0x08]) :=
  ⟨(unmarshal_total decimalReader _ (by decide)).2.2, (unmarshal_total decimalReader _ (by decide)).1.2⟩

/-! ### What `Marshal` writes -/

namespace RawLock

def dateField (m : RawLock) : Field := ⟨1, m.unlockDate⟩

def amountField (m : RawLock) : Field := ⟨2, intMarshal m.amount⟩

/-- An empty date is not written. -/
def fields (m : RawLock) : List Field :=
  (if 0 < m.unlockDate.length then [m.dateField] else []) ++ [m.amountField]

def bytes (m : RawLock) : Bytes := encodeAll m.fields

theorem amountField_num (m : RawLock) : m.amountField.num < 15 := by
  simp [amountField]

theorem dateField_num (m : RawLock) : m.dateField.num < 15 := by
  simp [dateField]

variable {m : RawLock}

theorem bytes_eq (m : RawLock) : m.bytes =
    (if 0 < m.unlockDate.length then m.dateField.encode else []) ++ m.amountField.encode := by
  unfold bytes fields encodeAll
  split_ifs <;> simp

theorem contents_le (m : RawLock) :
    m.amountField.encode.length ≤ m.bytes.length ∧
      (0 < m.unlockDate.length → m.dateField.encode.length + m.amountField.encode.length =
        m.bytes.length) := by
  rw [bytes_eq, List.length_append]
  split_ifs with hd
  · exact ⟨by omega, fun _ => rfl⟩
  · exact ⟨by omega, fun h => absurd h hd⟩

theorem size_eq (h : m.bytes.length < 2 ^ 63) : m.size = m.bytes.length := by
  obtain ⟨hamount, hdate⟩ := m.contents_le
  have ha := m.amountField.content_le
  have hd := m.dateField.content_le
  have hasize := Field.encode_length m.amountField_num (by omega)
  rw [bytes_eq, List.length_append, hasize, size]
  split_ifs with hpos
  · have htotal := hdate hpos
    rw [Field.encode_length m.dateField_num (by omega)]
    rfl
  · rfl

theorem marshalToSizedBuffer_eq {dAtA : Bytes} (h : m.bytes.length < 2 ^ 63)
    (hfit : m.bytes.length ≤ dAtA.length) :
    m.marshalToSizedBuffer dAtA = .ok ((m.bytes.length : ℤ), prepend dAtA dAtA.length m.bytes) := by
  obtain ⟨hamount, hdate⟩ := m.contents_le
  have ha := m.amountField.content_le
  have hd := m.dateField.content_le
  have hlast := writeField_eq (le_refl dAtA.length) m.amountField_num (by omega) (by omega)
  have hbuf := @prepend_length dAtA m.amountField.encode dAtA.length (le_refl _) (by omega)
  have hstart : m.marshalToSizedBuffer dAtA = (do
      let (dAtA, i) ← (.ok (prepend dAtA dAtA.length m.amountField.encode,
        (dAtA.length - m.amountField.encode.length : ℤ)) : Out (Bytes × ℤ))
      let (dAtA, i) ← (if 0 < m.unlockDate.length then do
        let dAtA ← copyTo dAtA (i - m.unlockDate.length) m.unlockDate
        writeHeader dAtA (i - m.unlockDate.length) m.unlockDate.length 0xa
      else .ok (dAtA, i))
      .ok (dAtA.length - i, dAtA)) := by
    rw [← hlast, bind_assoc, marshalToSizedBuffer, intMarshalTo_eq]
    rfl
  rw [hstart, ok_bind, bytes_eq]
  dsimp only
  by_cases hpos : 0 < m.unlockDate.length
  · have htotal := hdate hpos
    have hfirst := @writeField_eq (prepend dAtA dAtA.length m.amountField.encode)
      (dAtA.length - m.amountField.encode.length) m.dateField (by omega) m.dateField_num (by omega)
      (by omega)
    rw [prepend_prepend (le_refl _) (by omega) (by omega), Nat.cast_sub (by omega)] at hfirst
    have hbuf' := @prepend_length dAtA (m.dateField.encode ++ m.amountField.encode) dAtA.length
      (le_refl _) (by rw [List.length_append]; omega)
    rw [if_pos hpos, if_pos hpos]
    refine (congrArg (· >>= _) hfirst).trans ?_
    rw [ok_bind]
    dsimp only
    rw [hbuf', List.length_append]
    congr 2
    push_cast
    ring
  · rw [if_neg hpos, if_neg hpos, List.nil_append, ok_bind]
    dsimp only
    rw [hbuf]
    congr 2
    ring

end RawLock

namespace RawLocks

def field (e : RawLock) : Field := ⟨1, e.bytes⟩

def bytes (m : RawLocks) : Bytes := encodeAll (m.map field)

theorem field_num (e : RawLock) : (field e).num < 15 := by
  simp [field]

theorem bytes_cons (e : RawLock) (m : RawLocks) : bytes (e :: m) = (field e).encode ++ bytes m := rfl

theorem mem_bytes_le {m : RawLocks} {e : RawLock} (he : e ∈ m) : e.bytes.length ≤ (bytes m).length := by
  have hle : (field e).encode.length ≤ (bytes m).length := by
    unfold bytes encodeAll
    rw [List.length_flatMap]
    exact List.le_sum_of_mem (List.mem_map_of_mem (List.mem_map_of_mem he))
  exact (field e).content_le.trans hle

theorem size_eq {m : RawLocks} (h : (bytes m).length < 2 ^ 63) : size m = (bytes m).length := by
  induction m with
  | nil => rfl
  | cons e m ih =>
    have hcontent := (field e).content_le
    rw [bytes_cons, List.length_append] at h ⊢
    have he : e.bytes.length < 2 ^ 63 := lt_of_le_of_lt (hcontent.trans (Nat.le_add_right _ _)) h
    have hsize : 1 + e.size + sov e.size = (field e).encode.length := by
      rw [Field.encode_length (field_num e) (by omega), RawLock.size_eq he]
      rfl
    rw [← ih (by omega), ← hsize]
    rfl

theorem marshalLock_eq {dAtA : Bytes} {i : ℕ} {e : RawLock} (hi : i ≤ dAtA.length)
    (he : e.bytes.length < 2 ^ 63) (hfit : (field e).encode.length ≤ i) :
    marshalLock ((i : ℤ), dAtA) e =
      .ok ((i - (field e).encode.length : ℤ), prepend dAtA i (field e).encode) := by
  have hcontent : e.bytes.length ≤ (field e).encode.length := (field e).content_le
  have hfront : slice dAtA 0 (i : ℤ) = .ok (dAtA.take i) := by
    rw [slice, if_pos (by omega), Int.toNat_natCast]
    rfl
  have htake : (dAtA.take i).length = i := by
    rw [List.length_take]
    omega
  have hlock := @RawLock.marshalToSizedBuffer_eq e (dAtA.take i) he (by omega)
  have hheader := writeHeader_eq hi (field_num e) (show e.bytes.length < 2 ^ 64 by omega) hfit
  rw [htake] at hlock
  unfold marshalLock
  dsimp only
  rw [hfront, ok_bind, hlock, ok_bind]
  dsimp only
  rw [Int.toNat_natCast, prepend_take hi, Int.toNat_natCast]
  refine (congrArg (· >>= _) hheader).trans ?_
  rw [ok_bind]

theorem marshalLocks_eq {dAtA : Bytes} {i : ℕ} {m : RawLocks} (hi : i ≤ dAtA.length)
    (h : (bytes m).length < 2 ^ 63) (hfit : (bytes m).length ≤ i) :
    forRange marshalLock ((i : ℤ), dAtA) m.reverse =
      .ok ((i - (bytes m).length : ℤ), prepend dAtA i (bytes m)) := by
  induction m with
  | nil =>
    rw [List.reverse_nil]
    simp [forRange, bytes, encodeAll, prepend_nil]
  | cons e m ih =>
    have hcontent := (field e).content_le
    rw [bytes_cons, List.length_append] at h hfit
    have he : e.bytes.length < 2 ^ 63 := lt_of_le_of_lt (hcontent.trans (Nat.le_add_right _ _)) h
    have hbuf := @prepend_length dAtA (bytes m) i hi (by omega)
    have hone := @marshalLock_eq (prepend dAtA i (bytes m)) (i - (bytes m).length) e (by omega) he
      (by omega)
    rw [prepend_prepend hi (by omega) (by omega), Nat.cast_sub (by omega)] at hone
    rw [List.reverse_cons, forRange_concat, ih (by omega) (by omega), ok_bind, hone, bytes_cons,
      List.length_append]
    congr 2
    push_cast
    ring

theorem marshal_eq {m : RawLocks} (h : (bytes m).length < 2 ^ 63) : marshal m = .ok (bytes m) := by
  have hlen : (List.replicate (size m) (0 : Byte)).length = (bytes m).length := by
    rw [List.length_replicate, size_eq h]
  have hwrite := @marshalLocks_eq (List.replicate (size m) 0) _ m (le_refl _) h hlen.ge
  have hslice := slice_append [] (bytes m) []
  rw [prepend_full hlen.symm] at hwrite
  unfold marshal marshalToSizedBuffer
  dsimp only
  rw [hwrite, ok_bind]
  dsimp only
  rw [ok_bind, hlen]
  simpa using hslice

end RawLocks

/-! ### The round trip -/

/-- Amounts within 256 bits; a nil amount is read back as zero. -/
def RawLock.InRange (m : RawLock) : Prop := Sdk.InRange (m.amount.getD 0)

instance (m : RawLock) : Decidable m.InRange := inferInstanceAs (Decidable (Sdk.InRange _))

def RawLock.normal (m : RawLock) : RawLock := ⟨m.unlockDate, some (m.amount.getD 0)⟩

section RoundTrip

variable (T : TextReader)

theorem reads_date (m old : RawLock) : (lockMessage T).reads m.dateField old =
    some (.ok { old with unlockDate := m.unlockDate }) := rfl

theorem reads_amount {m : RawLock} (hrange : m.InRange) (old : RawLock) :
    (lockMessage T).reads m.amountField old =
      some (.ok { old with amount := some (m.amount.getD 0) }) := by
  have hint : intUnmarshal T (intMarshal m.amount) old.amount = .ok (some (m.amount.getD 0)) :=
    intUnmarshal_marshal T hrange old.amount
  have hfield : (lockMessage T).reads m.amountField old = some (do
      let amount ← intUnmarshal T (intMarshal m.amount) old.amount
      .ok { old with amount }) := rfl
  rw [hfield, hint, ok_bind]

theorem RawLock.unmarshal_bytes {m : RawLock} (h : m.bytes.length < 2 ^ 63) (hrange : m.InRange) :
    RawLock.unmarshal T m.bytes = .ok m.normal := by
  have hnum : ∀ f ∈ m.fields, 0 < f.num ∧ f.num < 2 ^ 28 := by
    intro f hf
    simp only [fields, List.mem_append, List.mem_singleton] at hf
    rcases hf with hf | rfl
    · split_ifs at hf
      · rw [List.mem_singleton.mp hf]
        exact ⟨Nat.one_pos, by norm_num [dateField]⟩
      · cases hf
    · exact ⟨Nat.two_pos, by norm_num [amountField]⟩
  refine Unmarshaler.unmarshal_encodeAll hnum h ?_
  have hlast := Steps.single (R := fun f m m' => (lockMessage T).reads f m = some (.ok m'))
    (reads_amount T hrange ⟨m.unlockDate, none⟩)
  unfold fields
  split_ifs with hpos
  · exact .cons (reads_date T m _) hlast
  · have hnil : m.unlockDate = [] := List.eq_nil_of_length_eq_zero (by omega)
    rw [hnil] at hlast
    rw [normal, hnil]
    exact hlast

theorem reads_lock {e : RawLock} (h : e.bytes.length < 2 ^ 63) (hrange : e.InRange)
    (m : RawLocks) :
    (locksMessage T).reads (RawLocks.field e) m = some (.ok (m ++ [e.normal])) := by
  have hfield : (locksMessage T).reads (RawLocks.field e) m = some (do
      let e ← RawLock.unmarshal T e.bytes
      .ok (m ++ [e])) := rfl
  rw [hfield, RawLock.unmarshal_bytes T h hrange, ok_bind]

theorem RawLocks.unmarshal_bytes {m : RawLocks} (h : (bytes m).length < 2 ^ 63)
    (hrange : ∀ e ∈ m, e.InRange) :
    RawLocks.unmarshal T (bytes m) = .ok (m.map RawLock.normal) := by
  have hnum : ∀ f ∈ m.map field, 0 < f.num ∧ f.num < 2 ^ 28 := by
    intro f hf
    obtain ⟨e, _, rfl⟩ := List.mem_map.mp hf
    exact ⟨Nat.one_pos, by norm_num [field]⟩
  have hsize : ∀ e ∈ m, e.bytes.length < 2 ^ 63 := fun e he => lt_of_le_of_lt (mem_bytes_le he) h
  have hsteps : ∀ (l : RawLocks) (acc : RawLocks), (∀ e ∈ l, e.bytes.length < 2 ^ 63 ∧ e.InRange) →
      Steps (fun f m m' => (locksMessage T).reads f m = some (.ok m')) (l.map field) acc
        (acc ++ l.map RawLock.normal) := by
    intro l
    induction l with
    | nil =>
      intro acc _
      rw [List.map_nil, List.map_nil, List.append_nil]
      exact .nil
    | cons e l ih =>
      intro acc hl
      obtain ⟨⟨he, hr⟩, hl⟩ := List.forall_mem_cons.mp hl
      have hrest := ih (acc ++ [e.normal]) hl
      rw [List.append_assoc, List.singleton_append] at hrest
      exact .cons (reads_lock T he hr acc) hrest
  have hall := hsteps m [] fun e he => ⟨hsize e he, hrange e he⟩
  rw [List.nil_append] at hall
  exact Unmarshaler.unmarshal_encodeAll hnum h hall

end RoundTrip

theorem RawLock.bytes_le_size (m : RawLock) : m.bytes.length ≤ m.size := by
  have hamount := Field.encode_length_le m.amountField_num
  have hdate := Field.encode_length_le m.dateField_num
  rw [bytes_eq, List.length_append, size]
  split_ifs
  · exact Nat.add_le_add hdate hamount
  · exact Nat.add_le_add (le_refl 0) hamount

theorem RawLocks.bytes_le_size (m : RawLocks) : (bytes m).length ≤ size m := by
  induction m with
  | nil => exact le_refl 0
  | cons e m ih =>
    have hfield := Field.encode_length_le (field_num e)
    have hlock := e.bytes_le_size
    have hsov := sov_mono hlock
    have hcons : size (e :: m) = 1 + e.size + sov e.size + size m := rfl
    rw [bytes_cons, List.length_append, hcons]
    have hcontent : (field e).content = e.bytes := rfl
    rw [hcontent] at hfield
    omega

/-- For every list of locks `Marshal` fills a buffer of `Size()` bytes exactly, and
`Unmarshal` reads the same locks back, a nil amount as zero. -/
theorem marshal_unmarshal (T : TextReader) (m : RawLocks) (hsize : RawLocks.size m < 2 ^ 63)
    (hrange : ∀ e ∈ m, e.InRange) :
    ∃ bz, RawLocks.marshal m = .ok bz ∧ bz.length = RawLocks.size m ∧
      RawLocks.unmarshal T bz = .ok (m.map RawLock.normal) := by
  have hbytes := lt_of_le_of_lt (RawLocks.bytes_le_size m) hsize
  exact ⟨RawLocks.bytes m, RawLocks.marshal_eq hbytes, (RawLocks.size_eq hbytes).symm,
    RawLocks.unmarshal_bytes T hbytes hrange⟩

/-- Two locks, one of them with a nil amount. -/
theorem marshal_unmarshal_two :
    let m : RawLocks := [⟨ascii "2026-06-01", some 40⟩, ⟨ascii "2026-07-01", none⟩]
    RawLocks.size m < 2 ^ 63 ∧ ∃ bz, RawLocks.marshal m = .ok bz ∧ bz.length = RawLocks.size m ∧
      RawLocks.unmarshal decimalReader bz = .ok (m.map RawLock.normal) :=
  ⟨by decide +kernel, marshal_unmarshal decimalReader _ (by decide +kernel) (by decide +kernel)⟩

/-! ### The stored state -/

def Lock.raw (e : Lock) : RawLock := ⟨e.unlockDate, some e.amount⟩

def QueueInRange (st : LockStore) : Prop :=
  ∀ key x, st.get key = some (.amount x) → Sdk.InRange x

/-- Amounts enter the queue as results of `Add` and `Sub`, which check their size. -/
theorem queueInRange_kept : KeptByWrites QueueInRange := by
  refine ⟨?_, ?_, ?_⟩
  · intro st a l h key x hx
    by_cases hkey : key = getLocksByAddressKey a
    · rw [hkey, setLocksByAddress_get_self] at hx
      split_ifs at hx
      cases hx
    · rw [setLocksByAddress_get _ _ _ _ hkey] at hx
      exact h key x hx
  · intro st st' t a x h hadd key y hy
    simp only [addToExpirationQueue, bind_eq_ok, intAdd_eq_ok] at hadd
    obtain ⟨current, _, sum, ⟨hrange, rfl⟩, hst⟩ := hadd
    cases hst
    rw [Store.get_set] at hy
    split_ifs at hy
    · cases hy
      exact hrange
    · exact h key y hy
  · intro st st' t a x h hremove key y hy
    unfold removeFromExpirationQueue at hremove
    dsimp only at hremove
    cases hget : st.get (getLockExpirationKey t a) with
    | none =>
      rw [hget] at hremove
      cases hremove
      exact h key y hy
    | some bz =>
      simp only [hget, bind_eq_ok, intSub_eq_ok] at hremove
      obtain ⟨current, _, _, _, rest, ⟨hrange, rfl⟩, hst⟩ := hremove
      split_ifs at hst
      · cases hst
        rw [Store.get_delete] at hy
        split_ifs at hy
        exact h key y hy
      · cases hst
        rw [Store.get_set] at hy
        split_ifs at hy
        · cases hy
          exact hrange
        · exact h key y hy

/-- A listed lock stands in the queue with the same amount. -/
theorem Encodes.amount_inRange {st : LockStore} {L : Ledger} (h : Encodes st L)
    (hq : QueueInRange st) {a : AccAddress} {e : Lock} (he : e ∈ (L a).locks) :
    Sdk.InRange e.amount := by
  obtain ⟨t, ht⟩ := (L a).wellFormed.parses e he
  have hfound := (lookup_eq_some_iff Lock.unlockDate (L a).wellFormed.ascending _ e).mpr ⟨he, rfl⟩
  have hget := h.queue_entry ht a
  rw [hfound] at hget
  exact hq _ _ hget

theorem parseDateOnly_length {d : Bytes} {t : Time} (h : parseDateOnly d = some t) :
    d.length = 10 := by
  obtain ⟨c, hc, _⟩ := (parseDateOnly_eq_some_iff d t).mp h
  obtain ⟨_, _, _, _, _, _, _, _, rfl, _⟩ := parseCivil_eq_some hc
  rfl

theorem Lock.raw_size_le {e : Lock} (hdate : e.unlockDate.length = 10)
    (hrange : Sdk.InRange e.amount) : e.raw.size ≤ 93 := by
  have hamount : intSize e.raw.amount ≤ 79 := decimalText_length hrange
  have hsov : sov (intSize e.raw.amount) ≤ 1 := (sov_le_iff _ 1 one_ne_zero).mpr (by omega)
  have hten : sov 10 = 1 := by decide +kernel
  have hlen : e.raw.unlockDate.length = 10 := hdate
  rw [RawLock.size, hlen, if_pos (by omega), hten]
  omega

theorem RawLocks.size_le {l : List Lock} (h : ∀ e ∈ l, e.raw.size ≤ 93) :
    RawLocks.size (l.map Lock.raw) ≤ 95 * l.length := by
  induction l with
  | nil => exact le_refl 0
  | cons e l ih =>
    obtain ⟨he, hl⟩ := List.forall_mem_cons.mp h
    have hsov : sov e.raw.size ≤ 1 := (sov_le_iff _ 1 one_ne_zero).mpr (by omega)
    have hcons : size ((e :: l).map Lock.raw) =
      1 + e.raw.size + sov e.raw.size + size (l.map Lock.raw) := rfl
    rw [hcons, List.length_cons]
    have hrest := ih hl
    omega

/-- In every reachable state each account's list and each amount of the queue is what
the decoder makes of its stored bytes; a list of `n` locks takes at most `95 n` of them. -/
theorem stored_state_reads_back {W : Type} (k : Keepers W) (T : TextReader) {t₀ t : BlockTime}
    {st : LockStore} (h : Reachable k t₀ t st) :
    (∀ a, ∃ l bz, getLocksByAddress st a = .ok l ∧ RawLocks.marshal (l.map Lock.raw) = .ok bz ∧
      bz.length ≤ 95 * l.length ∧ RawLocks.unmarshal T bz = .ok (l.map Lock.raw)) ∧
    ∀ key x, st.get key = some (.amount x) →
      intUnmarshal T (intMarshal (some x)) (some 0) = .ok (some x) := by
  obtain ⟨L, hL, _⟩ := h.encodes
  have hqueue : QueueInRange st := queueInRange_kept.run h fun key x hx => nomatch hx
  refine ⟨?_, fun key x hx => intUnmarshal_marshal T (hqueue key x hx) _⟩
  intro a
  have hwf := (L a).wellFormed
  have hrange : ∀ e ∈ (L a).locks, Sdk.InRange e.amount := fun e he => hL.amount_inRange hqueue he
  -- the years 0 to 9999 bound the number of dates
  have hdays : ∀ e ∈ (L a).locks, -719600 ≤ dayOf e.unlockDate ∧ dayOf e.unlockDate ≤ 2933000 := by
    intro e he
    obtain ⟨u, hu⟩ := hwf.parses e he
    rw [dayOf_eq hu]
    exact parseDateOnly_range hu
  have hlen := hwf.length_le hdays
  have hsize : RawLocks.size ((L a).locks.map Lock.raw) ≤ 95 * (L a).locks.length := by
    refine RawLocks.size_le fun e he => ?_
    obtain ⟨u, hu⟩ := hwf.parses e he
    exact e.raw_size_le (parseDateOnly_length hu) (hrange e he)
  have hbytes := (RawLocks.bytes_le_size ((L a).locks.map Lock.raw)).trans hsize
  have hsmall : (RawLocks.bytes ((L a).locks.map Lock.raw)).length < 2 ^ 63 := by omega
  have hread := RawLocks.unmarshal_bytes T hsmall fun m hm => by
    obtain ⟨e, he, rfl⟩ := List.mem_map.mp hm
    exact hrange e he
  rw [List.map_map] at hread
  exact ⟨(L a).locks, _, hL.getLocksByAddress a, RawLocks.marshal_eq hsmall, hbytes, hread⟩

theorem stored_state_reads_back_june :
    ∃ st, Reachable (readers chain) newYear.blockTime newYear.blockTime st ∧
      ∃ l bz, getLocksByAddress st (ascii "d") = .ok l ∧
        RawLocks.marshal (l.map Lock.raw) = .ok bz ∧
        RawLocks.unmarshal decimalReader bz = .ok (l.map Lock.raw) := by
  obtain ⟨st, _, hst, _⟩ := lockThenExtend_reachable
  obtain ⟨l, bz, hl, hbz, _, hread⟩ :=
    (stored_state_reads_back (readers chain) decimalReader hst).1 (ascii "d")
  exact ⟨st, hst, l, bz, hl, hbz, hread⟩

end Tsc.Lockup
