import Tsc.Precompiles.Contract
import Tsc.Staking.Shares

/-!
# The ABI of the lockup contract (`precompiles/lockup/abi.json`)

Selectors and event signatures are the Keccak-256 hashes of the declarations, arguments are
decoded by their declared types.
-/

namespace Tsc.Precompiles

open Go Sdk Lockup Staking

def selectors : List (Bytes × Method) :=
  [ -- lock(address,string,uint256)
    (beBytes 4 0x38e611b3, .lock),
    -- extend(address,(string,string,(string,uint256))[])
    (beBytes 4 0xbd927c9b, .extend),
    -- sendDelegateAndLock(address,string,string,uint256)
    (beBytes 4 0xb9f4c400, .sendDelegateAndLock),
    -- locks(address)
    (beBytes 4 0x5de9a137, .locks),
    -- totalLockedAmount()
    (beBytes 4 0x05a9f274, .totalLockedAmount)]

def methodById (input : Bytes) : Out Method :=
  ofOption (fail .plain "no method with id: %#x" [.str (input.take 4)])
    ((selectors.find? fun e => e.1 = input.take 4).map Prod.snd)

def eventIDs (name : Bytes) : Bytes :=
  -- Lock(address,string,uint256)
  if name = ascii "Lock" then
    beBytes 32 0x31ab740e07233e6671ad4c7023abcef9a76c4c1d63b806c68f5914aaba5e81c5
  -- LockExtended(address,string,string,uint256)
  else if name = ascii "LockExtended" then
    beBytes 32 0x607c91ea98be0c21a4dabeba1542d0ca95e6938467b892b04b67835d12905ccb
  -- SendDelegateAndLock(address,address,string,string,uint256)
  else if name = ascii "SendDelegateAndLock" then
    beBytes 32 0x24e06d2125c1296b84e6d294dba6bba1b491b8a765d699eaf7d7bc64f50353a1
  else beBytes 32 0

/-! ### Arguments -/

/-- The last twenty bytes of the word. -/
def addressAt (data : Bytes) (i : ℕ) : Out Bytes := do
  let _ ← Abi.wordAt data i
  .ok ((data.drop (i + 12)).take 20)

def readExtension (data : Bytes) : Out ExtensionInput := do
  let fromDate ← Abi.stringAt data 0
  let toDate ← Abi.stringAt data 32
  let place ← Abi.wordAt data 64
  let denom ← Abi.stringAt (data.drop place) 0
  let amount ← Abi.wordAt (data.drop place) 32
  .ok ⟨fromDate, toDate, denom, some amount⟩

def unpackArgs (data : Bytes) : Method → Out (List AbiValue)
  | .lock => do
    let a ← addressAt data 0
    let d ← Abi.stringAt data 32
    let x ← Abi.wordAt data 64
    .ok [.address a, .string d, .bigInt (some x)]
  | .extend => do
    let a ← addressAt data 0
    let exts ← Abi.arrayAt readExtension data 32
    .ok [.address a, .tuples abiExtensions exts]
  | .sendDelegateAndLock => do
    let a ← addressAt data 0
    let v ← Abi.stringAt data 32
    let d ← Abi.stringAt data 64
    let x ← Abi.wordAt data 96
    .ok [.address a, .string v, .string d, .bigInt (some x)]
  | .locks => do
    let a ← addressAt data 0
    .ok [.address a]
  | _ => .ok []

/-- `SetupABI` of the EVM module. -/
def setupABI (input : Bytes) (readOnly : Bool) : Out (Method × List AbiValue) := do
  let method ← methodById input
  failIf (readOnly = true ∧ isTransaction method = true) (fail .plain "write protection" [])
  let args ← unpackArgs (input.drop 4) method
  .ok (method, args)

theorem addressAt_length {data a : Bytes} {i : ℕ} (h : addressAt data i = .ok a) :
    a.length = 20 := by
  simp only [addressAt, Abi.wordAt, bind_eq_ok, failIf_eq_ok, not_lt] at h
  obtain ⟨_, ⟨_, hlen, _⟩, heq⟩ := h
  cases heq
  rw [List.length_take, List.length_drop]
  omega

theorem wordAt_uint256 {data : Bytes} {i n : ℕ} (h : Abi.wordAt data i = .ok n) :
    Uint256 (n : ℤ) := by
  have hlt := Abi.wordAt_lt h
  refine ⟨Int.natCast_nonneg n, ?_⟩
  unfold intBound
  exact_mod_cast hlt

theorem setupABI_typed (input : Bytes) (readOnly : Bool) (m : Method) (args : List AbiValue)
    (h : setupABI input readOnly = .ok (m, args)) : m.Typed args := by
  simp only [setupABI, bind_eq_ok] at h
  obtain ⟨m', _, _, _, args', hargs, heq⟩ := h
  cases heq
  cases m with
  | lock =>
    simp only [unpackArgs, bind_eq_ok] at hargs
    obtain ⟨a, ha, d, hd, x, hx, heq⟩ := hargs
    cases heq
    exact ⟨a, d, x, rfl, addressAt_length ha, Abi.stringAt_length hd, wordAt_uint256 hx⟩
  | extend =>
    simp only [unpackArgs, bind_eq_ok] at hargs
    obtain ⟨a, _, exts, _, heq⟩ := hargs
    cases heq
    exact ⟨a, exts, rfl⟩
  | sendDelegateAndLock =>
    simp only [unpackArgs, bind_eq_ok] at hargs
    obtain ⟨a, ha, v, hv, d, hd, x, hx, heq⟩ := hargs
    cases heq
    exact ⟨a, v, d, x, rfl, addressAt_length ha, ⟨Abi.stringAt_length hv, Abi.stringAt_length hd⟩,
      wordAt_uint256 hx⟩
  | locks =>
    simp only [unpackArgs, bind_eq_ok] at hargs
    obtain ⟨a, _, heq⟩ := hargs
    cases heq
    exact ⟨a, rfl⟩
  | totalLockedAmount =>
    cases hargs
    rfl
  | other name => trivial

theorem setupABI_guarded (input : Bytes) (m : Method) (args : List AbiValue)
    (h : setupABI input true = .ok (m, args)) : isTransaction m = false := by
  simp only [setupABI, bind_eq_ok, failIf_eq_ok, true_and, Bool.not_eq_true] at h
  obtain ⟨m', _, _, hread, _, _, heq⟩ := h
  cases heq
  exact hread

/-! ### Log data -/

def unpackLock (data : Bytes) : Out (Bytes × ℤ) := do
  match ← Abi.decode [.string, .uint] data with
  | [.string d, .uint x] => .ok (d, (x : ℤ))
  | _ => .error (fail .plain "abi: cannot marshal" [])

def unpackSendDelegateAndLock (data : Bytes) : Out (Bytes × Bytes × ℤ) := do
  match ← Abi.decode [.string, .string, .uint] data with
  | [.string v, .string d, .uint x] => .ok (v, d, (x : ℤ))
  | _ => .error (fail .plain "abi: cannot marshal" [])

theorem Uint256.fits {x : ℤ} (h : Uint256 x) : (Abi.Field.uint x.toNat).Fits := by
  have hx := h.2
  unfold intBound at hx
  show x.toNat < 256 ^ 32
  norm_num
  omega

theorem unpackLock_encode (d : Bytes) (x : ℤ) (data : Bytes) (hd : GoString d) (hx : Uint256 x)
    (h : (.ok (Abi.encode [.string d, .uint x.toNat]) : Out Bytes) = .ok data) :
    unpackLock data = .ok (d, x) := by
  cases h
  have hdec : Abi.decode [.string, .uint] (Abi.encode [.string d, .uint x.toNat]) =
      .ok [.string d, .uint x.toNat] := by
    apply Abi.decode_encode_short
    · intro f hf
      rcases List.mem_cons.mp hf with rfl | hf
      · exact hd
      · rw [List.mem_singleton.mp hf]
        exact hx.fits
    · norm_num
  unfold unpackLock
  rw [hdec, ok_bind]
  exact congrArg (fun y => Except.ok (d, y)) (Int.toNat_of_nonneg hx.1)

theorem unpackSend_encode (v d : Bytes) (x : ℤ) (data : Bytes) (hv : GoString v) (hd : GoString d)
    (hx : Uint256 x)
    (h : (.ok (Abi.encode [.string v, .string d, .uint x.toNat]) : Out Bytes) = .ok data) :
    unpackSendDelegateAndLock data = .ok (v, d, x) := by
  cases h
  have hdec : Abi.decode [.string, .string, .uint]
      (Abi.encode [.string v, .string d, .uint x.toNat]) =
      .ok [.string v, .string d, .uint x.toNat] := by
    apply Abi.decode_encode_short
    · intro f hf
      rcases List.mem_cons.mp hf with rfl | hf
      · exact hv
      · rcases List.mem_cons.mp hf with rfl | hf
        · exact hd
        · rw [List.mem_singleton.mp hf]
          exact hx.fits
    · norm_num
  unfold unpackSendDelegateAndLock
  rw [hdec, ok_bind]
  exact congrArg (fun y => Except.ok (v, d, y)) (Int.toNat_of_nonneg hx.1)

theorem readTopic_leftPad (a topic : Bytes) (ha : a.length = 20)
    (h : (.ok (Abi.leftPad a) : Out Bytes) = .ok topic) : topic.drop 12 = a := by
  cases h
  unfold Abi.leftPad
  rw [ha]
  rfl

/-- The contract with the SDK's texts and its own ABI. -/
def lockupEvm : Evm where
  toHost := chainHost
  setupABI := setupABI
  typed := setupABI_typed
  guarded := setupABI_guarded
  eventID := eventIDs
  readTopic topic := topic.drop 12
  readTopic_make := readTopic_leftPad
  packLock d x := .ok (Abi.encode [.string d, .uint x.toNat])
  unpackLock := unpackLock
  unpackLock_pack := unpackLock_encode
  packSendDelegateAndLock v d x := .ok (Abi.encode [.string v, .string d, .uint x.toNat])
  unpackSendDelegateAndLock := unpackSendDelegateAndLock
  unpackSend_pack := unpackSend_encode
  packLocks infos := .ok (Abi.word 32 ++ Abi.encodeArray (infos.map fun info =>
    [.string info.unlockDate, .string info.denom, .uint info.amount.toNat]))
  packTotalLocked denom amount := .ok (Abi.encode [.string denom, .uint amount.toNat])

end Tsc.Precompiles
