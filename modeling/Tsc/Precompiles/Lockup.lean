import Tsc.Lockup.Extending
import Tsc.Sdk.Abi

/-!
# The extend method of the lockup precompile (`precompiles/lockup/tx.go`)

`Extend` rebuilds a `MsgExtend` from the values the ABI decoder delivers and hands
it to the message server. The decoder's values are dynamically typed; a type
assertion to a slice type holds only for the identical type, and a type declared
in a function is identical to nothing else. The decoder builds its struct types
from the ABI, unnamed and with json tags, so it cannot deliver the declared one.
-/

namespace Tsc.Precompiles

open Go Sdk Kv Lockup Staking

/-! ### Types of decoded values -/

mutual

/-- Go types; two types are identical when they are equal here. -/
inductive GoType where
  | basic (name : String)
  | pointer (elem : GoType)
  | slice (elem : GoType)
  | declared (scope name : String)
  | struct (fields : GoFields)
  deriving DecidableEq

inductive GoFields where
  | nil
  | cons (name : String) (type : GoType) (tag : String) (rest : GoFields)
  deriving DecidableEq

end

/-- `[]extensionInput`, with the type declared inside `parseExtensions`. -/
def extensionInputs : GoType := .slice (.declared "parseExtensions" "extensionInput")

def abiCoin : GoType :=
  .struct (.cons "Denom" (.basic "string") "json:\"denom\""
    (.cons "Amount" (.pointer (.basic "big.Int")) "json:\"amount\"" .nil))

/-- What the decoder builds for the `extensions` argument of `abi.json`. -/
def abiExtensions : GoType :=
  .slice (.struct (.cons "FromDate" (.basic "string") "json:\"fromDate\""
    (.cons "ToDate" (.basic "string") "json:\"toDate\""
      (.cons "Amount" abiCoin "json:\"amount\"" .nil))))

theorem abiExtensions_ne : abiExtensions ≠ extensionInputs := by decide

/-- One tuple of the `extensions` argument; a nil amount is `none`. -/
structure ExtensionInput where
  fromDate : Bytes
  toDate : Bytes
  denom : Bytes
  amount : Option ℤ
  deriving DecidableEq

inductive AbiArg where
  | address (a : Bytes)
  | tuples (type : GoType) (value : List ExtensionInput)
  | other

/-! ### The method -/

/-- Calls into the SDK and the EVM: bech32 texts, `ValidateDenom`, event topics, and
the packing of event data and of the result. -/
structure Host where
  accString : AccAddress → Bytes
  validDenom : Bytes → Bool
  makeTopic : Bytes → Out Bytes
  packExtension : Bytes → Bytes → ℤ → Out Bytes
  packSuccess : Out Bytes

structure Log where
  topic : Bytes
  data : Bytes

section Method

variable {W : Type} (k : Keepers W) (H : Host)

def newIntFromBigInt : Option ℤ → Out ℤ
  | none => .error (.panic "invalid memory address or nil pointer dereference")
  | some x => checkInt x

def parseExtension (bondDenom : Bytes) (ext : ExtensionInput) : Out Extension := do
  let amt ← newIntFromBigInt ext.amount
  failIf (¬ 0 < amt) (fail .plain "extension amount must be positive, got %s" [.int amt])
  let coin ← newCoin H.validDenom bondDenom amt
  .ok ⟨ext.fromDate, ext.toDate, coin⟩

def parseExtensions (raw : AbiArg) (bondDenom : Bytes) : Out (List (Option Extension)) :=
  match raw with
  | .tuples type slice =>
    if type = extensionInputs then do
      failIf (slice.length = 0) (fail .plain "extensions must not be empty" [])
      forRange (fun extensions ext => do
        let extension ← parseExtension H bondDenom ext
        .ok (extensions ++ [some extension])) [] slice
    else .error (fail .plain "invalid extensions type: %T" [])
  | _ => .error (fail .plain "invalid extensions type: %T" [])

def newMsgExtend (args : List AbiArg) (bondDenom : Bytes) : Out (MsgExtend × Bytes) :=
  match args with
  | [lockAddress, raw] =>
    match lockAddress with
    | .address lockAddress => do
      let bech32Addr := H.accString lockAddress
      let extensions ← wrapErr .plain "failed to parse extensions: %w"
        (parseExtensions H raw bondDenom)
      .ok (⟨bech32Addr, extensions⟩, lockAddress)
    | _ => .error (fail .plain "invalid lock address: %v" [])
  | _ => .error (fail .plain "invalid number of arguments; expected %d; got: %d"
      [.int 2, .int args.length])

def emitLockExtendedEvent (lockAddr : Bytes) (logs : List Log) (ext? : Option Extension) :
    Out (List Log) := do
  let topic ← H.makeTopic lockAddr
  let ext ← deref ext?
  let packed ← H.packExtension ext.fromDate ext.toDate ext.amount.amount
  .ok (logs ++ [⟨topic, packed⟩])

/-- `Precompile.Extend`; `caller` is `contract.Caller()`. -/
def precompileExtend (ctx : Ctx) (st : LockStore) (w : W) (caller : Bytes) (args : List AbiArg) :
    Out (LockStore × List Log × Bytes) := do
  let bondDenom ← k.bondDenom w
  let (msg, lockHexAddr) ← newMsgExtend H args bondDenom
  failIf (caller ≠ lockHexAddr)
    (fail .plain "msg.sender address %s does not match the requester address %s"
      [.str caller, .str lockHexAddr])
  let st' ← extend k ctx st w msg
  let logs ← forRange (emitLockExtendedEvent H lockHexAddr) [] msg.extensions
  let result ← H.packSuccess
  .ok (st', logs, result)

end Method

/-! ### Agreement with the message server -/

/-- The extensions a caller asks for, in the bond denom. -/
def requested (bondDenom : Bytes) (exts : List ExtensionInput) : List Extension :=
  exts.map fun e => ⟨e.fromDate, e.toDate, ⟨bondDenom, e.amount.getD 0⟩⟩

def sameMsg (H : Host) (caller bondDenom : Bytes) (exts : List ExtensionInput) : MsgExtend :=
  ⟨H.accString caller, (requested bondDenom exts).map some⟩

/-- The precompile succeeds exactly when the message server does, with the same
stores. -/
def Agrees {W : Type} (k : Keepers W) (H : Host) (ctx : Ctx) (st : LockStore) (w : W)
    (caller bondDenom : Bytes) (type : GoType) (exts : List ExtensionInput) : Prop :=
  ∀ st', (∃ logs result, precompileExtend k H ctx st w caller
      [.address caller, .tuples type exts] = .ok (st', logs, result)) ↔
    extend k ctx st w (sameMsg H caller bondDenom exts) = .ok st'

structure Host.Works (H : Host) : Prop where
  makeTopic : ∀ a, ∃ topic, H.makeTopic a = .ok topic
  packExtension : ∀ fromDate toDate x, ∃ data, H.packExtension fromDate toDate x = .ok data
  packSuccess : ∃ result, H.packSuccess = .ok result

section Agreement

variable {W : Type} {k : Keepers W} {H : Host} {ctx : Ctx} {st : LockStore} {w : W}
  {caller bondDenom : Bytes} {type : GoType} {exts : List ExtensionInput}

theorem parseExtension_eq (hdenom : H.validDenom bondDenom = true) {e : ExtensionInput} {x : ℤ}
    (hx : e.amount = some x) (hpos : 0 < x) (hlt : x < intBound) :
    parseExtension H bondDenom e = .ok ⟨e.fromDate, e.toDate, ⟨bondDenom, e.amount.getD 0⟩⟩ := by
  have hbound := intBound_pos
  have hint : checkInt x = .ok x := (checkInt_eq_ok _ _).mpr ⟨⟨by omega, hlt⟩, rfl⟩
  simp only [parseExtension, hx, newIntFromBigInt, hint, ok_bind,
    failIf_of_not _ (not_not.mpr hpos), newCoin_ok hdenom hpos.le, Option.getD_some]

/-- An append loop over elements that all parse. -/
theorem parseLoop_eq (h : ∀ e ∈ exts, parseExtension H bondDenom e =
      .ok ⟨e.fromDate, e.toDate, ⟨bondDenom, e.amount.getD 0⟩⟩)
    (acc : List (Option Extension)) :
    forRange (fun extensions ext => do
      let extension ← parseExtension H bondDenom ext
      .ok (extensions ++ [some extension])) acc exts =
      .ok (acc ++ (requested bondDenom exts).map some) := by
  unfold requested
  rw [List.map_map]
  exact forRange_append h acc

theorem newMsgExtend_eq (hdenom : H.validDenom bondDenom = true) (hne : exts ≠ [])
    (hpos : ∀ e ∈ exts, ∃ x, e.amount = some x ∧ 0 < x ∧ x < intBound) :
    newMsgExtend H [.address caller, .tuples extensionInputs exts] bondDenom =
      .ok (sameMsg H caller bondDenom exts, caller) := by
  have hlen : ¬ exts.length = 0 := fun h => hne (List.length_eq_zero_iff.mp h)
  have hparse : ∀ e ∈ exts, parseExtension H bondDenom e =
      .ok ⟨e.fromDate, e.toDate, ⟨bondDenom, e.amount.getD 0⟩⟩ := by
    intro e he
    obtain ⟨x, hx, h0, hlt⟩ := hpos e he
    exact parseExtension_eq hdenom hx h0 hlt
  have hloop := parseLoop_eq hparse []
  rw [List.nil_append] at hloop
  simp only [newMsgExtend, parseExtensions, if_true, failIf_of_not _ hlen, ok_bind, hloop, wrapErr]
  rfl

theorem emit_ok (hH : H.Works) (es : List Extension) (a : Bytes) (logs : List Log) :
    ∃ logs', forRange (emitLockExtendedEvent H a) logs (es.map some) = .ok logs' := by
  induction es generalizing logs with
  | nil => exact ⟨logs, rfl⟩
  | cons e es ih =>
    obtain ⟨topic, htopic⟩ := hH.makeTopic a
    obtain ⟨data, hdata⟩ := hH.packExtension e.fromDate e.toDate e.amount.amount
    obtain ⟨logs', hlogs⟩ := ih (logs ++ [⟨topic, data⟩])
    refine ⟨logs', ?_⟩
    simp only [List.map_cons, forRange_cons, emitLockExtendedEvent, htopic, deref, ofOption, hdata,
      ok_bind, hlogs]

theorem agrees_of_type (hH : H.Works) (hbond : k.bondDenom w = .ok bondDenom)
    (hdenom : H.validDenom bondDenom = true) (hne : exts ≠ [])
    (hpos : ∀ e ∈ exts, ∃ x, e.amount = some x ∧ 0 < x ∧ x < intBound) :
    Agrees k H ctx st w caller bondDenom extensionInputs exts := by
  obtain ⟨logs, hlogs⟩ := emit_ok hH (requested bondDenom exts) caller []
  obtain ⟨result, hresult⟩ := hH.packSuccess
  intro st'
  have hself : ¬ caller ≠ caller := not_not.mpr rfl
  simp only [precompileExtend, hbond, ok_bind, newMsgExtend_eq hdenom hne hpos,
    failIf_of_not _ hself, bind_eq_ok]
  constructor
  · intro h
    obtain ⟨_, _, st₁, hext, _, _, _, _, heq⟩ := h
    cases heq
    exact hext
  · intro h
    exact ⟨logs, result, st', h, logs, hlogs, result, hresult, rfl⟩

theorem precompileExtend_fails (htype : type ≠ extensionInputs) {out : LockStore × List Log × Bytes} :
    precompileExtend k H ctx st w caller [.address caller, .tuples type exts] ≠ .ok out := by
  intro h
  simp only [precompileExtend, newMsgExtend, parseExtensions, if_neg htype, bind_eq_ok,
    wrapErr_eq_ok] at h
  obtain ⟨_, _, _, ⟨_, hparse, _⟩, _⟩ := h
  cases hparse

/-- No call that comes through the decoder succeeds. -/
theorem precompileExtend_abi {out : LockStore × List Log × Bytes} :
    precompileExtend k H ctx st w caller [.address caller, .tuples abiExtensions exts] ≠ .ok out :=
  precompileExtend_fails abiExtensions_ne

end Agreement

/-- `MsgExtend` on the caller's request goes through exactly when the account is known
and its stored amounts allow the extensions. -/
theorem extend_sameMsg_iff {W : Type} {k : Keepers W} {H : Host} {t₀ t : BlockTime} {st : LockStore}
    (h : Reachable k t₀ t st) {ctx : Ctx} (hlater : t.time.nanos ≤ ctx.blockTime.time.nanos)
    {w : W} {caller bondDenom : Bytes} (hbond : k.bondDenom w = .ok bondDenom)
    (haddr : k.accAddressFromBech32 (H.accString caller) = .ok caller) {exts : List ExtensionInput}
    (hpos : ∀ e ∈ exts, ∃ x, e.amount = some x ∧ 0 < x ∧ x < intBound) :
    (∃ st', extend k ctx st w (sameMsg H caller bondDenom exts) = .ok st') ↔
      k.getAccount w caller ≠ none ∧
        CanExtendAll ctx (storedAmount st caller) (requested bondDenom exts) := by
  obtain ⟨L, hL, _⟩ := h.encodes
  have hn := h.delivered.within.mono (BlockTime.horizon_mono hlater)
  have hreq : ∀ e ∈ requested bondDenom exts,
      0 < e.amount.amount ∧ k.bondDenom w = .ok e.amount.denom := by
    intro e he
    obtain ⟨f, hf, rfl⟩ := List.mem_map.mp he
    obtain ⟨x, hx, h0, _⟩ := hpos f hf
    simp only [hx, Option.getD_some]
    exact ⟨h0, hbond⟩
  have hamounts : storedAmount st caller = fun d => amountOn d (L caller).locks := by
    funext d
    exact hL.storedAmount_eq caller d
  have hloop : (∃ st', forRange (extendOne k ctx w caller) st ((requested bondDenom exts).map some) =
      .ok st') ↔ _ := extensions_iff hL (le_refl _) hn hreq
  rw [hamounts, ← hloop]
  simp only [extend, sameMsg, haddr, wrapErr, ok_bind, bind_eq_ok, ofOption_eq_ok]
  cases k.getAccount w caller with
  | none => simp
  | some u => simp

/-- For a caller with non-empty, positive extensions of its own locks, the precompile
agrees with `MsgExtend` exactly when the argument has the declared type, which the
decoder never delivers, or the account is unknown or its stored amounts do not
allow the extensions. -/
theorem precompile_extend_agrees_iff {W : Type} (k : Keepers W) (H : Host) (hH : H.Works)
    {t₀ t : BlockTime} {st : LockStore} (h : Reachable k t₀ t st) (ctx : Ctx)
    (hlater : t.time.nanos ≤ ctx.blockTime.time.nanos) (w : W) (caller bondDenom : Bytes)
    (hbond : k.bondDenom w = .ok bondDenom) (hdenom : H.validDenom bondDenom = true)
    (haddr : k.accAddressFromBech32 (H.accString caller) = .ok caller) (type : GoType)
    (exts : List ExtensionInput) (hne : exts ≠ [])
    (hpos : ∀ e ∈ exts, ∃ x, e.amount = some x ∧ 0 < x ∧ x < intBound) :
    Agrees k H ctx st w caller bondDenom type exts ↔
      type = extensionInputs ∨ k.getAccount w caller = none ∨
        ¬ CanExtendAll ctx (storedAmount st caller) (requested bondDenom exts) := by
  by_cases htype : type = extensionInputs
  · subst htype
    exact ⟨fun _ => Or.inl rfl, fun _ => agrees_of_type hH hbond hdenom hne hpos⟩
  · have hfails : Agrees k H ctx st w caller bondDenom type exts ↔
        ¬ ∃ st', extend k ctx st w (sameMsg H caller bondDenom exts) = .ok st' := by
      constructor
      · intro hagrees hex
        obtain ⟨st', hst'⟩ := hex
        obtain ⟨logs, result, hrun⟩ := (hagrees st').mpr hst'
        exact precompileExtend_fails htype hrun
      · intro hnone st'
        constructor
        · intro hrun
          obtain ⟨logs, result, hrun⟩ := hrun
          exact absurd hrun (precompileExtend_fails htype)
        · intro hst'
          exact absurd ⟨st', hst'⟩ hnone
    rw [hfails, extend_sameMsg_iff h hlater hbond haddr hpos, or_iff_right htype, not_and_or, not_not]

/-- The SDK's texts and checks, and the contract ABI. -/
def chainHost : Host where
  accString := accText
  validDenom := validateDenom
  makeTopic a := .ok (Abi.leftPad a)
  packExtension fromDate toDate amount :=
    .ok (Abi.encode [.string fromDate, .string toDate, .uint amount.toNat])
  packSuccess := .ok (Abi.word 1)

def juneToJuly (amount : ℤ) : ExtensionInput :=
  ⟨ascii "2026-06-01", ascii "2026-07-01", [], some amount⟩

/-- With 40 locked until June, both refuse to move 41. -/
theorem precompile_extend_agrees_above_stored :
    ∃ st, Reachable (readers chain) newYear.blockTime newYear.blockTime st ∧
      storedAmount st (ascii "d") (ascii "2026-06-01") = 40 ∧
      Agrees (readers chain) chainHost newYear st twoValidators (ascii "d") (ascii "tsc")
        abiExtensions [juneToJuly 41] := by
  have hworks : chainHost.Works := ⟨fun a => ⟨_, rfl⟩, fun _ _ _ => ⟨_, rfl⟩, ⟨_, rfl⟩⟩
  have hlocked : (deliver (readers chain) newYear Store.empty twoValidators (.lock lockUntilJune) >>=
      fun s => (.ok (storedAmount s.1 (ascii "d") (ascii "2026-06-01")) : Out ℤ)) = .ok 40 := by
    decide +kernel
  obtain ⟨s, hs, hstored⟩ := (bind_eq_ok _ _ _).mp hlocked
  have h40 := Except.ok.inj hstored
  have hrun := Reachable.of_lock hs
  have hpos : ∀ e ∈ [juneToJuly 41], ∃ x, e.amount = some x ∧ 0 < x ∧ x < intBound := by
    intro e he
    rw [List.mem_singleton.mp he]
    exact ⟨41, rfl, by decide, by decide⟩
  refine ⟨s.1, hrun, h40, (precompile_extend_agrees_iff (readers chain) chainHost hworks hrun newYear
    (le_refl _) twoValidators (ascii "d") (ascii "tsc") rfl (by decide) (readText_accText (ascii "d"))
    abiExtensions [juneToJuly 41] (by simp) hpos).mpr (Or.inr (Or.inr ?_))⟩
  intro hcan
  have hle : (41 : ℤ) ≤ storedAmount s.1 (ascii "d") (ascii "2026-06-01") := hcan.1.enough
  omega

/-- With 40 locked until June, `MsgExtend` moves 10 of them to July and the precompile
refuses the decoder's value. -/
theorem precompile_refuses_extension :
    ∃ st st', Reachable (readers chain) newYear.blockTime newYear.blockTime st ∧
      extend (readers chain) newYear st twoValidators
        (sameMsg chainHost (ascii "d") (ascii "tsc") [juneToJuly 10]) = .ok st' ∧
      precompileExtend (readers chain) chainHost newYear st twoValidators (ascii "d")
        [.address (ascii "d"), .tuples abiExtensions [juneToJuly 10]] =
        .error (fail .plain "failed to parse extensions: %w"
          [.text "invalid extensions type: %T"]) := by
  obtain ⟨st, s', hst, hok⟩ := lockThenExtend_reachable
  obtain ⟨st', hextend, _⟩ := (bind_eq_ok _ _ _).mp hok
  exact ⟨st, st', hst, hextend, rfl⟩

end Tsc.Precompiles
