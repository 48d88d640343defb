import Tsc.Lockup.Invariants

/-!
# Genesis of the lockup module (`x/lockup/keeper/keeper.go:64-68`)

`ExportGenesis` returns a genesis state without fields and `InitGenesis` stores
nothing, so an exported chain starts again without locks.
-/

namespace Tsc.Lockup

open Go Sdk Kv Staking

variable {W : Type}

/-- `types.GenesisState` has no fields. -/
structure GenesisState where
  deriving DecidableEq

def initGenesis (st : LockStore) (_data : GenesisState) : Out LockStore := .ok st

def exportGenesis (_st : LockStore) : GenesisState := {}

theorem Encodes.get_eq_none {st : LockStore} {L : Ledger} (h : Encodes st L)
    (hempty : ∀ a, (L a).locks = []) (key : Bytes) : st.get key = none := by
  cases hget : st.get key with
  | none => rfl
  | some v =>
    rcases h.onlyKeys key v hget with ⟨a, hkey⟩ | ⟨d, t, a, hd, hkey⟩
    · rw [hkey, h.byAddress a, if_pos (hempty a)] at hget
      cases hget
    · have hzero : L.amounts a d = 0 := by
        unfold Ledger.amounts
        rw [hempty a]
        rfl
      rw [hkey, h.byDate d t a hd, if_pos hzero] at hget
      cases hget

/-- What a chain started from the export of `st` stores for every account is what
`st` stores, in both indexes. -/
def SurvivesExport (st : LockStore) : Prop :=
  ∃ st', initGenesis Store.empty (exportGenesis st) = .ok st' ∧
    (∀ a, getLocksByAddress st' a = getLocksByAddress st a) ∧
    ∀ u a, st'.get (getLockExpirationKey u a) = st.get (getLockExpirationKey u a)

theorem survivesExport_iff_no_locks (k : Keepers W) {t₀ t : BlockTime} {st : LockStore}
    (h : Reachable k t₀ t st) :
    SurvivesExport st ↔ ∀ a, getLocksByAddress st a = .ok [] := by
  obtain ⟨L, hL, _⟩ := h.encodes
  constructor
  · intro hsurvives a
    obtain ⟨st', hinit, hlists, _⟩ := hsurvives
    cases hinit
    exact (hlists a).symm
  · intro hnone
    have hempty : ∀ a, (L a).locks = [] := by
      intro a
      have ha := hnone a
      rw [hL.getLocksByAddress a] at ha
      exact Except.ok.inj ha
    refine ⟨Store.empty, rfl, ?_, ?_⟩
    · intro a
      exact (hnone a).symm
    · intro u a
      exact (hL.get_eq_none hempty _).symm

theorem survivesExport_start :
    Reachable (readers chain) newYear.blockTime newYear.blockTime Store.empty ∧
      SurvivesExport Store.empty := by
  have hrun : Reachable (readers chain) newYear.blockTime newYear.blockTime Store.empty :=
    Run.start
  refine ⟨hrun, (survivesExport_iff_no_locks (readers chain) hrun).mpr ?_⟩
  intro a
  rfl

def lockedUntilJune : Out (List Lock) := do
  let s ← deliver (readers chain) newYear Store.empty twoValidators (.lock lockUntilJune)
  getLocksByAddress s.1 (ascii "d")

/-- A lock of 40 until June is not in the store of the restarted chain. -/
theorem lock_lost_by_export :
    ∃ st, Reachable (readers chain) newYear.blockTime newYear.blockTime st ∧
      getLocksByAddress st (ascii "d") = .ok [⟨ascii "2026-06-01", 40⟩] ∧
      ∀ st', initGenesis Store.empty (exportGenesis st) = .ok st' →
        getLocksByAddress st' (ascii "d") = .ok [] := by
  have h : lockedUntilJune = .ok [⟨ascii "2026-06-01", 40⟩] := by decide +kernel
  simp only [lockedUntilJune, bind_eq_ok] at h
  obtain ⟨s, hs, hlocks⟩ := h
  refine ⟨s.1, Reachable.of_lock hs, hlocks, ?_⟩
  intro st' hinit
  cases hinit
  rfl

end Tsc.Lockup
