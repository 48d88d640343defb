import Tsc.Distro.SupplyCap
import Tsc.Sdk.Bech32

/-!
# Who may mint (`x/distro/keeper/msg_server_mint.go:17-35,79-81`)

`Mint` compares the text of the minting address with the signer's address written out
again, which is always in lower case. The parameters may hold either spelling: with the
one in upper case nobody may mint, the account it stands for included.
-/

namespace Tsc.Distro

open Go Sdk Bech32

/-- What is assumed of the SDK: an address of 1 to 255 bytes has the two spellings of
BIP-173, which alone decode to it, and is written in lower case. -/
structure Texts.ReadsBech32 (x : Texts) : Prop where
  decode_iff : ∀ v a, x.accAddressFromBech32 v = .ok a ↔
    (a ≠ [] ∧ a.length ≤ 255) ∧ Spells v (x.accAddressString a)
  lower_string : ∀ a, lower (x.accAddressString a) = x.accAddressString a

/-- The texts decode to the same account. -/
def SameAccount (x : Texts) (v w : Bytes) : Prop :=
  ∃ a, x.accAddressFromBech32 v = .ok a ∧ x.accAddressFromBech32 w = .ok a

/-- The check in `Mint`: the first signer's address against the parameters. -/
def mintAuthorized (x : Texts) (params : Params) (msg : MsgMint) : Prop :=
  isAuthorized params (x.accAddressString ((msg.getSigners x).headD []))

section Check

variable {x : Texts} (hx : x.ReadsBech32)
include hx

theorem Texts.ReadsBech32.decode_string {v : Bytes} {a : AccAddress}
    (h : x.accAddressFromBech32 v = .ok a) :
    x.accAddressFromBech32 (x.accAddressString a) = .ok a :=
  (hx.decode_iff _ a).mpr ⟨((hx.decode_iff v a).mp h).1, Or.inl rfl⟩

/-- A text in lower case that decodes is the one its account is written as. -/
theorem Texts.ReadsBech32.eq_string_iff {v : Bytes} {a : AccAddress}
    (h : x.accAddressFromBech32 v = .ok a) : v = x.accAddressString a ↔ lower v = v := by
  have hlower := ((hx.decode_iff v a).mp h).2.lower_eq (hx.lower_string a)
  rw [hlower]
  exact eq_comm

theorem mintAuthorized_iff {p : Params} (hp : p.validate x = .ok ()) {msg : MsgMint} {amount : ℤ}
    (hm : msg.validate x = .ok amount) :
    mintAuthorized x p msg ↔
      SameAccount x msg.minter p.mintingAddress ∧ lower p.mintingAddress = p.mintingAddress := by
  obtain ⟨a, ha⟩ := p.mintingAddress_decodes hp
  obtain ⟨b, hb⟩ := msg.minter_decodes hm
  have hsigner : (msg.getSigners x).headD [] = b := by
    unfold MsgMint.getSigners
    rw [hb]
    rfl
  unfold mintAuthorized isAuthorized
  rw [hsigner, ← hx.eq_string_iff ha]
  constructor
  · intro heq
    have hab : a = b := by
      have hdecode := hx.decode_string hb
      rw [← heq, ha] at hdecode
      exact Except.ok.inj hdecode
    subst hab
    exact ⟨⟨a, hb, ha⟩, heq⟩
  · rintro ⟨⟨c, hbc, hac⟩, heq⟩
    have hab : a = b := Except.ok.inj ((ha.symm.trans hac).trans (hbc.symm.trans hb))
    rw [heq, hab]

/-- The check agrees with the accounts unless the minting address is in upper case and
its account is the one that signs. -/
theorem mint_authorization_iff {p : Params} (hp : p.validate x = .ok ()) {msg : MsgMint}
    {amount : ℤ} (hm : msg.validate x = .ok amount) :
    (mintAuthorized x p msg ↔ SameAccount x msg.minter p.mintingAddress) ↔
      (lower p.mintingAddress = p.mintingAddress ∨
        ¬ SameAccount x msg.minter p.mintingAddress) := by
  rw [mintAuthorized_iff hx hp hm]
  tauto

end Check

theorem mint_unauthorized {W : Type} {k : Keepers W} {msg : MsgMint} {amount : ℤ}
    (hm : msg.validate k.toTexts = .ok amount) {s : State W} {p : Params}
    (hs : s.params = some p) (h : ¬ mintAuthorized k.toTexts p msg) (t : Time) :
    mint k t msg s = .error (fail .errUnauthorized "unauthorized sender" []) := by
  have hsigners : ¬ (msg.getSigners k.toTexts).length = 0 := by
    unfold MsgMint.getSigners
    split <;> simp
  unfold mintAuthorized at h
  simp only [mint, hm, ok_bind, failIf_of_not _ hsigners, State.getParams, hs, ofOption,
    failIf_of _ h, error_bind]

/-! ### BIP-173 texts -/

def bech32Texts : Texts where
  accAddressFromBech32 v :=
    match decode (ascii "tsc") v with
    | some a =>
      if a ≠ [] ∧ a.length ≤ 255 then .ok a
      else .error (fail .plain "address length must be between 1 and 255" [])
    | none => .error (fail .plain "decoding bech32 failed" [])
  accAddressString a := if a = [] then [] else encode (ascii "tsc") a
  newIntFromString := decimalTexts.newIntFromString
  newIntFromString_inRange := decimalTexts.newIntFromString_inRange

theorem bech32Texts_readsBech32 : bech32Texts.ReadsBech32 := by
  have hhrp : lower (ascii "tsc") = ascii "tsc" := by decide
  constructor
  · intro v a
    have hiff := decode_eq_some_iff hhrp v a
    unfold bech32Texts
    dsimp only
    constructor
    · intro h
      split at h
      · split_ifs at h with hlen
        cases h
        refine ⟨hlen, ?_⟩
        rw [if_neg hlen.1]
        exact hiff.mp ‹_›
      · cases h
    · rintro ⟨hlen, hspells⟩
      rw [if_neg hlen.1] at hspells
      rw [hiff.mpr hspells]
      exact if_pos hlen
  · intro a
    unfold bech32Texts
    dsimp only
    split_ifs
    · rfl
    · exact lower_encode hhrp a

def bech32Supply : Keepers (Bytes → ℤ) where
  toTexts := bech32Texts
  getSupply := supplyTable.getSupply
  mintCoins := supplyTable.mintCoins
  sendCoinsFromModuleToAccount := supplyTable.sendCoinsFromModuleToAccount
  getModuleAddress := supplyTable.getModuleAddress

def upperParams : Params := { defaultParams with mintingAddress := upper defaultMintingAddress }

def mintHundred : MsgMint := ⟨ascii "100", defaultMintingAddress⟩

/-- With the default minting address in upper case its account may not mint. -/
theorem upper_case_refuses_minter :
    upperParams.validate bech32Texts = .ok () ∧ mintHundred.validate bech32Texts = .ok 100 ∧
      SameAccount bech32Texts mintHundred.minter upperParams.mintingAddress ∧
      ¬ mintAuthorized bech32Texts upperParams mintHundred ∧
      mint bech32Supply (Time.ofDay 20291) mintHundred ⟨some upperParams, fun _ => 0⟩ =
        .error (fail .errUnauthorized "unauthorized sender" []) := by
  have hm : mintHundred.validate bech32Texts = .ok 100 := by decide +kernel
  have hnot : ¬ mintAuthorized bech32Texts upperParams mintHundred := by
    unfold mintAuthorized
    decide +kernel
  have hsame : SameAccount bech32Texts mintHundred.minter upperParams.mintingAddress := by
    refine ⟨[195, 98, 220, 149, 232, 61, 150, 37, 60, 11, 38, 11, 90, 98, 238, 65, 194, 131, 154,
      101], ?_, ?_⟩
    · decide +kernel
    · decide +kernel
  exact ⟨by decide +kernel, hm, hsame, hnot,
    mint_unauthorized (k := bech32Supply) hm rfl hnot _⟩

theorem default_minter_authorized :
    defaultParams.validate bech32Texts = .ok () ∧
      (mintAuthorized bech32Texts defaultParams mintHundred ↔
        SameAccount bech32Texts mintHundred.minter defaultParams.mintingAddress) := by
  have hp : defaultParams.validate bech32Texts = .ok () := by decide +kernel
  have hm : mintHundred.validate bech32Texts = .ok 100 := by decide +kernel
  exact ⟨hp, (mint_authorization_iff bech32Texts_readsBech32 hp hm).mpr (Or.inl (by decide +kernel))⟩

end Tsc.Distro
