import Lattica.Foundation.Bytes
import Lattica.Foundation.SortedSet
import Mathlib.Data.Finmap
import Mathlib.Data.List.Lex
import Mathlib.Data.Prod.Lex

/-!
# The `liquidate_perp` instruction

`Markets` of `crates/liquidator/src/markets.rs` and `build_liquidate_perp_ix`
of `crates/liquidator/src/ix.rs`. The remaining accounts go through a sorted
set whose order is the hand-written `Ord` of `RemainingAccount`: class first,
then pubkey, the writable flag left out. The drift `User` is taken as its
authority and its two lists of positions.
-/

namespace Lattica.Liquidator

open Foundation

abbrev Pubkey : Type := Bytes 32

/-- What `Ord` of `[u8; 32]` compares, lexicographically. -/
def pubkeyOrder (pubkey : Pubkey) : List ℕ := pubkey.1.map UInt8.toNat

theorem pubkeyOrder_inj {p q : Pubkey} : pubkeyOrder p = pubkeyOrder q ↔ p = q := by
  constructor
  · intro h
    exact Subtype.ext (List.map_injective_iff.mpr (fun _ _ => UInt8.toNat_inj.mp) h)
  · rintro rfl
    rfl

/-! ## Markets -/

structure MarketInfo where
  pubkey : Pubkey
  oracle : Pubkey

abbrev MarketCache : Type := Finmap fun _ : UInt16 => MarketInfo

structure Markets where
  perps : MarketCache
  spots : MarketCache

/-- `*cache.get(&index).unwrap_or_else(|| panic!(..))`. -/
def getOrPanic (cache : MarketCache) (index : UInt16) : Exec Empty MarketInfo :=
  match cache.lookup index with
  | some info => .ok info
  | none => .panic .unwrap

def Markets.perp (markets : Markets) (index : UInt16) : Exec Empty MarketInfo :=
  getOrPanic markets.perps index

def Markets.spot (markets : Markets) (index : UInt16) : Exec Empty MarketInfo :=
  getOrPanic markets.spots index

/-! ## Users and instructions -/

structure Position where
  marketIndex : UInt16
  isAvailable : Bool

structure User where
  authority : Pubkey
  spotPositions : List Position
  perpPositions : List Position

structure AccountMeta where
  pubkey : Pubkey
  isSigner : Bool
  isWritable : Bool
deriving DecidableEq

/-- `AccountMeta::new`. -/
def AccountMeta.new (pubkey : Pubkey) (isSigner : Bool) : AccountMeta := ⟨pubkey, isSigner, true⟩

def AccountMeta.newReadonly (pubkey : Pubkey) (isSigner : Bool) : AccountMeta :=
  ⟨pubkey, isSigner, false⟩

structure Instruction where
  programId : Pubkey
  accounts : List AccountMeta
  data : List UInt8

/-- The drift program and the address derivation of the Solana SDK. -/
structure Program where
  /-- `drift_rs::constants::PROGRAM_ID`. -/
  programId : Pubkey
  /-- `Pubkey::find_program_address`: the address and its bump. -/
  findProgramAddress : List (List UInt8) → Pubkey → Pubkey × UInt8

namespace Program

/-- Seeds `[b"drift_state"]`. -/
def statePda (D : Program) : Pubkey :=
  (D.findProgramAddress [[100, 114, 105, 102, 116, 95, 115, 116, 97, 116, 101]] D.programId).1

/-- Seeds `[b"user_stats", authority]`. -/
def userStatsPda (D : Program) (authority : Pubkey) : Pubkey :=
  (D.findProgramAddress [[117, 115, 101, 114, 95, 115, 116, 97, 116, 115], authority.1]
    D.programId).1

end Program

/-! ## Remaining accounts -/

inductive RemainingAccount where
  | oracle (pubkey : Pubkey)
  | spot (pubkey : Pubkey) (writable : Bool)
  | perp (pubkey : Pubkey) (writable : Bool)
deriving DecidableEq

namespace RemainingAccount

def discriminant : RemainingAccount → ℕ
  | oracle _ => 0
  | spot _ _ => 1
  | perp _ _ => 2

def pubkey : RemainingAccount → Pubkey
  | oracle pubkey => pubkey
  | spot pubkey _ => pubkey
  | perp pubkey _ => pubkey

def intoMeta : RemainingAccount → AccountMeta
  | oracle pubkey => ⟨pubkey, false, false⟩
  | spot pubkey writable => ⟨pubkey, false, writable⟩
  | perp pubkey writable => ⟨pubkey, false, writable⟩

/-- `PartialEq::eq`. -/
def eq (a b : RemainingAccount) : Bool :=
  a.discriminant == b.discriminant && a.pubkey == b.pubkey

/-- `Ord::cmp`. -/
def cmp (a b : RemainingAccount) : Ordering :=
  match compare a.discriminant b.discriminant with
  | .eq => compareOfLessAndEq (pubkeyOrder a.pubkey) (pubkeyOrder b.pubkey)
  | o => o

/-- The key that `cmp` and `eq` look at. -/
def key (a : RemainingAccount) : ℕ ×ₗ List ℕ := toLex (a.discriminant, pubkeyOrder a.pubkey)

theorem key_lt_iff {a b : RemainingAccount} : a.key < b.key ↔ a.discriminant < b.discriminant ∨
    a.discriminant = b.discriminant ∧ pubkeyOrder a.pubkey < pubkeyOrder b.pubkey :=
  Prod.Lex.toLex_lt_toLex

theorem key_eq_iff {a b : RemainingAccount} :
    a.key = b.key ↔ a.discriminant = b.discriminant ∧ a.pubkey = b.pubkey := by
  rw [key, key, toLex_inj, Prod.mk.injEq, pubkeyOrder_inj]

/-- The hand-written order is the order of the keys. -/
theorem cmp_eq_lt_iff {a b : RemainingAccount} : a.cmp b = .lt ↔ a.key < b.key := by
  rw [key_lt_iff]
  unfold cmp
  rcases lt_trichotomy a.discriminant b.discriminant with hlt | heq | hgt
  · rw [compare_lt_iff_lt.mpr hlt]
    exact ⟨fun _ => Or.inl hlt, fun _ => rfl⟩
  · rw [compare_eq_iff_eq.mpr heq]
    show compareOfLessAndEq _ _ = _ ↔ _
    rw [compareOfLessAndEq_eq_lt]
    constructor
    · intro h
      exact Or.inr ⟨heq, h⟩
    · rintro (h | ⟨_, h⟩)
      · exact absurd heq (ne_of_lt h)
      · exact h
  · rw [compare_gt_iff_gt.mpr hgt]
    constructor
    · intro h
      cases h
    · rintro (h | ⟨h, _⟩)
      · exact absurd h (lt_asymm hgt)
      · exact absurd h (ne_of_gt hgt)

/-- The hand-written equality is equality of the keys. -/
theorem eq_iff {a b : RemainingAccount} : a.eq b = true ↔ a.key = b.key := by
  rw [key_eq_iff, eq, Bool.and_eq_true, beq_iff_eq, beq_iff_eq]

end RemainingAccount

/-- `BTreeSet<RemainingAccount>`. -/
abbrev RemainingAccounts : Type := SortedSet RemainingAccount.key

/-! ## The builder -/

/-- One `for p in positions.iter().filter(|p| !p.is_available())` loop. -/
def insertPositions (market : UInt16 → Exec Empty MarketInfo)
    (account : Pubkey → RemainingAccount) (ra : RemainingAccounts) (positions : List Position) :
    Exec Empty RemainingAccounts :=
  (positions.filter fun p => !p.isAvailable).foldlM (fun ra p => do
    let m ← market p.marketIndex
    pure ((ra.insert (account m.pubkey)).insert (.oracle m.oracle))) ra

/-- Both loops over one user. -/
def insertUser (markets : Markets) (ra : RemainingAccounts) (u : User) :
    Exec Empty RemainingAccounts := do
  let ra ← insertPositions markets.spot (.spot · false) ra u.spotPositions
  insertPositions markets.perp (.perp · false) ra u.perpPositions

def liquidatePerpDiscriminator : List UInt8 := [75, 35, 119, 247, 191, 18, 139, 2]

/-- The six accounts of the IDL, in its order. -/
def baseAccounts (D : Program) (liquidatorAuthority liquidatorUser liquidateeUser : Pubkey)
    (liquidateeUserData : User) : List AccountMeta :=
  let state := D.statePda
  let liquidatorStats := D.userStatsPda liquidatorAuthority
  let liquidateeStats := D.userStatsPda liquidateeUserData.authority
  [.newReadonly state false, .newReadonly liquidatorAuthority true, .new liquidatorUser false,
    .new liquidatorStats false, .new liquidateeUser false, .new liquidateeStats false]

/-- Discriminator, then `borsh` of index, amount and optional price. -/
def instructionData (marketIndex : UInt16) (liquidatorMaxBaseAssetAmount : UInt64)
    (limitPrice : Option UInt64) : List UInt8 :=
  liquidatePerpDiscriminator ++ toLe 2 marketIndex.toNat ++
    toLe 8 liquidatorMaxBaseAssetAmount.toNat ++
      match limitPrice with
      | none => [0]
      | some p => 1 :: toLe 8 p.toNat

def buildLiquidatePerpIx (D : Program) (liquidatorAuthority liquidatorUser : Pubkey)
    (liquidatorUserData : User) (liquidateeUser : Pubkey) (liquidateeUserData : User)
    (marketIndex : UInt16) (liquidatorMaxBaseAssetAmount : UInt64) (limitPrice : Option UInt64)
    (markets : Markets) : Exec Empty Instruction := do
  let metas := baseAccounts D liquidatorAuthority liquidatorUser liquidateeUser liquidateeUserData
  -- the target goes in first: its writable flag is the one the set keeps
  let perp ← markets.perp marketIndex
  let ra : RemainingAccounts :=
    (SortedSet.empty.insert (.perp perp.pubkey true)).insert (.oracle perp.oracle)
  let ra ← [liquidatorUserData, liquidateeUserData].foldlM (insertUser markets) ra
  let q ← markets.spot 0
  let ra := (ra.insert (.spot q.pubkey false)).insert (.oracle q.oracle)
  return {
    programId := D.programId
    accounts := metas ++ ra.elems.map RemainingAccount.intoMeta
    data := instructionData marketIndex liquidatorMaxBaseAssetAmount limitPrice }

end Lattica.Liquidator
