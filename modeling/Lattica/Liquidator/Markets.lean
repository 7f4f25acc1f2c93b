import Lattica.Liquidator.Accounts

/-!
# The market cache at startup

`Markets::load` walks the market indexes of each kind upwards and stops at the
first account that is not there, so the cache holds an initial segment of the
indexes. The builder reads it with `panic!` on a miss: what it may be asked for
is what the segment covers.
-/

namespace Lattica.Liquidator

open Foundation

/-- The contexts of an `anyhow::Error`, outermost first. -/
abbrev Error : Type := List String

/-- What is read of a `PerpMarket` or `SpotMarket`. -/
structure Market where
  marketIndex : UInt16
  /-- `amm.oracle` of a perp market. -/
  oracle : Pubkey

/-- The RPC node and the decoders of drift. -/
structure Node where
  /-- `get_account`: the data of an account. -/
  getAccount : Pubkey → Except String (List UInt8)
  /-- `PerpMarket::try_deserialize`. -/
  perpMarket : List UInt8 → Except String Market
  /-- `SpotMarket::try_deserialize`. -/
  spotMarket : List UInt8 → Except String Market

/-- `b"perp_market"`. -/
def perpSeed : List UInt8 := [112, 101, 114, 112, 95, 109, 97, 114, 107, 101, 116]

/-- `b"spot_market"`. -/
def spotSeed : List UInt8 := [115, 112, 111, 116, 95, 109, 97, 114, 107, 101, 116]

/-- `derive_pda`. -/
def derivePda (D : Program) (seed : List UInt8) (marketIndex : UInt16) : Pubkey :=
  (D.findProgramAddress [seed, toLe 2 marketIndex.toNat] D.programId).1

/-- The loop of `scan_markets` at index `i`, with `n` indexes to go. -/
def scanFrom (account : UInt16 → Except String (List UInt8))
    (tryDeserialize : List UInt8 → Except String Market) (extract : Market → MarketInfo) :
    ℕ → ℕ → MarketCache → Except Error MarketCache
  | 0, _, out => .ok out
  | n + 1, i, out =>
      match account (.ofNat i) with
      | .error _ => .ok out
      | .ok data =>
          match tryDeserialize data with
          | .error e => .error [s!"decode market index {i}", e]
          | .ok market =>
              scanFrom account tryDeserialize extract n (i + 1)
                (out.insert (.ofNat i) (extract market))

def scanMarkets (D : Program) (N : Node) (tryDeserialize : List UInt8 → Except String Market)
    (seed : List UInt8) (max : ℕ) (extract : Market → MarketInfo) : Except Error MarketCache :=
  scanFrom (fun i => N.getAccount (derivePda D seed i)) tryDeserialize extract max 0 ∅

/-- What both closures of `load` make of a market. -/
def marketInfo (D : Program) (seed : List UInt8) (m : Market) : MarketInfo where
  pubkey := derivePda D seed m.marketIndex
  oracle := m.oracle

def maxMarkets : ℕ := 64

/-- `Markets::load`. -/
def Markets.load (D : Program) (N : Node) : Except Error Markets := do
  let perps ← (scanMarkets D N N.perpMarket perpSeed maxMarkets (marketInfo D perpSeed)).mapError
    ("scan perp markets" :: ·)
  let spots ← (scanMarkets D N N.spotMarket spotSeed maxMarkets (marketInfo D spotSeed)).mapError
    ("scan spot markets" :: ·)
  return { perps, spots }

/-! ## The segment that is there -/

/-- How many of the `n` indexes from `i` on are there before the first that is not. -/
def liveFrom (account : UInt16 → Except String (List UInt8)) : ℕ → ℕ → ℕ
  | 0, _ => 0
  | n + 1, i =>
      match account (.ofNat i) with
      | .error _ => 0
      | .ok _ => liveFrom account n (i + 1) + 1

/-- The markets of a kind, as far as they are scanned for. -/
def live (D : Program) (N : Node) (seed : List UInt8) : ℕ :=
  liveFrom (fun i => N.getAccount (derivePda D seed i)) maxMarkets 0

section Scan

variable {account : UInt16 → Except String (List UInt8)}
  {tryDeserialize : List UInt8 → Except String Market} {extract : Market → MarketInfo}

end Scan

/-! ## What is loaded -/

section Load

variable {D : Program} {N : Node} {seed : List UInt8}
  {tryDeserialize : List UInt8 → Except String Market} {cache : MarketCache}

end Load

/-! ## What the builder may be asked for -/

/-- The open positions are in markets below the counts. -/
def Within (perps spots : ℕ) (u : User) : Prop :=
  (∀ p ∈ u.spotPositions, p.isAvailable = false → p.marketIndex.toNat < spots) ∧
    ∀ p ∈ u.perpPositions, p.isAvailable = false → p.marketIndex.toNat < perps

instance Within.instDecidable (perps spots : ℕ) (u : User) : Decidable (Within perps spots u) :=
  inferInstanceAs (Decidable (_ ∧ _))

end Lattica.Liquidator
