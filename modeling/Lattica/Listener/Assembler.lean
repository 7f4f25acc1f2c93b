import Mathlib.Algebra.Order.Field.Rat
import Mathlib.Logic.Function.Basic
import Lattica.Foundation.Binary64
import Lattica.Foundation.SortedSet
import Lattica.Reedsol.Reconstruct
import Lattica.Shred.FecSet

/-!
# The FEC assembler

`FecAssembler` of `crates/listener/src/lib.rs`. A call of `ingest` either stops
at the gate (parser, leader lookup, signature) without touching the assembler,
or reaches `ingestVerified` with an accepted shred. The two hash maps are
partial functions; the resolver is asked anew at every call, so every call
comes with the answers it gives then.

Confidences are rationals. `das_confidence` rounds every operation as `f64` does;
it is only ever asked at 32 shreds or more, where the answer is 1, so what
`try_finalize_slot` computes from it is exact.
-/

namespace Lattica.Listener

open Foundation Shred Reedsol

/-- `DATA_SHREDS_THRESHOLD`. -/
@[reducible, simp] def dataShredsThreshold : ℕ := 32

structure FecKey where
  slot : UInt64
  fecSetIndex : UInt32
deriving DecidableEq

inductive FecEvent where
  /-- First shred arrived for this FEC set. -/
  | started (key : FecKey) (merkleRoot : Bytes 32)
  /-- A new shred was accepted into the set. -/
  | shredAccepted (key : FecKey) (shredsPresent : ℕ) (erasureShardIndex : ℕ)
  /-- 32 shreds arrived and reconstruction succeeded. -/
  | reconstructed (key : FecKey) (merkleRoot : Bytes 32) (dasConfidence : ℚ)
  /-- Roots are in `fec_set_index` order. -/
  | slotFinalized (slot : UInt64) (fecRoots : List (Bytes 32)) (slotRoot : Bytes 32)
      (totalShredsObserved : ℕ) (slotDasConfidence : ℚ)
  | rejected (reason : String)
deriving DecidableEq

structure FecState where
  merkleRoot : Option (Bytes 32)
  leaderSig : Option (Bytes 64)
  /-- Indexed by erasure shard index. -/
  shards : List (Option (List UInt8))
  distinctSeen : ℕ
  reconstructed : Bool
  dasConfidenceAtReconstruct : ℚ
deriving DecidableEq

/-- `FecState::new`. -/
def FecState.new : FecState where
  merkleRoot := none
  leaderSig := none
  shards := List.replicate shredsPerFec none
  distinctSeen := 0
  reconstructed := false
  dasConfidenceAtReconstruct := 0

/-- A `BTreeSet<u32>`. -/
abbrev IndexSet : Type := SortedSet UInt32.toNat

structure SlotState where
  seenFecIndices : IndexSet
  reconstructedFecIndices : IndexSet
  lastShredSeen : Bool
  /-- The FEC set carrying the LAST_IN_SLOT marker. -/
  lastFecSetIndex : Option UInt32
  finalized : Bool

/-- `SlotState::default`. -/
def SlotState.default : SlotState where
  seenFecIndices := .empty
  reconstructedFecIndices := .empty
  lastShredSeen := false
  lastFecSetIndex := none
  finalized := false

structure FecAssembler where
  states : FecKey → Option FecState
  slots : UInt64 → Option SlotState

namespace FecAssembler

def new : FecAssembler where
  states := fun _ => none
  slots := fun _ => none

def setState (a : FecAssembler) (key : FecKey) (st : FecState) : FecAssembler :=
  { a with states := Function.update a.states key (some st) }

def setSlot (a : FecAssembler) (slot : UInt64) (ss : SlotState) : FecAssembler :=
  { a with slots := Function.update a.slots slot (some ss) }

/-- `entry(key).or_insert_with(FecState::new)`. -/
def stateOf (a : FecAssembler) (key : FecKey) : FecState := (a.states key).getD FecState.new

/-- `entry(slot).or_default()`. -/
def slotOf (a : FecAssembler) (slot : UInt64) : SlotState := (a.slots slot).getD SlotState.default

@[simp] theorem setState_states_self (a : FecAssembler) (key : FecKey) (st : FecState) :
    (a.setState key st).states key = some st := Function.update_self _ _ _

theorem setState_states_ne (a : FecAssembler) {key key' : FecKey} (st : FecState)
    (h : key' ≠ key) : (a.setState key st).states key' = a.states key' :=
  Function.update_of_ne h _ _

@[simp] theorem setState_slots (a : FecAssembler) (key : FecKey) (st : FecState) :
    (a.setState key st).slots = a.slots := rfl

@[simp] theorem setSlot_slots_self (a : FecAssembler) (slot : UInt64) (ss : SlotState) :
    (a.setSlot slot ss).slots slot = some ss := Function.update_self _ _ _

theorem setSlot_slots_ne (a : FecAssembler) {slot slot' : UInt64} (ss : SlotState)
    (h : slot' ≠ slot) : (a.setSlot slot ss).slots slot' = a.slots slot' :=
  Function.update_of_ne h _ _

@[simp] theorem setSlot_states (a : FecAssembler) (slot : UInt64) (ss : SlotState) :
    (a.setSlot slot ss).states = a.states := rfl

end FecAssembler

/-! ## Confidence and slot root -/

/-- The `for` loop of `das_confidence`. -/
def dasRatio (n : ℕ) : ℚ :=
  (List.range n).foldl (fun ratio (k : ℕ) => Binary64.round
    (ratio * Binary64.round (Binary64.round (31 - k) / Binary64.round (64 - k)))) 1

/-- `das_confidence`. -/
def dasConfidence (n : ℕ) : ℚ :=
  if n ≥ dataShredsThreshold then 1 else Binary64.round (1 - dasRatio n)

/-- The `while` loop of `aggregate_root`; its body is the one of `build_tree`. -/
def aggregateLoop (C : Crates) (layer : List (Bytes 32)) : List (Bytes 32) :=
  if 1 < layer.length then aggregateLoop C (nextLevel C layer) else layer
termination_by layer.length
decreasing_by
  rw [length_nextLevel]
  omega

/-- `aggregate_root`. -/
def aggregateRoot (C : Crates) (roots : List (Bytes 32)) : Exec Empty (Bytes 32) :=
  if roots.isEmpty then .ok (Bytes.zero 32)
  else
    match (aggregateLoop C roots).head? with
    | some root => .ok root
    | none => .panic .index

/-! ## Finalization -/

variable (C : Crates) (P : Profile)

/-- The loop of `try_finalize_slot` over the sets of the slot: roots, shred
count and the product of the failure probabilities; `none` is the `?`. -/
def collectSets (a : FecAssembler) (slot : UInt64) :
    List UInt32 → List (Bytes 32) → ℕ → ℚ → Exec Empty (Option (List (Bytes 32) × ℕ × ℚ))
  | [], fecRoots, totalShreds, undetect => .ok (some (fecRoots, totalShreds, undetect))
  | i :: is, fecRoots, totalShreds, undetect =>
      match a.states ⟨slot, i⟩ with
      | none => .ok none
      | some st =>
          match st.merkleRoot with
          | none => .ok none
          | some root => do
              let totalShreds ← addU P 64 totalShreds st.distinctSeen
              collectSets a slot is (fecRoots ++ [root]) totalShreds
                (undetect * (1 - st.dasConfidenceAtReconstruct))

/-- `indices_to_check`: the sets seen, up to the one with the marker. -/
def indicesToCheck (ss : SlotState) (lastIdx : UInt32) : List UInt32 :=
  ss.seenFecIndices.elems.filter fun i => i ≤ lastIdx

/-- `try_finalize_slot`. -/
def tryFinalizeSlot (a : FecAssembler) (slot : UInt64) :
    Exec Empty (FecAssembler × Option FecEvent) :=
  match a.slots slot with
  | none => .ok (a, none)
  | some ss =>
      if ss.finalized then .ok (a, none)
      else if !ss.lastShredSeen then .ok (a, none)
      else
        match ss.lastFecSetIndex with
        | none => .ok (a, none)
        | some lastIdx =>
            if (indicesToCheck ss lastIdx).any
                fun i => !ss.reconstructedFecIndices.contains i then .ok (a, none)
            else if !ss.seenFecIndices.contains lastIdx then .ok (a, none)
            else do
              let a := a.setSlot slot { ss with finalized := true }
              match ← collectSets P a slot (indicesToCheck ss lastIdx) [] 0 1 with
              | none => return (a, none)
              | some (fecRoots, totalShreds, undetect) => do
                  let slotRoot ← aggregateRoot C fecRoots
                  return (a, some (.slotFinalized slot fecRoots slotRoot totalShreds
                    (1 - undetect)))

/-! ## Ingestion -/

/-- The slot-level bookkeeping every accepted shred is subject to. -/
def bookkeep (v : VerifiedShred) (ss : SlotState) : SlotState :=
  let ss := { ss with seenFecIndices := ss.seenFecIndices.insert v.fecSetIndex }
  if v.isLastInSlot then
    { ss with
      lastShredSeen := true
      lastFecSetIndex := some (match ss.lastFecSetIndex with
        | none => v.fecSetIndex
        | some x => max x v.fecSetIndex) }
  else ss

/-- The root check: the state with the root recorded and the event of the first
shred, or `none` where the shred's root is another one. -/
def recordRoot (key : FecKey) (root : Bytes 32) (st : FecState) :
    Option (FecState × List FecEvent) :=
  match st.merkleRoot with
  | none => some ({ st with merkleRoot := some root }, [.started key root])
  | some existing => if existing ≠ root then none else some (st, [])

/-- `std::array::from_fn(|i| state.shards[i].clone())`. -/
def cloneShards (shards : List (Option (List UInt8))) : Exec Empty (List (Option (List UInt8))) :=
  (List.range shredsPerFec).mapM fun i =>
    match shards[i]? with
    | some s => .ok s
    | none => .panic .index

/-- Step 4 of `ingest`: the threshold is reached. -/
def tryReconstruct (a : FecAssembler) (key : FecKey) (st : FecState) (events : List FecEvent) :
    Exec Empty (FecAssembler × List FecEvent) := do
  let shards ← cloneShards st.shards
  match reconstruct C shards with
  | .error e => return (a, events ++ [.rejected s!"rs reconstruct: {e}"])
  | .ok _ => do
      let das := dasConfidence st.distinctSeen
      let st := { st with reconstructed := true, dasConfidenceAtReconstruct := das }
      let root ← match st.merkleRoot with
        | some root => .ok root
        | none => .panic .unwrap
      let a := a.setState key st
      let ss := a.slotOf key.slot
      let a := a.setSlot key.slot
        { ss with reconstructedFecIndices := ss.reconstructedFecIndices.insert key.fecSetIndex }
      let (a, ev) ← tryFinalizeSlot C P a key.slot
      return (a, events ++ [.reconstructed key root das] ++ ev.toList)

/-- Step 3 of `ingest`: store the shard `bytes` at position `idx`. -/
def storeShard (a : FecAssembler) (key : FecKey) (st : FecState) (idx : ℕ) (bytes : List UInt8)
    (events : List FecEvent) : Exec Empty (FecAssembler × List FecEvent) :=
  if idx ≥ shredsPerFec then
    .ok (a, events ++ [.rejected s!"erasure_shard_index out of range: {idx}"])
  else
    match st.shards[idx]? with
    | none => .panic .index
    | some (some _) => .ok (a, events)  -- duplicate
    | some none => do
        let distinctSeen ← addU P 64 st.distinctSeen 1
        let st := { st with shards := st.shards.set idx (some bytes), distinctSeen }
        let a := a.setState key st
        let events := events ++ [.shredAccepted key st.distinctSeen idx]
        if st.distinctSeen ≥ dataShredsThreshold ∧ st.reconstructed = false then
          tryReconstruct C P a key st events
        else return (a, events)

def regionOffset : ShredKind → ℕ
  | .data => sizeOfSignature
  | .code => 89

/-- `ingest` once the shred is accepted. -/
def ingestVerified (a : FecAssembler) (raw : List UInt8) (parsed : ParsedShred)
    (v : VerifiedShred) : Exec Empty (FecAssembler × List FecEvent) :=
  let key : FecKey := ⟨v.slot, v.fecSetIndex⟩
  let st := a.stateOf key
  let a := (a.setState key st).setSlot v.slot (bookkeep v (a.slotOf v.slot))
  if st.reconstructed then do
    -- the slot may still become final through the marker
    let (a, ev) ← tryFinalizeSlot C P a v.slot
    return (a, ev.toList)
  else
    match recordRoot key v.merkleRoot st with
    | none =>
        .ok (a, [.rejected "merkle root diverges within FEC set (leader equivocation?)"])
    | some (st, events) => do
        let a := a.setState key st
        let offset := regionOffset v.kind
        let bytes ← slice raw offset (offset + erasureShardSize)
        storeShard C P a key st parsed.erasureShardIndex bytes events

/-- `LeaderResolver::leader_for_slot`. -/
abbrev Leaders : Type := UInt64 → Option (Bytes 32)

/-- `FecAssembler::ingest`. -/
def ingest (leaderForSlot : Leaders) (a : FecAssembler) (raw : List UInt8) :
    Exec Empty (FecAssembler × List FecEvent) := do
  match ← (parseShred P raw).attempt with
  | .error e => return (a, [.rejected s!"parse: {e}"])
  | .ok parsed =>
      match leaderForSlot parsed.header.slot with
      | none => return (a, [.rejected s!"no leader for slot {parsed.header.slot}"])
      | some leaderPubkey =>
          match ← (verifyShred C P raw leaderPubkey).attempt with
          | .error e => return (a, [.rejected s!"verify: {e}"])
          | .ok v => ingestVerified C P a raw parsed v

/-- One call: what the resolver answers, and the datagram. -/
structure Call where
  leaders : Leaders
  raw : List UInt8

/-- A run of calls, with all events in order. -/
def ingestAll : FecAssembler → List Call → Exec Empty (FecAssembler × List FecEvent)
  | a, [] => .ok (a, [])
  | a, c :: cs => do
      let (a, events) ← ingest C P c.leaders a c.raw
      let (a, rest) ← ingestAll a cs
      return (a, events ++ rest)

/-- The assemblers some run of calls leads to. -/
def Reachable (a : FecAssembler) : Prop :=
  ∃ calls events, ingestAll C P .new calls = .ok (a, events)

end Lattica.Listener
