import Mathlib.Data.Finset.Card
import Lattica.Listener.Gate
import Lattica.Shred.FecSetLayout

/-!
# What one call can do

`WellFormed` is the representation invariant of the assembler, `Exit` lists
the ways an admitted shred leaves `ingest`, each with the state of its set, the
state of its slot and the events. Under the invariant every call ends in one of
them (`ingestAdmitted_exit`), and every one of them keeps the invariant
(`Exit.wellFormed`). Everything else about the assembler is a case analysis on
`Exit`.
-/

namespace Lattica.Listener

open Foundation Shred Reedsol

variable {C : Crates} {P : Profile} {a : FecAssembler} {x : Admitted}

/-! ## Writing one set and its slot -/

namespace FecAssembler

/-- The state of a set and of its slot, written together. -/
def put (a : FecAssembler) (key : FecKey) (st : FecState) (ss : SlotState) : FecAssembler :=
  (a.setState key st).setSlot key.slot ss

variable (a) {key key' : FecKey} {st st' : FecState} {ss ss' : SlotState} {slot : UInt64}

@[simp] theorem put_states_self : (a.put key st ss).states key = some st :=
  setState_states_self a key st

theorem put_states_ne (h : key' ≠ key) : (a.put key st ss).states key' = a.states key' :=
  setState_states_ne a st h

@[simp] theorem put_slots_self : (a.put key st ss).slots key.slot = some ss :=
  setSlot_slots_self _ key.slot ss

theorem put_slots_ne (h : slot ≠ key.slot) : (a.put key st ss).slots slot = a.slots slot :=
  setSlot_slots_ne _ ss h

@[simp] theorem stateOf_put_self : (a.put key st ss).stateOf key = st := by
  rw [stateOf, put_states_self, Option.getD_some]

theorem stateOf_put_ne (h : key' ≠ key) : (a.put key st ss).stateOf key' = a.stateOf key' := by
  rw [stateOf, put_states_ne a h, stateOf]

@[simp] theorem slotOf_put_self : (a.put key st ss).slotOf key.slot = ss := by
  rw [slotOf, put_slots_self, Option.getD_some]

theorem slotOf_put_ne (h : slot ≠ key.slot) : (a.put key st ss).slotOf slot = a.slotOf slot := by
  rw [slotOf, put_slots_ne a h, slotOf]

@[simp] theorem put_setState : (a.put key st ss).setState key st' = a.put key st' ss := by
  simp [put, setState, setSlot]

@[simp] theorem put_setSlot : (a.put key st ss).setSlot key.slot ss' = a.put key st ss' := by
  simp [put, setSlot]

theorem setSlot_self (h : a.slots slot = some ss) : a.setSlot slot ss = a := by
  rw [setSlot, ← h, Function.update_eq_self]

end FecAssembler

/-! ## The representation invariant -/

theorem indexKey : Function.Injective UInt32.toNat := fun _ _ => UInt32.toNat_inj.mp

structure WellFormed (a : FecAssembler) : Prop where
  length : ∀ {key st}, a.states key = some st → st.shards.length = 64
  distinct : ∀ {key st}, a.states key = some st → st.distinctSeen = Crates.present st.shards
  /-- An entry is created with its root. -/
  root : ∀ {key st}, a.states key = some st → ∃ r, st.merkleRoot = some r
  seen : ∀ slot i, i ∈ (a.slotOf slot).seenFecIndices ↔ ∃ st, a.states ⟨slot, i⟩ = some st
  done : ∀ slot i, i ∈ (a.slotOf slot).reconstructedFecIndices ↔
    ∃ st, a.states ⟨slot, i⟩ = some st ∧ st.reconstructed = true
  marker : ∀ slot, (a.slotOf slot).lastShredSeen = (a.slotOf slot).lastFecSetIndex.isSome
  marker_seen : ∀ slot l, (a.slotOf slot).lastFecSetIndex = some l →
    l ∈ (a.slotOf slot).seenFecIndices

theorem wellFormed_new : WellFormed .new where
  length h := by simp [FecAssembler.new] at h
  distinct h := by simp [FecAssembler.new] at h
  root h := by simp [FecAssembler.new] at h
  seen slot i := by simp [FecAssembler.new, FecAssembler.slotOf, SlotState.default]
  done slot i := by simp [FecAssembler.new, FecAssembler.slotOf, SlotState.default]
  marker slot := rfl
  marker_seen slot l h := by simp [FecAssembler.new, FecAssembler.slotOf, SlotState.default] at h

theorem WellFormed.stateOf_length (h : WellFormed a) (key : FecKey) :
    (a.stateOf key).shards.length = 64 := by
  rw [FecAssembler.stateOf]
  cases hk : a.states key with
  | none => rfl
  | some st => exact h.length hk

theorem WellFormed.stateOf_distinct (h : WellFormed a) (key : FecKey) :
    (a.stateOf key).distinctSeen = Crates.present (a.stateOf key).shards := by
  rw [FecAssembler.stateOf]
  cases hk : a.states key with
  | none => rfl
  | some st => exact h.distinct hk

theorem WellFormed.distinct_le (h : WellFormed a) (key : FecKey) :
    (a.stateOf key).distinctSeen ≤ 64 := by
  rw [h.stateOf_distinct, ← h.stateOf_length key]
  exact List.countP_le_length

/-- An entry that has a root, or is reconstructed, is in the map. -/
theorem stateOf_eq_of_root {key : FecKey} {r : Bytes 32}
    (h : (a.stateOf key).merkleRoot = some r) : a.states key = some (a.stateOf key) := by
  rw [FecAssembler.stateOf] at h ⊢
  cases hk : a.states key with
  | none => simp [hk, FecState.new] at h
  | some st => rfl

theorem stateOf_eq_of_reconstructed {key : FecKey}
    (h : (a.stateOf key).reconstructed = true) : a.states key = some (a.stateOf key) := by
  rw [FecAssembler.stateOf] at h ⊢
  cases hk : a.states key with
  | none => simp [hk, FecState.new] at h
  | some st => rfl

/-- What holds of the written entry and of all others holds of every entry. -/
theorem forall_put_states {Q : FecKey → FecState → Prop} {key : FecKey} {st : FecState}
    {ss : SlotState} (hnew : Q key st) (hold : ∀ k s, a.states k = some s → Q k s) :
    ∀ {k s}, (a.put key st ss).states k = some s → Q k s := by
  intro k s hk
  by_cases heq : k = key
  · subst heq
    rw [FecAssembler.put_states_self] at hk
    exact Option.some.inj hk ▸ hnew
  · rw [FecAssembler.put_states_ne a heq] at hk
    exact hold k s hk

/-- Writing one set and its slot keeps the invariant. -/
theorem WellFormed.put (h : WellFormed a) {key : FecKey} {st : FecState} {ss : SlotState}
    (hlen : st.shards.length = 64) (hdist : st.distinctSeen = Crates.present st.shards)
    (hroot : ∃ r, st.merkleRoot = some r)
    (hseen : ∀ i, i ∈ ss.seenFecIndices ↔
      i = key.fecSetIndex ∨ i ∈ (a.slotOf key.slot).seenFecIndices)
    (hdone : ∀ i, i ∈ ss.reconstructedFecIndices ↔
      if i = key.fecSetIndex then st.reconstructed = true
      else i ∈ (a.slotOf key.slot).reconstructedFecIndices)
    (hmark : ss.lastShredSeen = ss.lastFecSetIndex.isSome)
    (hmark_seen : ∀ l, ss.lastFecSetIndex = some l → l ∈ ss.seenFecIndices) :
    WellFormed (a.put key st ss) := by
  have hkey : ∀ {i : UInt32}, i ≠ key.fecSetIndex → (⟨key.slot, i⟩ : FecKey) ≠ key := by
    intro i hi heq
    exact hi (congrArg FecKey.fecSetIndex heq)
  have hslot : ∀ {slot : UInt64} {i : UInt32}, slot ≠ key.slot → (⟨slot, i⟩ : FecKey) ≠ key := by
    intro slot i hs heq
    exact hs (congrArg FecKey.slot heq)
  refine ⟨forall_put_states hlen fun _ _ => h.length, forall_put_states hdist fun _ _ => h.distinct,
    forall_put_states hroot fun _ _ => h.root, ?_, ?_, ?_, ?_⟩
  · intro slot i
    by_cases hs : slot = key.slot
    · subst hs
      rw [FecAssembler.slotOf_put_self, hseen]
      by_cases hi : i = key.fecSetIndex
      · subst hi
        simp
      · rw [FecAssembler.put_states_ne a (hkey hi), ← h.seen]
        simp [hi]
    · rw [FecAssembler.slotOf_put_ne a hs, FecAssembler.put_states_ne a (hslot hs)]
      exact h.seen slot i
  · intro slot i
    by_cases hs : slot = key.slot
    · subst hs
      rw [FecAssembler.slotOf_put_self, hdone]
      by_cases hi : i = key.fecSetIndex
      · subst hi
        simp
      · rw [FecAssembler.put_states_ne a (hkey hi), if_neg hi, ← h.done]
    · rw [FecAssembler.slotOf_put_ne a hs, FecAssembler.put_states_ne a (hslot hs)]
      exact h.done slot i
  · intro slot
    by_cases hs : slot = key.slot
    · subst hs
      rw [FecAssembler.slotOf_put_self]
      exact hmark
    · rw [FecAssembler.slotOf_put_ne a hs]
      exact h.marker slot
  · intro slot l
    by_cases hs : slot = key.slot
    · subst hs
      rw [FecAssembler.slotOf_put_self]
      exact hmark_seen l
    · rw [FecAssembler.slotOf_put_ne a hs]
      exact h.marker_seen slot l

/-! ## Finalization in closed form -/

/-- The condition under which `try_finalize_slot` emits. -/
def Ready (ss : SlotState) : Prop :=
  ss.finalized = false ∧ ss.lastShredSeen = true ∧ ∃ l, ss.lastFecSetIndex = some l ∧
    (∀ i ∈ indicesToCheck ss l, i ∈ ss.reconstructedFecIndices) ∧ l ∈ ss.seenFecIndices

/-- The sets a final slot reports. -/
def listed (ss : SlotState) : List UInt32 :=
  match ss.lastFecSetIndex with
  | some l => indicesToCheck ss l
  | none => []

def rootOf (a : FecAssembler) (slot : UInt64) (i : UInt32) : Bytes 32 :=
  (a.stateOf ⟨slot, i⟩).merkleRoot.getD (Bytes.zero 32)

/-- The roots a final slot reports. -/
def listedRoots (a : FecAssembler) (slot : UInt64) (ss : SlotState) : List (Bytes 32) :=
  (listed ss).map (rootOf a slot)

/-- `aggregate_root` is the root of the tree over the roots. -/
def slotRootOf (C : Crates) (roots : List (Bytes 32)) : Bytes 32 :=
  if roots.isEmpty then Bytes.zero 32 else rootOfLeaves C roots

def finalEvent (C : Crates) (a : FecAssembler) (slot : UInt64) (ss : SlotState) : FecEvent :=
  .slotFinalized slot (listedRoots a slot ss) (slotRootOf C (listedRoots a slot ss))
    ((listed ss).map fun i => (a.stateOf ⟨slot, i⟩).distinctSeen).sum
    (1 - ((listed ss).map fun i => 1 - (a.stateOf ⟨slot, i⟩).dasConfidenceAtReconstruct).prod)

theorem aggregateLoop_head (C : Crates) (layer : List (Bytes 32)) :
    (aggregateLoop C layer).head? = C.tree.rootOf layer := by
  induction hn : layer.length using Nat.strong_induction_on generalizing layer with
  | _ n ih =>
      subst hn
      rw [aggregateLoop]
      by_cases hlen : 1 < layer.length
      · rw [if_pos hlen, ih _ (by rw [length_nextLevel]; omega) _ rfl, nextLevel_eq,
          TreeHash.rootOf_of_one_lt_length hlen]
      · rw [if_neg hlen, TreeHash.rootOf_of_length_le_one (by omega)]

theorem aggregateRoot_eq (C : Crates) (roots : List (Bytes 32)) :
    aggregateRoot C roots = .ok (slotRootOf C roots) := by
  rw [aggregateRoot, slotRootOf, aggregateLoop_head]
  cases hr : roots with
  | nil => rfl
  | cons r rs =>
      rw [rootOf_eq_rootOfLeaves (by simp)]
      rfl

theorem collectSets_eq (P : Profile) (slot : UInt64) : ∀ (is : List UInt32)
    (fecRoots : List (Bytes 32)) (total : ℕ) (undetect : ℚ),
    (∀ i ∈ is, ∃ r, (a.stateOf ⟨slot, i⟩).merkleRoot = some r ∧
      (a.stateOf ⟨slot, i⟩).distinctSeen ≤ 64) →
    total + 64 * is.length < 2 ^ 64 →
    collectSets P a slot is fecRoots total undetect =
      .ok (some (fecRoots ++ is.map (rootOf a slot),
        total + (is.map fun i => (a.stateOf ⟨slot, i⟩).distinctSeen).sum,
        undetect * (is.map fun i => 1 - (a.stateOf ⟨slot, i⟩).dasConfidenceAtReconstruct).prod))
  | [], fecRoots, total, undetect, _, _ => by simp [collectSets]
  | i :: is, fecRoots, total, undetect, hst, hfit => by
      obtain ⟨r, hr, hle⟩ := hst i List.mem_cons_self
      rw [List.length_cons] at hfit
      rw [collectSets, stateOf_eq_of_root hr]
      simp only [hr]
      rw [addU_eq (by omega), Exec.ok_bind,
        collectSets_eq P slot is _ _ _ (fun j hj => hst j (List.mem_cons_of_mem i hj)) (by omega)]
      simp only [List.map_cons, List.sum_cons, List.prod_cons, List.append_assoc,
        List.singleton_append, rootOf, hr, Option.getD_some, mul_assoc, add_assoc]

theorem length_elems_le (s : IndexSet) : s.elems.length ≤ 2 ^ 32 := by
  have hnodup : (s.elems.map UInt32.toNat).Nodup := s.nodup.map indexKey
  have hsub : (s.elems.map UInt32.toNat).toFinset ⊆ Finset.range (2 ^ 32) := by
    intro n hn
    rw [List.mem_toFinset] at hn
    obtain ⟨i, _, rfl⟩ := List.mem_map.mp hn
    exact Finset.mem_range.mpr i.toNat_lt
  have hcard := Finset.card_le_card hsub
  rwa [List.toFinset_card_of_nodup hnodup, List.length_map, Finset.card_range] at hcard

/-- How `try_finalize_slot` leaves the slot, and its events. -/
inductive Close (C : Crates) (a : FecAssembler) (slot : UInt64) (ss : SlotState) :
    SlotState → List FecEvent → Prop
  | final (h : Ready ss) : Close C a slot ss { ss with finalized := true } [finalEvent C a slot ss]
  | waiting (h : ¬ Ready ss) : Close C a slot ss ss []

theorem mem_indicesToCheck {ss : SlotState} {l i : UInt32} :
    i ∈ indicesToCheck ss l ↔ i ∈ ss.seenFecIndices ∧ i ≤ l := by
  rw [indicesToCheck, List.mem_filter, decide_eq_true_eq, SortedSet.mem_elems]

theorem any_missing_iff {ss : SlotState} {l : UInt32} :
    ((indicesToCheck ss l).any fun i => !ss.reconstructedFecIndices.contains i) = false ↔
      ∀ i ∈ indicesToCheck ss l, i ∈ ss.reconstructedFecIndices := by
  rw [List.any_eq_false]
  refine forall_congr' fun i => imp_congr_right fun _ => ?_
  rw [Bool.not_eq_true', Bool.not_eq_false, SortedSet.contains_iff indexKey]

section TryFinalize

variable {slot : UInt64} {ss : SlotState}

/-- A slot that is not ready stays as it is: one of the checks returns. -/
theorem tryFinalizeSlot_waiting (hs : a.slots slot = some ss) (hnot : ¬ Ready ss) :
    tryFinalizeSlot C P a slot = .ok (a, none) := by
  unfold tryFinalizeSlot
  rw [hs]
  by_cases hfin : ss.finalized = true
  · exact if_pos hfin
  by_cases hmark : ss.lastShredSeen = true
  · simp only [hfin, hmark, Bool.not_true, Bool.false_eq_true, if_false]
    cases hlast : ss.lastFecSetIndex with
    | none => rfl
    | some l =>
        cases hany : (indicesToCheck ss l).any fun i => !ss.reconstructedFecIndices.contains i with
        | true => simp only [hany, if_true]
        | false =>
            have hseen : l ∉ ss.seenFecIndices := fun hmem => hnot
              ⟨Bool.eq_false_iff.mpr hfin, hmark, l, hlast, any_missing_iff.mp hany, hmem⟩
            have hcontains : ss.seenFecIndices.contains l = false := by
              rwa [Bool.eq_false_iff, ne_eq, SortedSet.contains_iff indexKey]
            simp only [hany, hcontains, Bool.not_false, Bool.false_eq_true, if_false, if_true]
  · simp only [hfin, hmark, Bool.not_false, Bool.false_eq_true, if_false, if_true]

/-- The sets of a ready slot are all in the map, with their roots. -/
theorem collectSets_ready (h : WellFormed a) (hs : a.slots slot = some ss) (l : UInt32)
    (ss' : SlotState) :
    collectSets P (a.setSlot slot ss') slot (indicesToCheck ss l) [] 0 1 =
      .ok (some ((indicesToCheck ss l).map (rootOf a slot),
        ((indicesToCheck ss l).map fun i => (a.stateOf ⟨slot, i⟩).distinctSeen).sum,
        ((indicesToCheck ss l).map fun i =>
          1 - (a.stateOf ⟨slot, i⟩).dasConfidenceAtReconstruct).prod)) := by
  have hslotOf : a.slotOf slot = ss := by rw [FecAssembler.slotOf, hs, Option.getD_some]
  have hroots : ∀ i ∈ indicesToCheck ss l,
      ∃ r, ((a.setSlot slot ss').stateOf ⟨slot, i⟩).merkleRoot = some r ∧
        ((a.setSlot slot ss').stateOf ⟨slot, i⟩).distinctSeen ≤ 64 := by
    intro i hi
    obtain ⟨st, hst⟩ := (h.seen slot i).mp (hslotOf ▸ (mem_indicesToCheck.mp hi).1)
    obtain ⟨r, hr⟩ := h.root hst
    refine ⟨r, ?_, h.distinct_le ⟨slot, i⟩⟩
    rw [FecAssembler.stateOf, FecAssembler.setSlot_states, hst]
    exact hr
  have hfit : 0 + 64 * (indicesToCheck ss l).length < 2 ^ 64 := by
    have hle := length_elems_le ss.seenFecIndices
    have hfilter : (indicesToCheck ss l).length ≤ ss.seenFecIndices.elems.length :=
      List.length_filter_le _ _
    omega
  rw [collectSets_eq P slot _ [] 0 1 hroots hfit, List.nil_append, Nat.zero_add, one_mul]
  rfl

/-- A ready slot is final and reports its sets. -/
theorem tryFinalizeSlot_final (h : WellFormed a) (hs : a.slots slot = some ss) (hr : Ready ss) :
    tryFinalizeSlot C P a slot =
      .ok (a.setSlot slot { ss with finalized := true }, some (finalEvent C a slot ss)) := by
  obtain ⟨hfin, hmark, l, hlast, hall, hseen⟩ := hr
  have hlisted : listed ss = indicesToCheck ss l := by rw [listed, hlast]
  unfold tryFinalizeSlot
  rw [hs]
  simp only [hfin, hmark, hlast, any_missing_iff.mpr hall,
    (SortedSet.contains_iff indexKey).mpr hseen, Bool.not_true, Bool.false_eq_true, if_false]
  rw [← hlast, collectSets_ready h hs, Exec.ok_bind]
  simp only [aggregateRoot_eq, Exec.ok_bind, Exec.pure_eq]
  rw [finalEvent, listedRoots, hlisted]

theorem tryFinalizeSlot_close (h : WellFormed a) (hs : a.slots slot = some ss) :
    ∃ ss' ev, tryFinalizeSlot C P a slot = .ok (a.setSlot slot ss', ev) ∧
      Close C a slot ss ss' ev.toList := by
  by_cases hr : Ready ss
  · exact ⟨_, _, tryFinalizeSlot_final h hs hr, .final hr⟩
  · refine ⟨ss, none, ?_, .waiting hr⟩
    rw [tryFinalizeSlot_waiting hs hr, FecAssembler.setSlot_self a hs]

end TryFinalize

/-! ## The exits of `ingest` -/

section Exits

variable (a x)

/-- The slot after the bookkeeping. -/
def booked : SlotState := bookkeep x.shred (a.slotOf x.key.slot)

/-- The set with the shred's root. -/
def rooted : FecState := { a.stateOf x.key with merkleRoot := some x.root }

/-- The set with the shred stored. -/
def stored : FecState :=
  { rooted a x with
    shards := (a.stateOf x.key).shards.set x.idx (some x.bytes)
    distinctSeen := (a.stateOf x.key).distinctSeen + 1 }

/-- The set reconstructed; at the threshold the confidence is 1. -/
def finished : FecState :=
  { stored a x with reconstructed := true, dasConfidenceAtReconstruct := 1 }

/-- The slot with the set reconstructed. -/
def bookedDone : SlotState :=
  { booked a x with
    reconstructedFecIndices := (booked a x).reconstructedFecIndices.insert x.key.fecSetIndex }

def startEvents : List FecEvent :=
  match (a.stateOf x.key).merkleRoot with
  | none => [.started x.key x.root]
  | some _ => []

def acceptEvents : List FecEvent :=
  startEvents a x ++ [.shredAccepted x.key ((a.stateOf x.key).distinctSeen + 1) x.idx]

/-- The set is not reconstructed, and has no root or the shred's. -/
structure Open : Prop where
  pending : (a.stateOf x.key).reconstructed = false
  root : ∀ r, (a.stateOf x.key).merkleRoot = some r → r = x.root

/-- The shred's position in its set is in range and free. -/
def Free : Prop := (a.stateOf x.key).shards[x.idx]? = some none

end Exits

/-- The ways an admitted shred leaves `ingest`: the state of its set, the state
of its slot, and the events. -/
inductive Exit (C : Crates) (a : FecAssembler) (x : Admitted) :
    FecState → SlotState → List FecEvent → Prop
  | settled {ss es} (hrec : (a.stateOf x.key).reconstructed = true)
      (hclose : Close C (a.put x.key (a.stateOf x.key) (booked a x)) x.key.slot (booked a x)
        ss es) :
      Exit C a x (a.stateOf x.key) ss es
  | diverges {r} (hrec : (a.stateOf x.key).reconstructed = false)
      (hroot : (a.stateOf x.key).merkleRoot = some r) (hne : r ≠ x.root) :
      Exit C a x (a.stateOf x.key) (booked a x)
        [.rejected "merkle root diverges within FEC set (leader equivocation?)"]
  | outOfRange (hopen : Open a x) (hidx : 64 ≤ x.idx) :
      Exit C a x (rooted a x) (booked a x)
        (startEvents a x ++ [.rejected s!"erasure_shard_index out of range: {x.idx}"])
  | duplicate {s} (hopen : Open a x)
      (hdup : (a.stateOf x.key).shards[x.idx]? = some (some s)) :
      Exit C a x (rooted a x) (booked a x) (startEvents a x)
  | accepted (hopen : Open a x) (hfree : Free a x)
      (hfew : (a.stateOf x.key).distinctSeen + 1 < 32) :
      Exit C a x (stored a x) (booked a x) (acceptEvents a x)
  | failed {e} (hopen : Open a x) (hfree : Free a x)
      (hmany : 32 ≤ (a.stateOf x.key).distinctSeen + 1)
      (hrs : reconstruct C (stored a x).shards = .error e) :
      Exit C a x (stored a x) (booked a x)
        (acceptEvents a x ++ [.rejected s!"rs reconstruct: {e}"])
  | recovered {out ss es} (hopen : Open a x) (hfree : Free a x)
      (hmany : 32 ≤ (a.stateOf x.key).distinctSeen + 1)
      (hrs : reconstruct C (stored a x).shards = .ok out)
      (hclose : Close C (a.put x.key (finished a x) (bookedDone a x)) x.key.slot
        (bookedDone a x) ss es) :
      Exit C a x (finished a x) ss
        (acceptEvents a x ++ [.reconstructed x.key x.root 1] ++ es)

/-! ## Every exit keeps the invariant -/

theorem mem_booked_seen {i : UInt32} : i ∈ (booked a x).seenFecIndices ↔
    i = x.key.fecSetIndex ∨ i ∈ (a.slotOf x.key.slot).seenFecIndices := by
  have hins := SortedSet.mem_insert indexKey (s := (a.slotOf x.key.slot).seenFecIndices)
    (x := x.shred.fecSetIndex) (y := i)
  rw [booked, bookkeep]
  split
  · exact hins
  · exact hins

theorem booked_reconstructed : (booked a x).reconstructedFecIndices =
    (a.slotOf x.key.slot).reconstructedFecIndices := by
  rw [booked, bookkeep]
  split <;> rfl

theorem booked_finalized : (booked a x).finalized = (a.slotOf x.key.slot).finalized := by
  rw [booked, bookkeep]
  split <;> rfl

theorem max_index (i j : UInt32) : (max i j = i ∧ j ≤ i) ∨ (max i j = j ∧ i ≤ j) := by
  have hmax : max i j = if i ≤ j then j else i := rfl
  by_cases hle : i ≤ j
  · exact Or.inr ⟨by rw [hmax, if_pos hle], hle⟩
  · refine Or.inl ⟨by rw [hmax, if_neg hle], ?_⟩
    rw [UInt32.le_iff_toNat_le] at hle ⊢
    omega

/-- A marker shred moves the marker to the larger of the old one and its own set. -/
theorem booked_last_marker (hlast : x.isLast = true) :
    ∃ l, (booked a x).lastFecSetIndex = some l ∧ x.key.fecSetIndex ≤ l ∧
      (l = x.key.fecSetIndex ∨ (a.slotOf x.key.slot).lastFecSetIndex = some l) ∧
      ∀ m, (a.slotOf x.key.slot).lastFecSetIndex = some m → m ≤ l := by
  rw [Admitted.isLast] at hlast
  rw [booked, bookkeep, if_pos hlast]
  cases hm : (a.slotOf x.key.slot).lastFecSetIndex with
  | none => exact ⟨_, rfl, UInt32.le_refl _, Or.inl rfl, fun m h => by cases h⟩
  | some m =>
      refine ⟨max m x.shred.fecSetIndex, rfl, ?_, ?_, fun m' hm' => ?_⟩
      · rcases max_index m x.shred.fecSetIndex with ⟨heq, hle⟩ | ⟨heq, _⟩
        · exact heq.symm ▸ hle
        · exact heq.symm ▸ UInt32.le_refl _
      · rcases max_index m x.shred.fecSetIndex with ⟨heq, _⟩ | ⟨heq, _⟩
        · exact Or.inr (by rw [heq])
        · exact Or.inl heq
      · cases hm'
        rcases max_index m x.shred.fecSetIndex with ⟨heq, _⟩ | ⟨heq, hle⟩
        · exact heq.symm ▸ UInt32.le_refl _
        · exact heq.symm ▸ hle

/-- Any other shred leaves it. -/
theorem booked_last_other (hlast : x.isLast = false) :
    (booked a x).lastFecSetIndex = (a.slotOf x.key.slot).lastFecSetIndex := by
  rw [Admitted.isLast] at hlast
  rw [booked, bookkeep, if_neg (by simp [hlast])]

theorem booked_marker (h : WellFormed a) :
    (booked a x).lastShredSeen = (booked a x).lastFecSetIndex.isSome := by
  have hm := h.marker x.key.slot
  rw [booked, bookkeep]
  split
  · rfl
  · exact hm

theorem booked_marker_seen (h : WellFormed a) :
    ∀ l, (booked a x).lastFecSetIndex = some l → l ∈ (booked a x).seenFecIndices := by
  intro l hl
  rw [mem_booked_seen]
  cases hlast : x.isLast with
  | true =>
      obtain ⟨l', hl', _, hfrom, _⟩ := booked_last_marker (a := a) hlast
      rw [hl'] at hl
      cases hl
      exact hfrom.imp_right (h.marker_seen x.key.slot l)
  | false =>
      rw [booked_last_other hlast] at hl
      exact Or.inr (h.marker_seen x.key.slot l hl)

theorem Close.slot {slot : UInt64} {ss ss' : SlotState} {es : List FecEvent}
    (h : Close C a slot ss ss' es) : ss' = ss ∨ ss' = { ss with finalized := true } := by
  cases h with
  | final _ => exact Or.inr rfl
  | waiting _ => exact Or.inl rfl

/-- The invariant does not look at `finalized`. -/
theorem WellFormed.close (h : WellFormed a) {slot : UInt64} {ss ss' : SlotState}
    {es : List FecEvent} (hs : a.slots slot = some ss) (hclose : Close C a slot ss ss' es) :
    WellFormed (a.setSlot slot ss') := by
  rcases hclose.slot with rfl | rfl
  · rw [FecAssembler.setSlot_self a hs]
    exact h
  · have hold : a.slotOf slot = ss := by rw [FecAssembler.slotOf, hs, Option.getD_some]
    have hslot : ∀ s, ∃ f, (a.setSlot slot { ss with finalized := true }).slotOf s =
        { a.slotOf s with finalized := f } := by
      intro s
      by_cases heq : s = slot
      · subst heq
        exact ⟨true, by rw [hold, FecAssembler.slotOf, FecAssembler.setSlot_slots_self]; rfl⟩
      · exact ⟨(a.slotOf s).finalized, by
          rw [FecAssembler.slotOf, FecAssembler.setSlot_slots_ne a _ heq]; rfl⟩
    refine ⟨h.length, h.distinct, h.root, ?_, ?_, ?_, ?_⟩
    · intro s i
      obtain ⟨f, hf⟩ := hslot s
      rw [hf]
      exact h.seen s i
    · intro s i
      obtain ⟨f, hf⟩ := hslot s
      rw [hf]
      exact h.done s i
    · intro s
      obtain ⟨f, hf⟩ := hslot s
      rw [hf]
      exact h.marker s
    · intro s l
      obtain ⟨f, hf⟩ := hslot s
      rw [hf]
      exact h.marker_seen s l

/-- A set is in its slot's reconstructed indexes exactly when it is reconstructed. -/
theorem WellFormed.mem_reconstructed (h : WellFormed a) (slot : UInt64) (i : UInt32) :
    i ∈ (a.slotOf slot).reconstructedFecIndices ↔
      (a.stateOf ⟨slot, i⟩).reconstructed = true := by
  rw [h.done]
  constructor
  · rintro ⟨st, hst, hrec⟩
    rw [FecAssembler.stateOf, hst]
    exact hrec
  · intro hrec
    exact ⟨_, stateOf_eq_of_reconstructed hrec, hrec⟩

/-- The assembler after the bookkeeping, the set's `reconstructed` unchanged. -/
theorem WellFormed.booked (h : WellFormed a) {st : FecState} (hlen : st.shards.length = 64)
    (hdist : st.distinctSeen = Crates.present st.shards) (hroot : ∃ r, st.merkleRoot = some r)
    (hrec : st.reconstructed = (a.stateOf x.key).reconstructed) :
    WellFormed (a.put x.key st (booked a x)) := by
  refine h.put hlen hdist hroot (fun _ => mem_booked_seen) (fun i => ?_) (booked_marker h)
    (booked_marker_seen h)
  rw [booked_reconstructed]
  split
  · rename_i hi
    rw [hi, h.mem_reconstructed, hrec]
  · rfl

theorem present_set {shards : List (Option (List UInt8))} {i : ℕ} {s : List UInt8}
    (h : shards[i]? = some none) :
    Crates.present (shards.set i (some s)) = Crates.present shards + 1 := by
  obtain ⟨hi, hget⟩ := List.getElem?_eq_some_iff.mp h
  rw [Crates.present, List.countP_set hi, hget]
  simp [Crates.present]

theorem WellFormed.stored_length (h : WellFormed a) : (stored a x).shards.length = 64 := by
  rw [stored, List.length_set]
  exact h.stateOf_length x.key

theorem WellFormed.stored_distinct (h : WellFormed a) (hfree : Free a x) :
    (stored a x).distinctSeen = Crates.present (stored a x).shards := by
  rw [stored]
  simp only
  rw [present_set hfree, h.stateOf_distinct]

theorem WellFormed.finished (h : WellFormed a) (hfree : Free a x) :
    WellFormed (a.put x.key (finished a x) (bookedDone a x)) := by
  refine h.put h.stored_length (h.stored_distinct hfree) ⟨_, rfl⟩ (fun _ => mem_booked_seen)
    (fun i => ?_) (booked_marker h) (booked_marker_seen h)
  rw [bookedDone]
  simp only
  rw [SortedSet.mem_insert indexKey, booked_reconstructed]
  by_cases hi : i = x.key.fecSetIndex
  · simp [hi, Listener.finished]
  · simp [hi]

/-- **Every exit keeps the invariant.** -/
theorem Exit.wellFormed (h : WellFormed a) {st : FecState} {ss : SlotState} {es : List FecEvent}
    (hexit : Exit C a x st ss es) : WellFormed (a.put x.key st ss) := by
  have hlen := h.stateOf_length x.key
  have hdist := h.stateOf_distinct x.key
  cases hexit with
  | settled hrec hclose =>
      have hwf := (h.booked (x := x) hlen hdist (h.root (stateOf_eq_of_reconstructed hrec))
        rfl).close (FecAssembler.put_slots_self a) hclose
      rwa [FecAssembler.put_setSlot] at hwf
  | diverges _ hr _ => exact h.booked hlen hdist ⟨_, hr⟩ rfl
  | outOfRange _ _ => exact h.booked hlen hdist ⟨_, rfl⟩ rfl
  | duplicate _ _ => exact h.booked hlen hdist ⟨_, rfl⟩ rfl
  | accepted _ hfree _ => exact h.booked h.stored_length (h.stored_distinct hfree) ⟨_, rfl⟩ rfl
  | failed _ hfree _ _ => exact h.booked h.stored_length (h.stored_distinct hfree) ⟨_, rfl⟩ rfl
  | recovered _ hfree _ _ hclose =>
      have hwf := (h.finished hfree).close (FecAssembler.put_slots_self a) hclose
      rwa [FecAssembler.put_setSlot] at hwf

/-! ## Every call ends in an exit -/

theorem cloneShards_eq {shards : List (Option (List UInt8))} (h : shards.length = 64) :
    cloneShards shards = .ok shards := by
  rw [cloneShards]
  refine (Exec.mapM_eq_ok (g := fun i => shards.getD i none) fun i hi => ?_).trans ?_
  · have hi : i < shards.length := by
      rw [h]
      exact List.mem_range.mp hi
    rw [List.getElem?_eq_getElem hi, List.getD_eq_getElem _ _ hi]
  · congr 1
    apply List.ext_getElem
    · simp [h]
    · intro i hi hi'
      rw [List.getElem_map, List.getElem_range, List.getD_eq_getElem _ _ hi']

theorem recordRoot_open (hopen : Open a x) :
    recordRoot x.key x.root (a.stateOf x.key) = some (rooted a x, startEvents a x) := by
  rw [recordRoot, startEvents, rooted]
  cases hr : (a.stateOf x.key).merkleRoot with
  | none => rfl
  | some r =>
      have heq := hopen.root r hr
      simp only [heq, ne_eq, not_true_eq_false, if_false]
      rw [← heq, ← hr]

theorem dasConfidence_threshold {n : ℕ} (h : 32 ≤ n) : dasConfidence n = 1 := by
  rw [dasConfidence, if_pos h]

theorem tryReconstruct_exit (h : WellFormed a) (hopen : Open a x) (hfree : Free a x)
    (hmany : 32 ≤ (a.stateOf x.key).distinctSeen + 1) :
    ∃ st ss es, tryReconstruct C P (a.put x.key (stored a x) (booked a x)) x.key (stored a x)
      (acceptEvents a x) = .ok (a.put x.key st ss, es) ∧ Exit C a x st ss es := by
  rw [tryReconstruct, cloneShards_eq h.stored_length, Exec.ok_bind]
  cases hrs : reconstruct C (stored a x).shards with
  | error e => exact ⟨_, _, _, rfl, .failed hopen hfree hmany hrs⟩
  | ok out =>
      obtain ⟨ss, ev, hfin, hclose⟩ := tryFinalizeSlot_close (C := C) (P := P) (h.finished hfree)
        (FecAssembler.put_slots_self a)
      have hdas : dasConfidence (stored a x).distinctSeen = 1 := dasConfidence_threshold hmany
      refine ⟨_, ss, _, ?_, .recovered hopen hfree hmany hrs hclose⟩
      simp only [stored, rooted] at hdas ⊢
      rw [hdas]
      simp only [Exec.ok_bind, FecAssembler.put_setState, FecAssembler.slotOf_put_self,
        FecAssembler.put_setSlot]
      change
        (tryFinalizeSlot C P (a.put x.key (finished a x) (bookedDone a x)) x.key.slot >>= _) = _
      rw [hfin, Exec.ok_bind, FecAssembler.put_setSlot]
      rfl

theorem storeShard_exit (h : WellFormed a) (hopen : Open a x) :
    ∃ st ss es, storeShard C P (a.put x.key (rooted a x) (booked a x)) x.key (rooted a x) x.idx
      x.bytes (startEvents a x) = .ok (a.put x.key st ss, es) ∧ Exit C a x st ss es := by
  have hlen := h.stateOf_length x.key
  have hle := h.distinct_le x.key
  rw [storeShard]
  by_cases hidx : x.idx ≥ shredsPerFec
  · rw [if_pos hidx]
    exact ⟨_, _, _, rfl, .outOfRange hopen hidx⟩
  · rw [if_neg hidx]
    cases hget : (rooted a x).shards[x.idx]? with
    | none =>
        have hout : 64 ≤ x.idx := hlen ▸ List.getElem?_eq_none_iff.mp hget
        exact absurd hout hidx
    | some s =>
        cases s with
        | some s => exact ⟨_, _, _, rfl, .duplicate hopen hget⟩
        | none =>
            simp only
            rw [addU_eq (by simp only [rooted]; omega), Exec.ok_bind]
            simp only [FecAssembler.put_setState]
            change ∃ st ss es, (if (stored a x).distinctSeen ≥ dataShredsThreshold ∧
              (a.stateOf x.key).reconstructed = false then
                tryReconstruct C P (a.put x.key (stored a x) (booked a x)) x.key (stored a x)
                  (acceptEvents a x)
              else .ok (a.put x.key (stored a x) (booked a x), acceptEvents a x)) = _ ∧ _
            by_cases hmany : 32 ≤ (a.stateOf x.key).distinctSeen + 1
            · rw [if_pos ⟨hmany, hopen.pending⟩]
              exact tryReconstruct_exit h hopen hget hmany
            · rw [if_neg fun hc => hmany hc.1]
              exact ⟨_, _, _, rfl, .accepted hopen hget (by omega)⟩

/-- **Every admitted shred leaves by one of the exits.** -/
theorem ingestAdmitted_exit (h : WellFormed a) (x : Admitted) :
    ∃ st ss es, ingestAdmitted C P a x = .ok (a.put x.key st ss, es) ∧ Exit C a x st ss es := by
  have hlen := h.stateOf_length x.key
  have hdist := h.stateOf_distinct x.key
  rw [ingestAdmitted]
  change ∃ st ss es, (if (a.stateOf x.key).reconstructed = true then
    tryFinalizeSlot C P (a.put x.key (a.stateOf x.key) (booked a x)) x.key.slot >>= _
    else _) = _ ∧ _
  cases hrec : (a.stateOf x.key).reconstructed with
  | true =>
      have hwf := h.booked (x := x) hlen hdist (h.root (stateOf_eq_of_reconstructed hrec)) rfl
      obtain ⟨ss, ev, hfin, hclose⟩ := tryFinalizeSlot_close (C := C) (P := P) hwf
        (FecAssembler.put_slots_self a)
      refine ⟨_, ss, _, ?_, .settled hrec hclose⟩
      rw [if_pos rfl, hfin, Exec.ok_bind, FecAssembler.put_setSlot]
      rfl
  | false =>
      rw [if_neg (by decide)]
      by_cases hroot : ∀ r, (a.stateOf x.key).merkleRoot = some r → r = x.root
      · rw [recordRoot_open ⟨hrec, hroot⟩]
        change ∃ st ss es,
          storeShard C P ((a.put x.key _ (booked a x)).setState x.key _) x.key _ _ _
          _ = _ ∧ _
        rw [FecAssembler.put_setState]
        exact storeShard_exit h ⟨hrec, hroot⟩
      · simp only [not_forall] at hroot
        obtain ⟨r, hr, hne⟩ := hroot
        refine ⟨_, _, _, ?_, .diverges hrec hr hne⟩
        rw [recordRoot, hr]
        simp only [ne_eq, hne, not_false_eq_true, if_true]
        rfl

end Lattica.Listener
