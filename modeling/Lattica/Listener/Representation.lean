import Lattica.Listener.Recovery

/-!
# The representation between calls

What the two maps of the assembler hold after every run. A set never holds more
than 32 shards: it is reconstructed when the 32nd is stored, and a reconstructed
set is left alone. The entries of a slot are those of its sets.
-/

namespace Lattica.Listener

open Foundation Shred Reedsol

variable {C : Crates} {P : Profile} {a : FecAssembler} {x : Admitted} {st : FecState}
  {ss : SlotState} {es : List FecEvent}

/-- A FEC set between calls. -/
structure FecState.Sound (st : FecState) : Prop where
  slots : st.shards.length = shredsPerFec
  shard : ∀ s, some s ∈ st.shards → s.length = erasureShardSize
  distinct : st.distinctSeen = st.shards.countP Option.isSome
  bounded : st.distinctSeen ≤ dataShredsThreshold
  reconstructed : st.reconstructed = true ↔ st.distinctSeen = dataShredsThreshold
  root : ∃ r, st.merkleRoot = some r

/-- A slot between calls, against the sets `a` holds for it. -/
structure SlotState.Sound (a : FecAssembler) (slot : UInt64) (ss : SlotState) : Prop where
  seen : ∀ i, i ∈ ss.seenFecIndices ↔ ∃ st, a.states ⟨slot, i⟩ = some st
  reconstructed : ∀ i, i ∈ ss.reconstructedFecIndices ↔
    ∃ st, a.states ⟨slot, i⟩ = some st ∧ st.reconstructed = true
  marker : ss.lastShredSeen = true ↔ ∃ l, ss.lastFecSetIndex = some l
  marker_seen : ∀ l, ss.lastFecSetIndex = some l → l ∈ ss.seenFecIndices
  finalized : ss.finalized = true → ss.lastShredSeen = true

/-- An assembler between calls; a slot without an entry counts as a fresh one. -/
structure Consistent (a : FecAssembler) : Prop where
  states : ∀ key st, a.states key = some st → st.Sound
  slots : ∀ slot, (a.slotOf slot).Sound a slot

/-! ## At most 32 shards -/

/-- A call stores one shard in an open set, or none. -/
theorem Exit.grows (hexit : Exit C a x st ss es) :
    st.distinctSeen = (a.stateOf x.key).distinctSeen ∨
      (Open a x ∧ st.distinctSeen = (a.stateOf x.key).distinctSeen + 1) := by
  cases hexit with
  | settled _ _ => exact Or.inl rfl
  | diverges _ _ _ => exact Or.inl rfl
  | outOfRange _ _ => exact Or.inl rfl
  | duplicate _ _ => exact Or.inl rfl
  | accepted hopen _ _ => exact Or.inr ⟨hopen, rfl⟩
  | failed hopen _ _ _ => exact Or.inr ⟨hopen, rfl⟩
  | recovered hopen _ _ _ _ => exact Or.inr ⟨hopen, rfl⟩

/-- A pending set is below the threshold. -/
theorem Tracks.few_of_pending {H : List Admitted} (ht : Tracks C H a) (hwf : WellFormed a)
    (hlen : ∀ y ∈ H, y.bytes.length = 987) (hrs : C.ReconstructsEqualLengths) {key : FecKey}
    (hpend : (a.stateOf key).reconstructed = false) : (a.stateOf key).distinctSeen < 32 := by
  by_contra hmany
  have hdone := ht.reconstructed_of_many hwf hlen hrs (Nat.le_of_not_lt hmany)
  rw [hpend] at hdone
  cases hdone

theorem run_distinct_le (hrs : C.ReconstructsEqualLengths) {calls : List Call}
    (h : ingestAll C P .new calls = .ok (a, es)) (key : FecKey) :
    (a.stateOf key).distinctSeen ≤ 32 := by
  refine (run_induction (Q := fun H a => Tracks C H a ∧
    ((∀ y ∈ H, y.bytes.length = 987) → ∀ key, (a.stateOf key).distinctSeen ≤ 32))
    ⟨tracks_new, fun _ _ => Nat.zero_le _⟩ ?_ h).2.2 (fun _ => length_of_mem_admitted) key
  rintro H a x st ss es hwf ⟨ht, hle⟩ hexit
  refine ⟨ht.step hwf hexit, fun hlen key => ?_⟩
  have hold := fun y hy => hlen y (List.mem_append_left [x] hy)
  by_cases heq : key = x.key
  · subst heq
    rw [FecAssembler.stateOf_put_self]
    rcases hexit.grows with hsame | ⟨hopen, hone⟩
    · rw [hsame]
      exact hle hold x.key
    · rw [hone]
      exact ht.few_of_pending hwf hold hrs hopen.pending
  · rw [FecAssembler.stateOf_put_ne a heq]
    exact hle hold key

/-! ## The invariant -/

/-- **The representation invariant** holds between the calls of every run. -/
theorem reachable_consistent (C : Crates) (hrs : C.ReconstructsEqualLengths) (P : Profile)
    (a : FecAssembler) (h : Reachable C P a) : Consistent a := by
  obtain ⟨calls, es, hrun⟩ := h
  obtain ⟨hwf, ht⟩ := run_tracks hrun
  have hlen : ∀ y ∈ admitted C P calls, y.bytes.length = 987 := fun _ => length_of_mem_admitted
  refine ⟨fun key st hst => ?_, fun slot => ?_⟩
  · have hstate : a.stateOf key = st := by rw [FecAssembler.stateOf, hst, Option.getD_some]
    have hbound : st.distinctSeen ≤ 32 := hstate ▸ run_distinct_le hrs hrun key
    refine ⟨hwf.length hst, fun s hs => ?_, hwf.distinct hst, hbound, ?_, hwf.root hst⟩
    · -- a filled slot holds the region of an admitted shred
      obtain ⟨i, hi⟩ := List.mem_iff_getElem?.mp hs
      obtain ⟨y, hy, _, _, rfl, _⟩ := ht.origin (hstate.symm ▸ hi)
      exact hlen y hy
    · constructor
      · intro hrec
        -- reconstruction took 32 shards, and the bound allows no more
        have henough := (ht.enough (hstate.symm ▸ hrec)).1
        rw [hstate] at henough
        exact Nat.le_antisymm hbound henough
      · intro hall
        rw [← hstate] at hall ⊢
        exact ht.reconstructed_of_many hwf hlen hrs hall.ge
  · have hmarker := hwf.marker slot
    refine ⟨hwf.seen slot, hwf.done slot, ?_, hwf.marker_seen slot, fun hfin => ?_⟩
    · rw [hmarker]
      exact Option.isSome_iff_exists
    · obtain ⟨l, hl⟩ := ht.closed hfin
      rw [hmarker, hl]
      rfl

/-- A delivered set of three payload bytes over the reference crates. -/
theorem reachable_consistent_small :
    ∃ a, Reachable (referenceCrates sha256) ⟨true⟩ a ∧ Consistent a ∧
      ∃ st, a.states ⟨0, 64⟩ = some st ∧ st.reconstructed = true := by
  obtain ⟨_, a, es, _, hrun, hrec⟩ := exists_sampleRun 64 0xc0 (by decide)
  have hreach : Reachable (referenceCrates sha256) ⟨true⟩ a := ⟨_, es, hrun⟩
  exact ⟨a, hreach, reachable_consistent _ referenceCrates_decodesMds.reconstructsEqualLengths
    ⟨true⟩ a hreach, _, stateOf_eq_of_reconstructed hrec, hrec⟩

end Lattica.Listener
