import Lattica.Listener.Recovery

/-!
# Finalizing an honest slot

A slot of `n` constructed sets at 0, 32, .., whose last set alone carries the
marker, delivered in any order. The slot is finalized at the first prefix that
is `Complete`: a data shred of the last set has arrived, and every set touched
so far has 32 distinct shreds. What is reported are the sets touched by then,
so a set not touched yet is missed.
-/

namespace Lattica.Listener

open Foundation Shred Reedsol

variable {C : Crates} {P : Profile} {n : ℕ}

/-- The sets of a slot in order, the last one and only it with the marker flag. -/
structure InOrder (S : SlotSets C P n) : Prop where
  index : ∀ k, (S.sets k).params.fecSetIndex.toNat = 32 * k.1
  last : ∀ k, lastInSlot (S.sets k).params.flags = true ↔ k.1 + 1 = n

/-- Some shred of the set has been delivered. -/
def TouchedBy (ds : List (Fin n × Fin 64)) (k : Fin n) : Prop := ∃ i, (k, i) ∈ ds

instance (ds : List (Fin n × Fin 64)) (k : Fin n) : Decidable (TouchedBy ds k) :=
  inferInstanceAs (Decidable (∃ i, (k, i) ∈ ds))

/-- A data shred of the last set has been delivered. -/
def MarkerDelivered (ds : List (Fin n × Fin 64)) : Prop :=
  ∃ k i, (k, i) ∈ ds ∧ k.1 + 1 = n ∧ i.1 < 32

/-- The marker has arrived, and 32 distinct shreds of every set touched. -/
def Complete (ds : List (Fin n × Fin 64)) : Prop :=
  MarkerDelivered ds ∧ ∀ k, TouchedBy ds k → 32 ≤ (SlotSets.delivered ds k).card

namespace SlotSets

variable (S : SlotSets C P n)

/-- The roots of all sets, in order. -/
def roots : List (Bytes 32) := (List.finRange n).map fun k => (S.sets k).set.merkleRoot

/-- The roots of the sets touched, in order. -/
def touchedRoots (ds : List (Fin n × Fin 64)) : List (Bytes 32) :=
  ((List.finRange n).filter fun k => TouchedBy ds k).map fun k => (S.sets k).set.merkleRoot

/-- All sets are reported exactly when all were touched. -/
theorem touchedRoots_eq_roots {ds : List (Fin n × Fin 64)} :
    S.touchedRoots ds = S.roots ↔ ∀ k, TouchedBy ds k := by
  constructor
  · intro h k
    have hlen := congrArg List.length h
    rw [touchedRoots, roots, List.length_map, List.length_map] at hlen
    have hall := List.length_filter_eq_length_iff.mp hlen k (List.mem_finRange k)
    exact of_decide_eq_true hall
  · intro h
    rw [touchedRoots, roots, List.filter_eq_self.mpr fun k _ => decide_eq_true (h k)]

section State

variable {S} {ds : List (Fin n × Fin 64)} {a : FecAssembler} (hS : InOrder S)
  (hwf : WellFormed a) (ht : Tracks C (ds.map S.admission) a)

include hS

theorem index_lt {k k' : Fin n} (h : k < k') :
    (S.sets k).params.fecSetIndex.toNat < (S.sets k').params.fecSetIndex.toNat := by
  rw [hS.index, hS.index]
  have hlt : k.1 < k'.1 := h
  omega

/-- The touched sets, as a set of indexes. -/
def touchedSet (ds : List (Fin n × Fin 64)) : IndexSet where
  elems := ((List.finRange n).filter fun k => TouchedBy ds k).map
    fun k => (S.sets k).params.fecSetIndex
  sorted := by
    rw [List.pairwise_map]
    exact ((List.pairwise_lt_finRange n).filter _).imp fun h => index_lt hS h

include hwf ht

omit hS in
theorem mem_seen {i : UInt32} : i ∈ (a.slotOf S.slot).seenFecIndices ↔
    ∃ k, TouchedBy ds k ∧ (S.sets k).params.fecSetIndex = i := by
  rw [hwf.seen, ht.touched]
  constructor
  · rintro ⟨x, hx, hkey⟩
    obtain ⟨d, hd, rfl⟩ := List.mem_map.mp hx
    rw [admission, BuiltSet.admit_key] at hkey
    exact ⟨d.1, ⟨d.2, hd⟩, congrArg FecKey.fecSetIndex hkey⟩
  · rintro ⟨k, ⟨i, hd⟩, rfl⟩
    refine ⟨S.admission (k, i), List.mem_map_of_mem hd, ?_⟩
    rw [admission, BuiltSet.admit_key, BuiltSet.key, S.slot_eq]

theorem seen_eq : (a.slotOf S.slot).seenFecIndices = touchedSet hS ds := by
  refine SortedSet.ext_mem fun i => ?_
  rw [mem_seen hwf ht, ← SortedSet.mem_elems]
  simp [touchedSet]

omit hwf in
/-- The marker of the slot, if any, is the last set, and is there when one of its
data shreds is. -/
theorem marker_iff {l : UInt32} : (a.slotOf S.slot).lastFecSetIndex = some l ↔
    MarkerDelivered ds ∧ ∃ k : Fin n, k.1 + 1 = n ∧ l = (S.sets k).params.fecSetIndex := by
  have hmark : ∀ d : Fin n × Fin 64,
      (S.admission d).isLast = true ↔ d.2.1 < 32 ∧ d.1.1 + 1 = n := by
    intro d
    rw [admission, BuiltSet.admit_isLast, Bool.and_eq_true, decide_eq_true_eq, hS.last]
  constructor
  · intro hl
    obtain ⟨x, hx, hlast, hkey⟩ := ht.marker_mem hl
    obtain ⟨d, hd, rfl⟩ := List.mem_map.mp hx
    obtain ⟨hi, hk⟩ := (hmark d).mp hlast
    rw [admission, BuiltSet.admit_key] at hkey
    exact ⟨⟨d.1, d.2, hd, hk, hi⟩, d.1, hk, (congrArg FecKey.fecSetIndex hkey).symm⟩
  · rintro ⟨⟨k, i, hd, hk, hi⟩, k', hk', rfl⟩
    have hkk : k' = k := Fin.ext (by omega)
    subst hkk
    obtain ⟨l, hl, hle⟩ := ht.marker_le (List.mem_map_of_mem (f := S.admission) hd)
      ((hmark (k', i)).mpr ⟨hi, hk⟩)
    simp only [admission, BuiltSet.admit_key, BuiltSet.key, S.slot_eq] at hl hle
    obtain ⟨x, hx, hlast, hkey⟩ := ht.marker_mem hl
    obtain ⟨d, _, rfl⟩ := List.mem_map.mp hx
    have hd' : d.1 = k' := Fin.ext (by have := ((hmark d).mp hlast).2; omega)
    rw [admission, BuiltSet.admit_key, hd'] at hkey
    rw [hl]
    exact congrArg some (congrArg FecKey.fecSetIndex hkey).symm

/-- The sets up to the marker are the sets touched. -/
theorem listed_eq {l : UInt32} (hl : (a.slotOf S.slot).lastFecSetIndex = some l) :
    listed (a.slotOf S.slot) = (touchedSet hS ds).elems := by
  obtain ⟨_, k, hk, rfl⟩ := (marker_iff hS ht).mp hl
  rw [listed, hl]
  simp only [indicesToCheck]
  rw [seen_eq hS hwf ht, List.filter_eq_self]
  intro i hi
  obtain ⟨k', _, rfl⟩ := List.mem_map.mp hi
  rw [decide_eq_true_eq, UInt32.le_iff_toNat_le, hS.index, hS.index]
  omega

/-- What would be reported are the roots of the sets touched. -/
theorem listedRoots_eq {l : UInt32} (hl : (a.slotOf S.slot).lastFecSetIndex = some l) :
    listedRoots a S.slot (a.slotOf S.slot) = S.touchedRoots ds := by
  rw [listedRoots, listed_eq hS hwf ht hl, touchedSet, touchedRoots, List.map_map]
  refine List.map_congr_left fun k hk => ?_
  obtain ⟨i, hd⟩ := of_decide_eq_true (List.mem_filter.mp hk).2
  have hroot := (ht.root (S.sets k).key).trans (S.firstRoot_delivered hd)
  rw [BuiltSet.key, S.slot_eq] at hroot
  rw [Function.comp_apply, rootOf, hroot, Option.getD_some]

/-- Finalization would emit exactly where the deliveries are complete. -/
theorem ready_iff (hrs : C.ReconstructsEqualLengths) :
    Ready { a.slotOf S.slot with finalized := false } ↔ Complete ds := by
  have hrec : ∀ k, (S.sets k).params.fecSetIndex ∈ (a.slotOf S.slot).reconstructedFecIndices ↔
      32 ≤ (delivered ds k).card := by
    intro k
    rw [hwf.mem_reconstructed, ← reconstructed_iff hwf ht hrs, BuiltSet.key, S.slot_eq]
  constructor
  · rintro ⟨_, _, l, hl, hall, _⟩
    obtain ⟨hmark, kl, hkl, rfl⟩ := (marker_iff hS ht).mp hl
    refine ⟨hmark, fun k htouch => (hrec k).mp (hall _ ?_)⟩
    rw [mem_indicesToCheck]
    refine ⟨(mem_seen hwf ht).mpr ⟨k, htouch, rfl⟩, ?_⟩
    rw [UInt32.le_iff_toNat_le, hS.index, hS.index]
    omega
  · rintro ⟨hmark, hall⟩
    obtain ⟨k, i, hd, hk, hi⟩ := hmark
    have hl := (marker_iff hS ht).mpr ⟨⟨k, i, hd, hk, hi⟩, k, hk, rfl⟩
    refine ⟨rfl, ?_, _, hl, fun j hj => ?_, hwf.marker_seen _ _ hl⟩
    · exact (hwf.marker S.slot).trans (by rw [hl]; rfl)
    · obtain ⟨k', htouch, rfl⟩ := (mem_seen hwf ht).mp (mem_indicesToCheck.mp hj).1
      exact (hrec k').mpr (hall k' htouch)

end State

/-- One delivery either leaves the slot as final as it was, silently, or
completes the deliveries and reports the sets touched. -/
theorem step_reports (hS : InOrder S) (hrs : C.ReconstructsEqualLengths)
    {ds : List (Fin n × Fin 64)} {d : Fin n × Fin 64} {a : FecAssembler} {st : FecState}
    {ss : SlotState} {es : List FecEvent} (hwf : WellFormed a)
    (ht : Tracks C (ds.map S.admission) a) (hexit : Exit C a (S.admission d) st ss es) :
    (((a.put (S.sets d.1).key st ss).slotOf S.slot).finalized = (a.slotOf S.slot).finalized ∧
        es.filter FecEvent.isSlotFinalized = []) ∨
      ((a.slotOf S.slot).finalized = false ∧
        ((a.put (S.sets d.1).key st ss).slotOf S.slot).finalized = true ∧ Complete (ds ++ [d]) ∧
        ∃ total conf, es.filter FecEvent.isSlotFinalized = [.slotFinalized S.slot
          (S.touchedRoots (ds ++ [d])) (slotRootOf C (S.touchedRoots (ds ++ [d]))) total
          conf]) := by
  obtain ⟨hwf', ht'⟩ := step_tracks hwf ht hexit
  have hkey : (S.admission d).key = (S.sets d.1).key := (S.sets d.1).admit_key d.2
  have hslot : (S.sets d.1).key.slot = S.slot := S.slot_eq d.1
  have hput : (a.put (S.sets d.1).key st ss).slotOf S.slot = ss := by
    rw [← hslot, FecAssembler.slotOf_put_self]
  have hready := ready_iff hS hwf' ht' hrs
  have hroots := fun l => listedRoots_eq hS hwf' ht' (l := l)
  have hcases := hexit.filter_slotFinalized
  rw [hput] at hready hroots
  rw [hkey, hslot] at hcases
  rw [hput]
  rcases hcases with hsame | ⟨hbefore, hafter, hr, hfilter⟩
  · exact Or.inl hsame
  · have hcomplete := hready.mp hr
    obtain ⟨_, _, l, hl, _⟩ := hr
    have hl' : ss.lastFecSetIndex = some l := hl
    refine Or.inr ⟨hbefore, hafter, hcomplete, ?_⟩
    rw [hfilter, finalEvent, hroots l hl']
    exact ⟨_, _, rfl⟩

/-- **What a run on the slot has reported**: nothing while no prefix is complete,
and else the sets touched by the end of a complete prefix, once. -/
theorem run_reports (hS : InOrder S) (hC : C.AcceptsHonestSignatures)
    (hrs : C.ReconstructsEqualLengths) :
    ∀ {ds : List (Fin n × Fin 64)} {a : FecAssembler} {es : List FecEvent},
      S.run ds = .ok (a, es) →
      ((a.slotOf S.slot).finalized = false ∧ (∀ p, p <+: ds → ¬ Complete p) ∧
          es.filter FecEvent.isSlotFinalized = []) ∨
        ((a.slotOf S.slot).finalized = true ∧ ∃ p, p <+: ds ∧ Complete p ∧ ∃ total conf,
          es.filter FecEvent.isSlotFinalized = [.slotFinalized S.slot (S.touchedRoots p)
            (slotRootOf C (S.touchedRoots p)) total conf]) := by
  intro ds
  induction ds using List.reverseRecOn with
  | nil =>
      intro a es h
      cases h
      refine Or.inl ⟨rfl, fun p hp hc => ?_, rfl⟩
      obtain ⟨⟨k, i, hd, _⟩, _⟩ := hc
      rw [List.prefix_nil.mp hp] at hd
      cases hd
  | append_singleton ds d ih =>
      intro a' es h
      obtain ⟨a, es₁, es₂, st, ss, hrun, rfl, rfl, hexit⟩ := S.run_snoc hC h
      obtain ⟨hwf, ht⟩ := S.run_tracks hC hrun
      obtain ⟨hwf', ht'⟩ := step_tracks hwf ht hexit
      rw [List.filter_append]
      rcases S.step_reports hS hrs hwf ht hexit with ⟨hsame, hsilent⟩ |
        ⟨hbefore, hafter, hcomplete, total, conf, hone⟩
      · rw [hsame, hsilent, List.append_nil]
        rcases ih hrun with ⟨hopen, hnone, hfilter⟩ | ⟨hclosed, p, hp, hrest⟩
        · refine Or.inl ⟨hopen, fun p hp hc => ?_, hfilter⟩
          rcases List.prefix_concat_iff.mp hp with rfl | hp
          · -- a complete run would leave the slot waiting for finalization
            refine ht'.waiting S.slot ?_
            have hready := (ready_iff hS hwf' ht' hrs).mpr hc
            rwa [← hopen, ← hsame] at hready
          · exact hnone p hp hc
        · exact Or.inr ⟨hclosed, p, hp.trans (List.prefix_append ds [d]), hrest⟩
      · rcases ih hrun with ⟨_, _, hfilter⟩ | ⟨hclosed, _⟩
        · refine Or.inr ⟨hafter, ds ++ [d], List.prefix_refl _, hcomplete, total, conf, ?_⟩
          rw [hfilter, hone, List.nil_append]
        · rw [hbefore] at hclosed
          cases hclosed

/-! ## What a run should report -/

/-- Every `SlotFinalized` of the run lists the roots of all sets in order, and the
slot root over them. -/
def ReportsAll (ds : List (Fin n × Fin 64)) : Prop :=
  ∀ a es, S.run ds = .ok (a, es) → ∀ slot roots slotRoot total conf,
    .slotFinalized slot roots slotRoot total conf ∈ es →
      roots = S.roots ∧ aggregateRoot C S.roots = .ok slotRoot

theorem run_prefix {p ds : List (Fin n × Fin 64)} (hp : p <+: ds) {a : FecAssembler}
    {es : List FecEvent} (h : S.run ds = .ok (a, es)) :
    ∃ a₁ es₁ es₂, S.run p = .ok (a₁, es₁) ∧ es = es₁ ++ es₂ := by
  obtain ⟨r, rfl⟩ := hp
  rw [run, List.map_append, ingestAll_append] at h
  obtain ⟨⟨a₁, es₁⟩, hfirst, h⟩ := Exec.bind_eq_ok.mp h
  obtain ⟨⟨a₂, es₂⟩, _, h⟩ := Exec.bind_eq_ok.mp h
  cases h
  exact ⟨a₁, es₁, es₂, hfirst, rfl⟩

/-- A complete prefix that leaves a set untouched has the slot finalized without it. -/
theorem not_reportsAll (hS : InOrder S) (hC : C.AcceptsHonestSignatures)
    (hrs : C.ReconstructsEqualLengths) {p ds : List (Fin n × Fin 64)} (hp : p <+: ds)
    (hcomplete : Complete p) {k : Fin n} (hk : ¬ TouchedBy p k) : ¬ S.ReportsAll ds := by
  intro hall
  obtain ⟨a, es, hrun⟩ := S.run_ok hC ds
  obtain ⟨a₁, es₁, es₂, hrun₁, rfl⟩ := S.run_prefix hp hrun
  rcases S.run_reports hS hC hrs hrun₁ with ⟨_, hnone, _⟩ | ⟨_, q, hq, _, total, conf, hfilter⟩
  · exact hnone p (List.prefix_refl p) hcomplete
  · have hmem := List.mem_of_mem_filter (hfilter ▸ List.mem_singleton.mpr rfl)
    have hroots := (hall a _ hrun _ _ _ _ _ (List.mem_append_left es₂ hmem)).1
    obtain ⟨i, hi⟩ := S.touchedRoots_eq_roots.mp hroots k
    exact hk ⟨i, hq.subset hi⟩

end SlotSets

/-! ## Sample slots -/

/-- The flags of set `k` of `n`: the last one ends the slot. -/
def flagsAt (n k : ℕ) : UInt8 := if k + 1 = n then 0xc0 else 0

theorem lastInSlot_flagsAt (n k : ℕ) : lastInSlot (flagsAt n k) = true ↔ k + 1 = n := by
  unfold flagsAt
  by_cases h : k + 1 = n
  · rw [if_pos h]
    exact ⟨fun _ => h, fun _ => rfl⟩
  · rw [if_neg h]
    exact ⟨fun hlast => absurd hlast (by decide), fun hk => absurd hk h⟩

/-- A set at any multiple of 32. -/
theorem exists_setAt (n : ℕ) {k : ℕ} (hk : 32 * k + 31 < 2 ^ 32) :
    ∃ B : BuiltSet (referenceCrates sha256) ⟨true⟩,
      B.params = sampleParams sha256 (.ofNat (32 * k)) (flagsAt n k) ∧
        B.params.fecSetIndex.toNat = 32 * k := by
  have hidx : (UInt32.ofNat (32 * k)).toNat = 32 * k :=
    UInt32.toNat_ofNat_of_lt' (Nat.lt_of_add_right_lt hk)
  obtain ⟨B, hB⟩ := exists_sampleSet (.ofNat (32 * k)) (flagsAt n k) (by rwa [hidx])
  exact ⟨B, hB, by rw [hB]; exact hidx⟩

/-- Slots of any number of sets exist. -/
theorem exists_inOrder (n : ℕ) (hn : 32 * n ≤ 2 ^ 32) :
    ∃ S : SlotSets (referenceCrates sha256) ⟨true⟩ n, InOrder S := by
  choose B hB hidx using fun k : Fin n => exists_setAt n (k := k.1) (by omega)
  refine ⟨⟨0, sampleKey sha256, B, fun k => by rw [hB k]; rfl, fun k => by rw [hB k]; rfl, ?_⟩,
    hidx, fun k => ?_⟩
  · intro k k' h
    have heq := congrArg UInt32.toNat h
    rw [hidx, hidx] at heq
    exact Fin.ext (Nat.eq_of_mul_eq_mul_left (by decide) heq)
  · show lastInSlot (B k).params.flags = true ↔ k.1 + 1 = n
    rw [hB k]
    exact lastInSlot_flagsAt n k.1

/-! ## Soundness -/

/-- **Finalization is sound exactly where no complete prefix leaves a set
untouched**, for every delivery of every slot. -/
theorem reports_all_iff (C : Crates) (hsig : C.AcceptsHonestSignatures)
    (hrs : C.ReconstructsEqualLengths) (P : Profile) (n : ℕ) (S : SlotSets C P n)
    (hS : InOrder S) (ds : List (Fin n × Fin 64)) :
    S.ReportsAll ds ↔ ∀ p, p <+: ds → Complete p → ∀ k, TouchedBy p k := by
  constructor
  · intro hall p hp hcomplete k
    by_contra hk
    exact S.not_reportsAll hS hsig hrs hp hcomplete hk hall
  · intro hgood a es hrun slot roots slotRoot total conf hmem
    have hin := List.mem_filter.mpr ⟨hmem, (rfl : FecEvent.isSlotFinalized _ = true)⟩
    rcases S.run_reports hS hsig hrs hrun with ⟨_, _, hnone⟩ | ⟨_, p, hp, hc, total', conf', hone⟩
    · rw [hnone] at hin
      cases hin
    · have hroots := S.touchedRoots_eq_roots.mpr (hgood p hp hc)
      rw [hone, hroots, List.mem_singleton] at hin
      cases hin
      exact ⟨rfl, aggregateRoot_eq C S.roots⟩

/-- The data shreds of both sets of a slot of two, in order. -/
def twoHalves : List (Fin 2 × Fin 64) := halfOf 0 0 ++ halfOf 1 0

theorem complete_twoHalves : Complete twoHalves := by
  refine ⟨⟨1, 0, ?_, rfl, by decide⟩, fun k _ => ?_⟩
  · exact List.mem_append_right _ (mem_halfOf.mpr ⟨rfl, by decide, by decide⟩)
  · rw [← card_delivered_halfOf k 0]
    refine Finset.card_le_card fun i hi => ?_
    rw [SlotSets.mem_delivered] at hi ⊢
    fin_cases k
    · exact List.mem_append_left _ hi
    · exact List.mem_append_right _ hi

/-- The marker comes after the first set, so a complete prefix has touched both. -/
theorem touchedBy_twoHalves {p : List (Fin 2 × Fin 64)} (hp : p <+: twoHalves)
    (hcomplete : Complete p) (k : Fin 2) : TouchedBy p k := by
  obtain ⟨⟨k', i, hd, hlast, _⟩, _⟩ := hcomplete
  have hk' : k' = 1 := Fin.ext (Nat.succ_injective hlast)
  subst hk'
  rcases List.prefix_or_prefix_of_prefix hp (List.prefix_append (halfOf 0 0) (halfOf 1 0)) with
    hshort | hlong
  · exact absurd (mem_halfOf.mp (hshort.subset hd)).1 (by decide)
  · fin_cases k
    · exact ⟨0, hlong.subset (mem_halfOf.mpr ⟨rfl, by decide, by decide⟩)⟩
    · exact ⟨i, hd⟩

/-- A run that is complete, and touches every set before any prefix is, reports them all. -/
theorem SlotSets.reports_roots (S : SlotSets C P n) (hS : InOrder S)
    (hC : C.AcceptsHonestSignatures) (hrs : C.ReconstructsEqualLengths)
    {ds : List (Fin n × Fin 64)} (hcomplete : Complete ds)
    (htouch : ∀ p, p <+: ds → Complete p → ∀ k, TouchedBy p k) :
    ∃ a es total conf, S.run ds = .ok (a, es) ∧
      .slotFinalized S.slot S.roots (slotRootOf C S.roots) total conf ∈ es := by
  obtain ⟨a, es, hrun⟩ := S.run_ok hC ds
  rcases S.run_reports hS hC hrs hrun with ⟨_, hnone, _⟩ | ⟨_, p, hp, hc, total, conf, hfilter⟩
  · exact absurd hcomplete (hnone ds (List.prefix_refl ds))
  · rw [S.touchedRoots_eq_roots.mpr (htouch p hp hc)] at hfilter
    exact ⟨a, es, total, conf, hrun,
      List.mem_of_mem_filter (hfilter ▸ List.mem_singleton.mpr rfl)⟩

/-- The data shreds of two sets in order, which finalize the slot with both roots. -/
theorem reports_all_iff_two :
    ∃ S : SlotSets (referenceCrates sha256) ⟨true⟩ 2, S.ReportsAll twoHalves ∧
      ∃ a es total conf, S.run twoHalves = .ok (a, es) ∧
        .slotFinalized S.slot S.roots (slotRootOf (referenceCrates sha256) S.roots) total conf ∈
          es := by
  obtain ⟨S, hS⟩ := exists_inOrder 2 (by decide)
  have hsig : (referenceCrates sha256).AcceptsHonestSignatures :=
    referenceCrates_acceptsHonestSignatures
  have hrs : (referenceCrates sha256).ReconstructsEqualLengths :=
    referenceCrates_decodesMds.reconstructsEqualLengths
  have htouch : ∀ p, p <+: twoHalves → Complete p → ∀ k, TouchedBy p k :=
    fun _ hp hc => touchedBy_twoHalves hp hc
  exact ⟨S, (reports_all_iff _ hsig hrs ⟨true⟩ 2 S hS twoHalves).mpr htouch,
    S.reports_roots hS hsig hrs complete_twoHalves htouch⟩

/-- The data shreds of the second of two sets finalize the slot without the first. -/
theorem finalized_without_first_set :
    ∃ S : SlotSets (referenceCrates sha256) ⟨true⟩ 2, InOrder S ∧ ¬ S.ReportsAll (halfOf 1 0) := by
  obtain ⟨S, hS⟩ := exists_inOrder 2 (by decide)
  refine ⟨S, hS, S.not_reportsAll hS referenceCrates_acceptsHonestSignatures
    referenceCrates_decodesMds.reconstructsEqualLengths (List.prefix_refl _) ⟨?_, ?_⟩ (k := 0) ?_⟩
  · exact ⟨1, 0, mem_halfOf.mpr ⟨rfl, by decide, by decide⟩, rfl, by decide⟩
  · rintro k ⟨i, hi⟩
    rw [(mem_halfOf.mp hi).1, card_delivered_halfOf]
  · rintro ⟨i, hi⟩
    exact absurd (mem_halfOf.mp hi).1 (by decide)

/-! ## Completeness -/

/-- **With 32 distinct shreds of every set, the slot has been finalized exactly
when a data shred of the last set was among them.** -/
theorem finalized_iff_marker_delivered (C : Crates) (hsig : C.AcceptsHonestSignatures)
    (hrs : C.ReconstructsEqualLengths) (P : Profile) (n : ℕ) (S : SlotSets C P n)
    (hS : InOrder S) (ds : List (Fin n × Fin 64))
    (hmany : ∀ k, 32 ≤ (SlotSets.delivered ds k).card) :
    ∃ a es, S.run ds = .ok (a, es) ∧
      ((∃ roots slotRoot total conf, .slotFinalized S.slot roots slotRoot total conf ∈ es) ↔
        MarkerDelivered ds) := by
  obtain ⟨a, es, hrun⟩ := S.run_ok hsig ds
  refine ⟨a, es, hrun, ?_⟩
  rcases S.run_reports hS hsig hrs hrun with ⟨_, hnone, hfilter⟩ |
    ⟨_, p, hp, ⟨⟨k, i, hd, hlast⟩, _⟩, total, conf, hfilter⟩
  · constructor
    · rintro ⟨roots, slotRoot, total, conf, hmem⟩
      have hin := List.mem_filter.mpr ⟨hmem, (rfl : FecEvent.isSlotFinalized _ = true)⟩
      rw [hfilter] at hin
      cases hin
    · intro hmark
      exact absurd ⟨hmark, fun k _ => hmany k⟩ (hnone ds (List.prefix_refl ds))
  · constructor
    · exact fun _ => ⟨k, i, hp.subset hd, hlast⟩
    · exact fun _ => ⟨_, _, _, _, List.mem_of_mem_filter (hfilter ▸ List.mem_singleton.mpr rfl)⟩

/-- The data shreds of a slot of one set. -/
theorem finalized_iff_marker_delivered_one :
    ∃ (S : SlotSets (referenceCrates sha256) ⟨true⟩ 1) (a : FecAssembler) (es : List FecEvent),
      S.run (halfOf 0 0) = .ok (a, es) ∧
        ((∃ roots slotRoot total conf, .slotFinalized S.slot roots slotRoot total conf ∈ es) ↔
          MarkerDelivered (halfOf (0 : Fin 1) 0)) := by
  obtain ⟨S, hS⟩ := exists_inOrder 1 (by decide)
  obtain ⟨a, es, h⟩ := finalized_iff_marker_delivered _ referenceCrates_acceptsHonestSignatures
    referenceCrates_decodesMds.reconstructsEqualLengths ⟨true⟩ 1 S hS (halfOf 0 0) fun k => by
      rw [Subsingleton.elim k 0, card_delivered_halfOf]
  exact ⟨S, a, es, h⟩

/-- The 32 coding shreds of a slot of one set do not finalize it. -/
theorem not_finalized_by_coding_shreds :
    ∃ S : SlotSets (referenceCrates sha256) ⟨true⟩ 1, InOrder S ∧
      (∀ k, 32 ≤ (SlotSets.delivered (halfOf (0 : Fin 1) 1) k).card) ∧
      ∃ a es, S.run (halfOf 0 1) = .ok (a, es) ∧ es.filter FecEvent.isSlotFinalized = [] := by
  obtain ⟨S, hS⟩ := exists_inOrder 1 (by decide)
  obtain ⟨a, es, hrun⟩ := S.run_ok referenceCrates_acceptsHonestSignatures (halfOf 0 1)
  refine ⟨S, hS, fun k => by rw [Subsingleton.elim k 0, card_delivered_halfOf], a, es, hrun, ?_⟩
  rcases S.run_reports hS referenceCrates_acceptsHonestSignatures
    referenceCrates_decodesMds.reconstructsEqualLengths hrun with ⟨_, _, hfilter⟩ |
    ⟨_, p, hp, ⟨⟨k, i, hd, _, hi⟩, _⟩, _⟩
  · exact hfilter
  · have hlow := (mem_halfOf.mp (hp.subset hd)).2.1
    simp only [Fin.val_one] at hlow
    omega

end Lattica.Listener
