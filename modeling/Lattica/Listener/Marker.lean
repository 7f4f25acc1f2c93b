import Lattica.Listener.Finalization
import Lattica.Shred.LeaderShreds

/-!
# The marker and the finalized content

The marker of a slot is recorded from every accepted LAST_IN_SLOT data shred,
before its root is compared with the root its set holds. Where no shred moves
the marker under another root than its set's (`MarkerHeld`), the marker of a
finalized slot comes from a shred of the content that is reported.
-/

namespace Lattica.Listener

open Foundation Shred Reedsol

variable {C : Crates} {P : Profile} {a a' : FecAssembler} {x : Admitted} {st : FecState}
  {ss : SlotState} {es : List FecEvent} {calls : List Call}

/-- A LAST_IN_SLOT data shred that would move the marker of its slot has the
root its set holds, if the set holds one. -/
def MarkerHeld (C : Crates) (P : Profile) (a : FecAssembler) (c : Call) : Prop :=
  ∀ w, c.Accepts C P w → w.isLastInSlot = true →
    (∀ l, (a.slotOf w.slot).lastFecSetIndex = some l → l < w.fecSetIndex) →
    ∀ r, (a.stateOf ⟨w.slot, w.fecSetIndex⟩).merkleRoot = some r → r = w.merkleRoot

/-- In every `SlotFinalized` of the run, the largest set listed has been sent a
LAST_IN_SLOT data shred with the root that is listed for it. -/
def MarkerBelongs (C : Crates) (P : Profile) (calls : List Call) : Prop :=
  ∀ pre c post a₁ es₁ a₂ es₂, calls = pre ++ c :: post →
    ingestAll C P .new pre = .ok (a₁, es₁) → ingest C P c.leaders a₁ c.raw = .ok (a₂, es₂) →
    ∀ slot roots slotRoot n conf, .slotFinalized slot roots slotRoot n conf ∈ es₂ →
      roots = listedRoots a₂ slot (a₂.slotOf slot) ∧
      ∃ l ∈ listed (a₂.slotOf slot), (∀ i ∈ listed (a₂.slotOf slot), i ≤ l) ∧
        ∃ c' ∈ pre ++ [c], ∃ w, c'.Accepts C P w ∧ w.isLastInSlot = true ∧ w.slot = slot ∧
          w.fecSetIndex = l ∧ w.merkleRoot = rootOf a₂ slot l

/-! ## The marker comes from the set's own root -/

/-- The marker of every slot was set by a shred with the root its set holds. -/
def MarkerRooted (H : List Admitted) (a : FecAssembler) : Prop :=
  ∀ slot l, (a.slotOf slot).lastFecSetIndex = some l →
    ∃ x ∈ H, x.isLast = true ∧ x.key = ⟨slot, l⟩ ∧ (a.stateOf ⟨slot, l⟩).merkleRoot = some x.root

/-- One admitted shred that keeps to the root of its set, or leaves the marker. -/
theorem MarkerRooted.step {H : List Admitted} (h : MarkerRooted H a) (hwf : WellFormed a)
    (hexit : Exit C a x st ss es)
    (hheld : x.isLast = true →
      (∀ l, (a.slotOf x.key.slot).lastFecSetIndex = some l → l < x.key.fecSetIndex) →
      ∀ r, (a.stateOf x.key).merkleRoot = some r → r = x.root) :
    MarkerRooted (H ++ [x]) (a.put x.key st ss) := by
  have hroot := hexit.root hwf
  have hold : ∀ slot l, (a.slotOf slot).lastFecSetIndex = some l →
      ∃ y ∈ H ++ [x], y.isLast = true ∧ y.key = ⟨slot, l⟩ ∧
        ((a.put x.key st ss).stateOf ⟨slot, l⟩).merkleRoot = some y.root := by
    intro slot l hl
    obtain ⟨y, hy, hmark, hkey, hr⟩ := h slot l hl
    refine ⟨y, List.mem_append_left _ hy, hmark, hkey, ?_⟩
    by_cases heq : (⟨slot, l⟩ : FecKey) = x.key
    · rw [heq] at hr ⊢
      rw [FecAssembler.stateOf_put_self, hroot, hr, Option.getD_some]
    · rw [FecAssembler.stateOf_put_ne a heq, hr]
  intro slot l hl
  by_cases hslot : slot = x.key.slot
  · subst hslot
    rw [FecAssembler.slotOf_put_self, hexit.slot.2] at hl
    cases hmark : x.isLast with
    | false =>
        rw [booked_last_other hmark] at hl
        exact hold _ l hl
    | true =>
        obtain ⟨l', hl', hle, hfrom, hmax⟩ := booked_last_marker (a := a) hmark
        rw [hl'] at hl
        cases hl
        by_cases hsame : (a.slotOf x.key.slot).lastFecSetIndex = some l
        · exact hold _ l hsame
        · -- the shred moves the marker to its own set
          have hl : l = x.key.fecSetIndex := hfrom.resolve_right hsame
          subst hl
          refine ⟨x, by simp, hmark, rfl, ?_⟩
          change ((a.put x.key st ss).stateOf x.key).merkleRoot = _
          rw [FecAssembler.stateOf_put_self, hroot]
          cases hr : (a.stateOf x.key).merkleRoot with
          | none => rfl
          | some r =>
              rw [Option.getD_some, hheld hmark (fun m hm => ?_) r hr]
              refine UInt32.lt_of_le_of_ne (hmax m hm) fun heq => hsame ?_
              rw [hm, heq]
  · rw [FecAssembler.slotOf_put_ne a hslot] at hl
    exact hold slot l hl

/-- A run whose calls all keep the marker to the sets' roots. -/
theorem run_markerRooted : ∀ {calls : List Call} {a : FecAssembler} {es : List FecEvent},
    ingestAll C P .new calls = .ok (a, es) →
    (∀ pre c post a₁ es₁, calls = pre ++ c :: post → ingestAll C P .new pre = .ok (a₁, es₁) →
      MarkerHeld C P a₁ c) →
    MarkerRooted (admitted C P calls) a := by
  intro calls
  induction calls using List.reverseRecOn with
  | nil =>
      intro a es h _ slot l hl
      cases h
      cases hl
  | append_singleton calls c ih =>
      intro a es h hheld
      obtain ⟨a₁, es₁, es₂, hcs, hc, _⟩ := ingestAll_snoc_eq_ok.mp h
      have hwf := run_wellFormed hcs
      have hrooted := ih hcs fun pre c' post a₀ es₀ hsplit hpre =>
        hheld pre c' (post ++ [c]) a₀ es₀ (by rw [hsplit]; simp) hpre
      rw [admitted_snoc]
      rcases ingest_cases hwf hc with ⟨reason, hgate, rfl, _⟩ | ⟨x, st, ss, hgate, rfl, hexit⟩
      · have hnone : c.admission C P = none := by rw [Call.admission, hgate]
        rw [hnone]
        simpa using hrooted
      · rw [admit_of_gate hgate]
        exact hrooted.step hwf hexit
          (hheld calls c [] a₁ es₁ rfl hcs x.shred (accepts_of_gate hgate))

/-! ## A lone marker shred

A data shred without a proof, whose leaf is the root, for slot 0 and set 0. -/

def loneVariant : ShredVariant := ⟨.data, 0, true, true⟩

def loneAuth (flags : UInt8) : List UInt8 := bareAuth 0xb0 0 flags 1053

theorem lone_layout (flags : UInt8) :
    Layout loneVariant (loneAuth flags) [] (List.replicate 64 0) where
  decodes := by
    change ShredVariant.decode 0xb0 = _
    rfl
  auth := length_bareAuth
  proof := rfl
  rest := List.length_replicate

noncomputable def lone (flags : UInt8) : List UInt8 :=
  signedBy (referenceCrates sha256) (sampleKey sha256)
    (laidOut (loneAuth flags) [] (List.replicate 64 0)) loneVariant 0

theorem verified_lone (flags : UInt8) : Verified (referenceCrates sha256) ⟨true⟩ (lone flags)
    ((referenceCrates sha256).verifyingKey (sampleKey sha256)) loneVariant 0 := by
  rw [lone]
  exact (lone_layout flags).verified referenceCrates_acceptsHonestSignatures (sampleKey sha256) rfl
    (by rw [loneAuth, bareAuth_fecSetIndex]; exact Nat.zero_le _)
    (by rw [loneAuth, bareAuth_fecSetIndex, bareAuth_index]; rfl) (by decide)

theorem rootAt_lone (flags : UInt8) :
    rootAt (referenceCrates sha256) (lone flags) loneVariant 0 =
      sha256 (leafMessage (loneAuth flags)) := by
  rw [lone]
  exact ((lone_layout flags).signed (sampleKey sha256)).2.2

theorem sha256_lone_ne :
    sha256 (leafMessage (loneAuth 0x80)) ≠ sha256 (leafMessage (loneAuth 0xc0)) := by
  decide +kernel

/-- The lone shred as it is admitted. -/
noncomputable def loneAdmitted (flags : UInt8) : Admitted :=
  admittedAs (referenceCrates sha256) (lone flags) loneVariant 0

theorem lone_key (flags : UInt8) : (loneAdmitted flags).key = ⟨0, 0⟩ := by
  obtain ⟨hslot, hfec, _⟩ := (lone_layout flags).header_signed (C := referenceCrates sha256)
    (i := 0) (sampleKey sha256)
  rw [loneAuth, bareAuth_slot] at hslot
  rw [loneAuth, bareAuth_fecSetIndex] at hfec
  rw [loneAdmitted, Admitted.key, admittedAs, verifiedOf_slot, verifiedOf_fecSetIndex, lone,
    loneAuth, hslot, hfec]
  rfl

theorem lone_isLast (flags : UInt8) : (loneAdmitted flags).isLast = lastInSlot flags := by
  obtain ⟨_, _, hflags⟩ := (lone_layout flags).header_signed (C := referenceCrates sha256)
    (i := 0) (sampleKey sha256)
  rw [loneAuth, bareAuth_flags] at hflags
  change lastInSlot ((lone flags).getD 85 0) = _
  rw [lone, loneAuth, hflags]

theorem lone_root (flags : UInt8) :
    (loneAdmitted flags).root = sha256 (leafMessage (loneAuth flags)) := by
  rw [← rootAt_lone]
  rfl

/-- Two of the lone shreds differ in their roots, so one differs from a given root. -/
theorem exists_lone_ne (r : Bytes 32) :
    ∃ flags, lastInSlot flags = true ∧ (loneAdmitted flags).root ≠ r := by
  by_cases h : (loneAdmitted 0x80).root = r
  · refine ⟨0xc0, by decide, fun h' => ?_⟩
    exact sha256_lone_ne (by rw [← lone_root, ← lone_root]; exact h.trans h'.symm)
  · exact ⟨0x80, by decide, h⟩

/-- The call that delivers the lone shred to its signer's listener. -/
noncomputable def loneCall (flags : UInt8) : Call where
  leaders := staticLeader ((referenceCrates sha256).verifyingKey (sampleKey sha256))
  raw := lone flags

theorem gate_lone (flags : UInt8) : gate (referenceCrates sha256) ⟨true⟩ (loneCall flags).leaders
    (loneCall flags).raw = .ok (.ok (loneAdmitted flags)) :=
  Verified.gate_eq (verified_lone flags) rfl

/-! ## The marker and the content -/

/-- **The marker of a finalized slot belongs to its content**, in every run
whose calls keep the marker to the roots of the sets. -/
theorem marker_belongs (C : Crates) (P : Profile) (calls : List Call)
    (hheld : ∀ pre c post a₁ es₁, calls = pre ++ c :: post →
      ingestAll C P .new pre = .ok (a₁, es₁) → MarkerHeld C P a₁ c) :
    MarkerBelongs C P calls := by
  intro pre c post a₁ es₁ a₂ es₂ hsplit hpre hc slot roots slotRoot n conf hmem
  have hwf := run_wellFormed hpre
  have hrooted : MarkerRooted (admitted C P (pre ++ [c])) a₂ := by
    refine run_markerRooted (ingestAll_snoc_eq_ok.mpr ⟨a₁, es₁, es₂, hpre, hc, rfl⟩) ?_
    intro pre' c' post' a₀ es₀ hsplit' hpre'
    refine hheld pre' c' (post' ++ post) a₀ es₀ ?_ hpre'
    rw [hsplit, ← List.singleton_append, ← List.append_assoc, hsplit']
    simp
  rcases ingest_cases hwf hc with ⟨reason, _, _, rfl⟩ | ⟨x, st, ss, hgate, rfl, hexit⟩
  · simp at hmem
  · obtain ⟨rfl, hroots, _, l, hl, hlisted, hle⟩ := hexit.reports hmem
    rw [FecAssembler.slotOf_put_self]
    refine ⟨hroots, l, hlisted, fun i hi => (hle i hi).1, ?_⟩
    obtain ⟨y, hy, hmark, hkey, hroot⟩ :=
      hrooted x.key.slot l (by rw [FecAssembler.slotOf_put_self]; exact hl)
    obtain ⟨c', hc', hgate'⟩ := mem_admitted hy
    refine ⟨c', hc', y.shred, accepts_of_gate hgate', hmark, congrArg FecKey.slot hkey,
      congrArg FecKey.fecSetIndex hkey, ?_⟩
    rw [rootOf, hroot, Option.getD_some]
    rfl

/-- A shred of a constructed set has the root its set holds, after any deliveries. -/
theorem SlotSets.markerHeld {n : ℕ} (S : SlotSets C P n) (hC : C.AcceptsHonestSignatures)
    {ds : List (Fin n × Fin 64)} (hrun : S.run ds = .ok (a, es)) (d : Fin n × Fin 64) :
    MarkerHeld C P a (S.call d) := by
  intro w haccepts _ _ r hr
  obtain ⟨x, hgate, rfl⟩ := gate_of_accepts haccepts
  rw [S.gate_call hC] at hgate
  cases hgate
  change (a.stateOf (S.admission d).key).merkleRoot = some r at hr
  rw [admission, BuiltSet.admit_key, (S.run_tracks hC hrun).2.root] at hr
  exact (S.firstRoot_eq hr).trans (BuiltSet.admit_root _ d.2).symm

/-- The data shreds of two sets, of which the second carries the marker. -/
theorem marker_belongs_two :
    ∃ S : SlotSets (referenceCrates sha256) ⟨true⟩ 2,
      MarkerBelongs (referenceCrates sha256) ⟨true⟩ (twoHalves.map S.call) ∧
      ∃ a es total conf, S.run twoHalves = .ok (a, es) ∧
        .slotFinalized S.slot S.roots (slotRootOf (referenceCrates sha256) S.roots) total conf ∈
          es := by
  obtain ⟨S, hS⟩ := exists_inOrder 2 (by decide)
  have hsig : (referenceCrates sha256).AcceptsHonestSignatures :=
    referenceCrates_acceptsHonestSignatures
  refine ⟨S, marker_belongs _ ⟨true⟩ _ fun pre c post a₁ es₁ hsplit hpre => ?_,
    S.reports_roots hS hsig referenceCrates_decodesMds.reconstructsEqualLengths complete_twoHalves
      fun _ hp hc => touchedBy_twoHalves hp hc⟩
  obtain ⟨ds, rest, _, rfl, hrest⟩ := List.map_eq_append_iff.mp hsplit
  obtain ⟨d, _, _, rfl, _⟩ := List.map_eq_cons_iff.mp hrest
  exact S.markerHeld hsig hpre d

/-- The first marker of a slot, for a reconstructed set, finalizes the slot if no
smaller set is pending. -/
theorem Exit.finalizes {H : List Admitted} (hwf : WellFormed a) (ht : Tracks C H a)
    (hexit : Exit C a x st ss es) (hmark : x.isLast = true)
    (hunmarked : (a.slotOf x.key.slot).lastFecSetIndex = none)
    (hdone : ∀ i, i ≤ x.key.fecSetIndex →
      ((a.put x.key st ss).stateOf ⟨x.key.slot, i⟩).reconstructed = true) :
    finalEvent C (a.put x.key st ss) x.key.slot ss ∈ es := by
  have hwf' := hexit.wellFormed hwf
  have hmarker := hwf'.marker x.key.slot
  have hseen := hwf'.marker_seen x.key.slot
  have hrec := hwf'.mem_reconstructed x.key.slot
  rw [FecAssembler.slotOf_put_self] at hmarker hseen hrec
  have hmarked : ss.lastFecSetIndex = some x.key.fecSetIndex := by
    obtain ⟨l, hl, _, hfrom, _⟩ := booked_last_marker (a := a) hmark
    rw [hexit.slot.2, hl, hfrom.resolve_right (by rw [hunmarked]; simp)]
  rcases hexit.filter_slotFinalized with ⟨hsame, _⟩ | ⟨_, _, _, hone⟩
  · cases hfin : ss.finalized with
    | true =>
        rw [hfin] at hsame
        obtain ⟨l, hl⟩ := ht.closed hsame.symm
        rw [hunmarked] at hl
        cases hl
    | false =>
        refine absurd ⟨hfin, ?_, _, hmarked, fun i hi => ?_, hseen _ hmarked⟩
          (hexit.not_ready hwf (ht.waiting _))
        · rw [hmarker, hmarked]
          rfl
        · exact (hrec i).mpr (hdone i (mem_indicesToCheck.mp hi).2)
  · exact List.mem_of_mem_filter (hone ▸ List.mem_singleton.mpr rfl)

section ForeignMarker

variable {S : SlotSets (referenceCrates sha256) ⟨true⟩ 1} {a : FecAssembler} {es : List FecEvent}

/-- No shred of a set without the flag is a marker. -/
theorem admission_not_last (hflags : lastInSlot (S.sets 0).params.flags = false)
    (d : Fin 1 × Fin 64) : (S.admission d).isLast = false := by
  rw [SlotSets.admission, BuiltSet.admit_isLast, Subsingleton.elim d.1 0, hflags, Bool.and_false]

/-- The data shreds of such a set leave the slot without a marker. -/
theorem unmarked_half (hflags : lastInSlot (S.sets 0).params.flags = false)
    (ht : Tracks (referenceCrates sha256) ((halfOf 0 0).map S.admission) a) :
    (a.slotOf 0).lastFecSetIndex = none := by
  cases hl : (a.slotOf 0).lastFecSetIndex with
  | none => rfl
  | some l =>
      obtain ⟨x, hx, hmark, _⟩ := ht.marker_mem hl
      obtain ⟨d, _, rfl⟩ := List.mem_map.mp hx
      rw [admission_not_last hflags d] at hmark
      cases hmark

/-- They reconstruct the set under its own root. -/
theorem reconstructed_half (hkey : (S.sets 0).key = ⟨0, 0⟩) (hwf : WellFormed a)
    (ht : Tracks (referenceCrates sha256) ((halfOf 0 0).map S.admission) a) :
    (a.stateOf ⟨0, 0⟩).reconstructed = true ∧
      (a.stateOf ⟨0, 0⟩).merkleRoot = some (S.sets 0).set.merkleRoot := by
  have hrs : (referenceCrates sha256).ReconstructsEqualLengths :=
    referenceCrates_decodesMds.reconstructsEqualLengths
  rw [← hkey]
  refine ⟨?_, ?_⟩
  · rw [SlotSets.reconstructed_iff hwf ht hrs, card_delivered_halfOf]
  · rw [ht.root]
    exact S.firstRoot_delivered (i := 0) (mem_halfOf.mpr ⟨rfl, by decide, by decide⟩)

/-- A lone shred with the flag and another root finalizes a set without the flag. -/
theorem not_markerBelongs (hkey : (S.sets 0).key = ⟨0, 0⟩)
    (hflags : lastInSlot (S.sets 0).params.flags = false)
    (flags : UInt8) (hlast : lastInSlot flags = true)
    (hne : (loneAdmitted flags).root ≠ (S.sets 0).set.merkleRoot) :
    ¬ MarkerBelongs (referenceCrates sha256) ⟨true⟩
      ((halfOf 0 0).map S.call ++ [loneCall flags]) := by
  have hC : (referenceCrates sha256).AcceptsHonestSignatures :=
    referenceCrates_acceptsHonestSignatures
  intro hbelongs
  obtain ⟨a₁, es₁, hrun⟩ := S.run_ok hC (halfOf 0 0)
  obtain ⟨hwf, ht⟩ := S.run_tracks hC hrun
  obtain ⟨hrec, hroot⟩ := reconstructed_half hkey hwf ht
  obtain ⟨st, ss, es₂, hstep, hexit⟩ := ingest_admitted hwf (gate_lone flags)
  have hlone := lone_key flags
  have hstate : (a₁.put (loneAdmitted flags).key st ss).stateOf ⟨0, 0⟩ = a₁.stateOf ⟨0, 0⟩ := by
    have hst := hexit.settled_eq (by rw [hlone, hrec])
    rw [hlone] at hst ⊢
    rw [FecAssembler.stateOf_put_self, hst]
  -- the lone shred is the first marker, and finalizes the slot
  have hunmarked : (a₁.slotOf (loneAdmitted flags).key.slot).lastFecSetIndex = none := by
    rw [hlone]
    exact unmarked_half hflags ht
  have hdone : ∀ i ≤ (loneAdmitted flags).key.fecSetIndex,
      ((a₁.put (loneAdmitted flags).key st ss).stateOf
        ⟨(loneAdmitted flags).key.slot, i⟩).reconstructed = true := by
    intro i hi
    rw [hlone, UInt32.le_iff_toNat_le] at hi
    have hzero : i = 0 := UInt32.toNat_inj.mp (by simpa using hi)
    rw [show (⟨(loneAdmitted flags).key.slot, i⟩ : FecKey) = ⟨0, 0⟩ by rw [hlone, hzero], hstate,
      hrec]
  have hmem := hexit.finalizes hwf ht ((lone_isLast flags).trans hlast) hunmarked hdone
  -- no shred of the run is a marker of the set's root
  obtain ⟨_, l, _, _, c', hc', w, haccepts, hmark, _, hfec, hw⟩ :=
    hbelongs _ _ [] a₁ es₁ _ es₂ rfl hrun hstep _ _ _ _ _ hmem
  obtain ⟨x, hgate, rfl⟩ := gate_of_accepts haccepts
  rw [List.mem_append, List.mem_singleton] at hc'
  rcases hc' with hc' | rfl
  · obtain ⟨d, _, rfl⟩ := List.mem_map.mp hc'
    rw [S.gate_call hC] at hgate
    cases hgate
    have hno := admission_not_last hflags d
    rw [Admitted.isLast, hmark] at hno
    cases hno
  · rw [gate_lone] at hgate
    cases hgate
    have hl : l = 0 := by
      rw [← hfec]
      exact congrArg FecKey.fecSetIndex hlone
    refine hne (hw.trans ?_)
    rw [hlone] at hstate ⊢
    rw [hl, rootOf, hstate, hroot, Option.getD_some]

end ForeignMarker

/-- A slot is finalized by a marker that belongs to none of its sets. -/
theorem finalized_by_foreign_marker :
    ∃ calls, ¬ MarkerBelongs (referenceCrates sha256) ⟨true⟩ calls := by
  obtain ⟨B, hB⟩ := exists_sampleSet 0 0 (by decide)
  obtain ⟨flags, hlast, hne⟩ := exists_lone_ne B.set.merkleRoot
  have hkey : (B.alone.sets 0).key = ⟨0, 0⟩ := by
    change (⟨B.params.slot, B.params.fecSetIndex⟩ : FecKey) = _
    rw [hB]
    rfl
  have hflags : lastInSlot (B.alone.sets 0).params.flags = false := by
    change lastInSlot B.params.flags = false
    rw [hB]
    decide
  exact ⟨_, not_markerBelongs (S := B.alone) hkey hflags flags hlast hne⟩

end Lattica.Listener
