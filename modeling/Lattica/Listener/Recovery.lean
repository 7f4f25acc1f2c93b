import Lattica.Listener.Deliveries
import Lattica.Shred.RoundTrip

/-!
# Any 32 of 64

The erasure regions of a constructed set are a codeword (`BuiltSet.codeword`),
so whatever 32 of them a listener holds, the crate returns all 64.
-/

namespace Lattica.Listener

open Foundation Shred Reedsol

variable {C : Crates} {P : Profile} {code : ShardCode}

/-! ## The regions of a set are a codeword -/

/-- The word of the 64 erasure regions of a set. -/
def regionWord (fs : FecSet) : Fin 64 → Bytes 987 :=
  fun i => asArray 987 (erasureRegion fs i)

section Regions

variable {payload : List UInt8} {params : FecSetParams C} {parity : List (List UInt8)}
  (h : ParityShape parity)

include h

theorem erasureRegion_data {i : Fin 64} (hi : i.1 < 32) :
    erasureRegion (setOf C payload params parity) i =
      cut (filledData payload params i.1 (indexAt params i.1)) 64 1051 := by
  obtain ⟨_, _, hlow⟩ := layout_bounds i.1
  have hf : Fields params i.1 (filledAt payload params parity i.1) := fields_filledAt h i.2
  rw [erasureRegion, if_pos hi, List.getD_eq_getElem?_getD, getElem?_setOf h i.2, Option.getD_some,
    shredAt, cut_sealShred hf.length (length_proofAt h _) (by omega) (by omega), filledAt,
    if_pos hi]

theorem erasureRegion_code {i : Fin 64} (hi : 32 ≤ i.1) :
    erasureRegion (setOf C payload params parity) i = parity.getD (i.1 - 32) [] := by
  have hps : proofStartAt i.1 = 1108 := if_neg (by simpa using hi)
  have hf : Fields params i.1 (filledAt payload params parity i.1) := fields_filledAt h i.2
  have hp := length_parityAt h (j := i.1 - 32) (by omega)
  have hlen : (filledCode params (i.1 - 32) (indexAt params (i.1 - 32))).length = 1228 :=
    length_filledCode _ _
  rw [erasureRegion, if_neg (by omega), List.getD_eq_getElem?_getD, getElem?_setOf h i.2,
    Option.getD_some, shredAt, cut_sealShred hf.length (length_proofAt h _) (by omega) (by omega),
    filledAt, if_neg (by omega), cut_splice_self (by omega) (by omega)]

end Regions

/-- **The regions of a constructed set are a codeword.** -/
theorem BuiltSet.codeword (B : BuiltSet C P) (henc : EncodesMds C code) :
    regionWord B.set ∈ (code 987).words := by
  obtain ⟨_, hfit, parity, hpar, hshape, hset⟩ := buildFecSet_eq_ok B.built
  obtain ⟨rs, out, hnew, hout, hparity⟩ := (encodeParity_eq_ok dataShredsOf_long).mp hpar
  obtain ⟨rs', hnew', henc⟩ := henc
  rw [hnew] at hnew'
  cases hnew'
  obtain ⟨out', hout', hword⟩ := henc 987
    ((dataShredsOf B.payload B.params).map fun b => cut b 64 1051) zeroParity (by decide)
    (by simp [dataShredsOf]) List.length_replicate
    (by
      intro s hs
      obtain ⟨b, hb, rfl⟩ := List.mem_map.mp hs
      rw [length_cut (dataShredsOf_long b hb)])
    (by
      intro s hs
      rw [List.eq_of_mem_replicate hs, List.length_replicate])
  rw [hout] at hout'
  cases hout'
  rw [← hparity] at hword
  refine (congrArg (· ∈ (code 987).words) (funext fun i => ?_)).mp hword
  rw [wordOf, regionWord, hset]
  congr 1
  by_cases hi : i.1 < 32
  · rw [erasureRegion_data hshape hi, List.getD_eq_getElem?_getD,
      List.getElem?_append_left (by simpa [dataShredsOf] using hi), List.getElem?_map,
      dataShredsOf, List.getElem?_map, List.getElem?_range hi]
    rfl
  · rw [erasureRegion_code hshape (by omega), List.getD_eq_getElem?_getD,
      List.getElem?_append_right (by simpa [dataShredsOf] using hi), List.getD_eq_getElem?_getD]
    simp [dataShredsOf]

namespace SlotSets

variable {n : ℕ} {S : SlotSets C P n} {ds : List (Fin n × Fin 64)} {a : FecAssembler}

/-- A reconstructed set comes back as the regions of all its shreds. -/
theorem reconstruct_regions (henc : EncodesMds C code) (hdec : DecodesMds C code)
    (hwf : WellFormed a) (ht : Tracks C (ds.map S.admission) a) {k : Fin n}
    (hrec : (a.stateOf (S.sets k).key).reconstructed = true) :
    ∃ handed out, cloneShards (a.stateOf (S.sets k).key).shards = .ok handed ∧
      reconstruct C handed = .ok out ∧
        out.1 = List.ofFn fun i => some (erasureRegion (S.sets k).set i) := by
  obtain ⟨hmany, out, hout⟩ := ht.enough hrec
  refine ⟨_, out, cloneShards_eq (hwf.stateOf_length _), hout, ?_⟩
  have hlen := (S.sets k).length_erasureRegion
  rw [reconstruct_eq_codeword hdec (recoverable hwf ht hmany) hout
    ((S.sets k).codeword henc) fun i s hs => ?_, filled]
  · simp only [regionWord, asArray_val (hlen _)]
  · rw [regionWord, asArray_val (hlen i)]
    exact (stored_delivered ht hs).2

end SlotSets

/-! ## One set, delivered in any order -/

namespace BuiltSet

variable (B : BuiltSet C P)

/-- The set alone in its slot. -/
def alone : SlotSets C P 1 where
  slot := B.params.slot
  signingKey := B.params.signingKey
  sets _ := B
  slot_eq _ := rfl
  signingKey_eq _ := rfl
  apart _ _ _ := Subsingleton.elim _ _

/-- Deliveries of its shreds. -/
def deliveries (is : List (Fin 64)) : List (Fin 1 × Fin 64) := is.map fun i => (0, i)

theorem delivered_deliveries (is : List (Fin 64)) (k : Fin 1) :
    SlotSets.delivered (deliveries is) k = is.toFinset := by
  ext i
  simp [SlotSets.delivered, deliveries, Subsingleton.elim k 0]

end BuiltSet

/-- The run of a listener of the set's key on the shreds at the given positions. -/
def deliver (C : Crates) (P : Profile) (fs : FecSet) (is : List (Fin 64)) :
    Exec Empty (FecAssembler × List FecEvent) :=
  ingestAll C P .new (is.map fun i => ⟨staticLeader fs.leaderPubkey, fs.shreds.getD i.1 []⟩)

namespace BuiltSet

variable (B : BuiltSet C P)

theorem deliver_eq (is : List (Fin 64)) :
    deliver C P B.set is = B.alone.run (deliveries is) := by
  rw [deliver, SlotSets.run, deliveries, List.map_map, B.leaderPubkey_eq]
  rfl

/-- No delivery is rejected, and the set is reported reconstructed once. -/
theorem deliver_events (hC : C.AcceptsHonestSignatures) (hrs : C.ReconstructsEqualLengths) :
    ∀ {is : List (Fin 64)} {a : FecAssembler} {es : List FecEvent},
      deliver C P B.set is = .ok (a, es) → es.filter FecEvent.isRejected = [] ∧
        es.filter FecEvent.isReconstructed =
          if 32 ≤ is.toFinset.card then [.reconstructed B.key B.set.merkleRoot 1] else [] := by
  intro is
  induction is using List.reverseRecOn with
  | nil =>
      intro a es h
      cases h
      exact ⟨rfl, rfl⟩
  | append_singleton is i ih =>
      intro a es h
      rw [deliver_eq, deliveries, List.map_append, List.map_singleton] at h
      obtain ⟨a₁, es₁, es₂, st, ss, hrun, rfl, _, hexit⟩ := B.alone.run_snoc hC h
      obtain ⟨hwf, ht⟩ := B.alone.run_tracks hC hrun
      obtain ⟨hrej, hrec⟩ := ih ((B.deliver_eq is).trans hrun)
      have hlast := SlotSets.filter_reconstructed hrs hwf ht hexit
      have hdel := delivered_deliveries is 0
      rw [deliveries] at hdel
      rw [List.filter_append, List.filter_append, hrej, hrec, hlast, hdel,
        SlotSets.no_rejection hrs hwf ht hexit]
      refine ⟨rfl, ?_⟩
      have hset : (is ++ [i]).toFinset = insert i is.toFinset := by
        ext j
        simp
      rw [hset]
      change _ ++ (if is.toFinset.card = 31 ∧ i ∉ is.toFinset then
        [FecEvent.reconstructed B.key B.set.merkleRoot 1] else []) = _
      by_cases hmem : i ∈ is.toFinset
      · have hno : ¬ (is.toFinset.card = 31 ∧ i ∉ is.toFinset) := fun hc => hc.2 hmem
        rw [Finset.insert_eq_of_mem hmem, if_neg hno, List.append_nil]
      · rw [Finset.card_insert_of_notMem hmem]
        by_cases hcard : is.toFinset.card = 31
        · rw [if_neg (by omega), if_pos ⟨hcard, hmem⟩, if_pos (by omega)]
          rfl
        · have hno : ¬ (is.toFinset.card = 31 ∧ i ∉ is.toFinset) := fun hc => hcard hc.1
          rw [if_neg hno, List.append_nil]
          exact if_congr (by omega) rfl rfl

/-- The delivery of the 32nd distinct shred, and no other, reports the set
reconstructed, and the crate has returned all its regions. -/
theorem deliver_step (hC : C.AcceptsHonestSignatures) (henc : EncodesMds C code)
    (hdec : DecodesMds C code) (pre : List (Fin 64)) (i : Fin 64) :
    ∃ a₁ es₁ a₂ es₂, deliver C P B.set pre = .ok (a₁, es₁) ∧
      ingest C P (staticLeader B.set.leaderPubkey) a₁ (B.shred i) = .ok (a₂, es₂) ∧
      ((∃ key root das, .reconstructed key root das ∈ es₂) ↔ pre.toFinset.card = 31 ∧ i ∉ pre) ∧
      ((∃ key root das, .reconstructed key root das ∈ es₂) → ∃ st handed out,
        a₂.states B.key = some st ∧ cloneShards st.shards = .ok handed ∧
        reconstruct C handed = .ok out ∧
        out.1 = List.ofFn fun j => some (erasureRegion B.set j)) := by
  have hrs := hdec.reconstructsEqualLengths
  obtain ⟨a₁, es₁, hrun⟩ := B.alone.run_ok hC (deliveries pre)
  obtain ⟨hwf, ht⟩ := B.alone.run_tracks hC hrun
  obtain ⟨st, ss, es₂, hstep, hexit⟩ := B.alone.ingest_call hC hwf (0, i)
  obtain ⟨hwf', ht'⟩ := SlotSets.step_tracks hwf ht hexit
  have hiff := SlotSets.reconstructed_mem_iff hrs hwf ht hexit
  rw [delivered_deliveries, List.mem_toFinset] at hiff
  rw [SlotSets.leaders, alone, ← B.leaderPubkey_eq] at hstep
  refine ⟨a₁, es₁, _, es₂, (B.deliver_eq pre).trans hrun, hstep, hiff, fun hmem => ?_⟩
  obtain ⟨hcard, hnew⟩ := hiff.mp hmem
  have hrec : ((a₁.put (B.alone.sets 0).key st ss).stateOf (B.alone.sets 0).key).reconstructed =
      true := by
    rw [SlotSets.reconstructed_iff hwf' ht' hrs, SlotSets.delivered_snoc,
      delivered_deliveries,
      Finset.card_insert_of_notMem fun h => hnew (List.mem_toFinset.mp h)]
    omega
  obtain ⟨handed, out, hclone, hout, hregions⟩ :=
    SlotSets.reconstruct_regions henc hdec hwf' ht' hrec
  exact ⟨_, handed, out, stateOf_eq_of_reconstructed hrec, hclone, hout, hregions⟩

end BuiltSet

/-- **Any 32 of 64 recover the block.** -/
theorem any_32_of_64_recover (C : Crates) (hsig : C.AcceptsHonestSignatures) (code : ShardCode)
    (henc : EncodesMds C code) (hdec : DecodesMds C code) (P : Profile) (payload : List UInt8)
    (hlen : payload.length ≤ 32 * 963) (params : FecSetParams C)
    (hfec : params.fecSetIndex.toNat + 31 < 2 ^ 32) :
    ∃ fs, buildFecSet C P payload params = .ok fs ∧ ∀ is : List (Fin 64),
      (∃ a es, deliver C P fs is = .ok (a, es) ∧ (∀ reason, .rejected reason ∉ es) ∧
        es.filter FecEvent.isReconstructed =
          if 32 ≤ is.toFinset.card then
            [.reconstructed ⟨params.slot, params.fecSetIndex⟩ fs.merkleRoot 1]
          else []) ∧
      ∀ pre i post, is = pre ++ i :: post → ∃ a₁ es₁ a₂ es₂,
        deliver C P fs pre = .ok (a₁, es₁) ∧
        ingest C P (staticLeader fs.leaderPubkey) a₁ (fs.shreds.getD i.1 []) = .ok (a₂, es₂) ∧
        ((∃ key root das, .reconstructed key root das ∈ es₂) ↔
          pre.toFinset.card = 31 ∧ i ∉ pre) ∧
        ((∃ key root das, .reconstructed key root das ∈ es₂) → ∃ st handed out,
          a₂.states ⟨params.slot, params.fecSetIndex⟩ = some st ∧
          cloneShards st.shards = .ok handed ∧ reconstruct C handed = .ok out ∧
          out.1 = List.ofFn fun j => some (erasureRegion fs j)) := by
  have hrs := hdec.reconstructsEqualLengths
  obtain ⟨parity, _, hbuild⟩ :=
    buildFecSet_succeeds (P := P) payload params henc.encodesEqualLengths (by omega)
      (indexesFit_of_lt hfec)
  let B : BuiltSet C P := ⟨payload, params, _, hbuild⟩
  refine ⟨_, hbuild, fun is => ⟨?_, fun pre i post _ => ?_⟩⟩
  · obtain ⟨a, es, hrun⟩ := B.alone.run_ok hsig (BuiltSet.deliveries is)
    rw [← B.deliver_eq] at hrun
    obtain ⟨hrej, hrec⟩ := B.deliver_events hsig hrs hrun
    refine ⟨a, es, hrun, fun reason hmem => ?_, hrec⟩
    have hin := List.mem_filter.mpr ⟨hmem, (rfl : FecEvent.isRejected _ = true)⟩
    rw [hrej] at hin
    cases hin
  · exact B.deliver_step hsig henc hdec pre i

/-- A set of three payload bytes over the reference crates. -/
theorem any_32_of_64_recover_small :
    ∃ fs, buildFecSet (referenceCrates sha256) ⟨true⟩ [1, 2, 3] (sampleParams sha256 64 0xc0) =
        .ok fs ∧ ∀ is : List (Fin 64), ∃ a es, deliver (referenceCrates sha256) ⟨true⟩ fs is =
        .ok (a, es) ∧ ∀ reason, .rejected reason ∉ es := by
  obtain ⟨fs, hbuild, h⟩ := any_32_of_64_recover (referenceCrates sha256)
    referenceCrates_acceptsHonestSignatures shardCode referenceCrates_encodesMds
    referenceCrates_decodesMds ⟨true⟩ [1, 2, 3] (by decide) (sampleParams sha256 64 0xc0)
    (by decide)
  refine ⟨fs, hbuild, fun is => ?_⟩
  obtain ⟨⟨a, es, hrun, hrej, _⟩, _⟩ := h is
  exact ⟨a, es, hrun, hrej⟩

/-! ## A delivered sample -/

/-- A set of three payload bytes over the reference crates. -/
theorem exists_builtSet (params : FecSetParams (referenceCrates sha256))
    (hfec : params.fecSetIndex.toNat + 31 < 2 ^ 32) :
    ∃ B : BuiltSet (referenceCrates sha256) ⟨true⟩, B.params = params := by
  obtain ⟨parity, _, hbuild⟩ := buildFecSet_succeeds (P := ⟨true⟩) [1, 2, 3] params
    referenceCrates_encodesMds.encodesEqualLengths (by decide) (indexesFit_of_lt hfec)
  exact ⟨⟨_, _, _, hbuild⟩, rfl⟩

theorem exists_sampleSet (fecSetIndex : UInt32) (flags : UInt8)
    (hfec : fecSetIndex.toNat + 31 < 2 ^ 32) :
    ∃ B : BuiltSet (referenceCrates sha256) ⟨true⟩,
      B.params = sampleParams sha256 fecSetIndex flags :=
  exists_builtSet (sampleParams sha256 fecSetIndex flags) hfec

/-- The run that delivers the 32 data shreds of a set. -/
theorem BuiltSet.exists_halfRun (B : BuiltSet (referenceCrates sha256) ⟨true⟩) :
    ∃ a es, ingestAll (referenceCrates sha256) ⟨true⟩ .new ((halfOf 0 0).map B.alone.call) =
      .ok (a, es) ∧ (a.stateOf B.key).reconstructed = true := by
  obtain ⟨a, es, hrun⟩ := B.alone.run_ok referenceCrates_acceptsHonestSignatures (halfOf 0 0)
  obtain ⟨hwf, ht⟩ := B.alone.run_tracks referenceCrates_acceptsHonestSignatures hrun
  refine ⟨a, es, hrun, ?_⟩
  change (a.stateOf (B.alone.sets 0).key).reconstructed = true
  rw [SlotSets.reconstructed_iff hwf ht referenceCrates_decodesMds.reconstructsEqualLengths,
    card_delivered_halfOf]

/-- The same for a sample set. -/
theorem exists_sampleRun (fecSetIndex : UInt32) (flags : UInt8)
    (hfec : fecSetIndex.toNat + 31 < 2 ^ 32) :
    ∃ (B : BuiltSet (referenceCrates sha256) ⟨true⟩) (a : FecAssembler) (es : List FecEvent),
      B.params = sampleParams sha256 fecSetIndex flags ∧
      ingestAll (referenceCrates sha256) ⟨true⟩ .new ((halfOf 0 0).map B.alone.call) =
        .ok (a, es) ∧ (a.stateOf ⟨0, fecSetIndex⟩).reconstructed = true := by
  obtain ⟨B, hB⟩ := exists_sampleSet fecSetIndex flags hfec
  obtain ⟨a, es, hrun, hrec⟩ := B.exists_halfRun
  refine ⟨B, a, es, hB, hrun, ?_⟩
  rw [BuiltSet.key, hB] at hrec
  exact hrec

end Lattica.Listener
