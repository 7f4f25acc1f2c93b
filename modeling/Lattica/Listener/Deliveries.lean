import Lattica.Listener.History
import Lattica.Shred.FecSetVerify

/-!
# Delivering constructed sets

Runs on the shreds of sets that `build_fec_set` made, with one key, for one
slot and at different indexes: every call admits its shred, a pending set holds
the regions of exactly the shreds delivered, and a set is reconstructed exactly
when 32 distinct shreds of it have been delivered.
-/

namespace Lattica.Listener

open Foundation Shred Reedsol

variable {C : Crates} {P : Profile}

/-- `StaticLeader`: one leader for every slot. -/
def staticLeader (leaderPubkey : Bytes 32) : Leaders := fun _ => some leaderPubkey

/-- The erasure region of the shred at position `i` of a set. -/
def erasureRegion (fs : FecSet) (i : Fin 64) : List UInt8 :=
  if i.1 < 32 then cut (fs.shreds.getD i.1 []) 64 1051 else cut (fs.shreds.getD i.1 []) 89 1076

/-! ## One set -/

/-- A set made by `build_fec_set`. -/
structure BuiltSet (C : Crates) (P : Profile) where
  payload : List UInt8
  params : FecSetParams C
  set : FecSet
  built : buildFecSet C P payload params = .ok set

namespace BuiltSet

variable (B : BuiltSet C P)

def key : FecKey := ⟨B.params.slot, B.params.fecSetIndex⟩

def shred (i : Fin 64) : List UInt8 := B.set.shreds.getD i.1 []

/-- What the listener admits a shred of the set as. -/
def admission (i : Fin 64) : Admitted := admittedAs C (B.shred i) (variantAt i.1) i.1

theorem eq_setOf : ∃ parity, ParityShape parity ∧ IndexesFit P B.params ∧
    B.set = setOf C B.payload B.params parity ∧
      ∀ i : Fin 64, B.shred i = shredAt C B.payload B.params parity i.1 := by
  obtain ⟨_, hfit, parity, _, hshape, hset⟩ := buildFecSet_eq_ok B.built
  refine ⟨parity, hshape, hfit, hset, fun i => ?_⟩
  rw [shred, List.getD_eq_getElem?_getD, hset, getElem?_setOf hshape i.2, Option.getD_some]

theorem verified (hC : C.AcceptsHonestSignatures) (i : Fin 64) :
    Verified C P (B.shred i) B.set.leaderPubkey (variantAt i.1) i.1 := by
  obtain ⟨parity, hshape, hfit, hset, hshred⟩ := B.eq_setOf
  rw [hshred, hset]
  exact verified_shredAt hshape hC hfit i.2

theorem admit_shred (i : Fin 64) : (B.admission i).shred =
    { slot := B.params.slot
      fecSetIndex := B.params.fecSetIndex
      index := .ofNat (indexAt B.params (i.1 % 32))
      erasureShardIndex := i.1
      merkleRoot := B.set.merkleRoot
      chainedRoot := some B.params.chainedRoot
      kind := if i.1 < 32 then .data else .code
      dataFlags := if i.1 < 32 then some B.params.flags else none } := by
  obtain ⟨parity, hshape, _, hset, hshred⟩ := B.eq_setOf
  rw [admission, hshred, admittedAs, hset]
  exact verifiedOf_shredAt hshape i.2

@[simp] theorem admit_key (i : Fin 64) : (B.admission i).key = B.key := by
  rw [Admitted.key, admit_shred, key]

@[simp] theorem admit_root (i : Fin 64) : (B.admission i).root = B.set.merkleRoot := by
  rw [Admitted.root, admit_shred]

@[simp] theorem admit_idx (i : Fin 64) : (B.admission i).idx = i.1 := by
  rw [Admitted.idx, admit_shred]

theorem admit_isLast (i : Fin 64) :
    (B.admission i).isLast = (decide (i.1 < 32) && lastInSlot B.params.flags) := by
  rw [Admitted.isLast, VerifiedShred.isLastInSlot, admit_shred]
  by_cases hi : i.1 < 32
  · simp [hi]
  · simp [hi]

theorem kind_variantAt (i : ℕ) : (variantAt i).kind = if i < 32 then .data else .code := by
  rw [variantAt]
  split <;> rfl

theorem admit_bytes (i : Fin 64) : (B.admission i).bytes = erasureRegion B.set i := by
  rw [admission, admittedAs, kind_variantAt, erasureRegion, shred]
  by_cases hi : i.1 < 32
  · rw [if_pos hi, if_pos hi]
    rfl
  · rw [if_neg hi, if_neg hi]
    rfl

theorem length_shred (i : Fin 64) : (B.shred i).length = if i.1 < 32 then 1203 else 1228 := by
  obtain ⟨parity, hshape, _, _, hshred⟩ := B.eq_setOf
  have hf : Fields B.params i.1 (shredAt C B.payload B.params parity i.1) :=
    fields_shredAt hshape i.2
  rw [hshred, hf.length, (variantAt_layout i.1).2.2.2]

theorem length_erasureRegion (i : Fin 64) : (erasureRegion B.set i).length = 987 := by
  have hlen := B.length_shred i
  rw [erasureRegion]
  change (if i.1 < 32 then cut (B.shred i) 64 1051 else cut (B.shred i) 89 1076).length = 987
  by_cases hi : i.1 < 32
  · rw [if_pos hi] at hlen ⊢
    rw [length_cut (by omega)]
  · rw [if_neg hi] at hlen ⊢
    rw [length_cut (by omega)]

theorem leaderPubkey_eq : B.set.leaderPubkey = C.verifyingKey B.params.signingKey := by
  obtain ⟨parity, _, _, hset, _⟩ := B.eq_setOf
  rw [hset]
  rfl

/-- The listener of the set's key admits every shred of it. -/
theorem gate_shred (hC : C.AcceptsHonestSignatures) (i : Fin 64) :
    gate C P (staticLeader B.set.leaderPubkey) (B.shred i) = .ok (.ok (B.admission i)) :=
  Verified.gate_eq (B.verified hC i) rfl

end BuiltSet

/-! ## Several sets of one slot -/

/-- `n` constructed sets of one slot and one signing key, at different indexes. -/
structure SlotSets (C : Crates) (P : Profile) (n : ℕ) where
  slot : UInt64
  signingKey : C.SigningKey
  sets : Fin n → BuiltSet C P
  slot_eq : ∀ k, (sets k).params.slot = slot
  signingKey_eq : ∀ k, (sets k).params.signingKey = signingKey
  apart : Function.Injective fun k => (sets k).params.fecSetIndex

namespace SlotSets

variable {n : ℕ} (S : SlotSets C P n)

/-- `FecAssembler::new` for the signing key. -/
def leaders : Leaders := staticLeader (C.verifyingKey S.signingKey)

/-- The shred at position `d.2` of set `d.1`. -/
def call (d : Fin n × Fin 64) : Call := ⟨S.leaders, (S.sets d.1).shred d.2⟩

def admission (d : Fin n × Fin 64) : Admitted := (S.sets d.1).admission d.2

/-- The run that delivers the given shreds. -/
def run (ds : List (Fin n × Fin 64)) : Exec Empty (FecAssembler × List FecEvent) :=
  ingestAll C P .new (ds.map S.call)

theorem gate_call (hC : C.AcceptsHonestSignatures) (d : Fin n × Fin 64) :
    gate C P (S.call d).leaders (S.call d).raw = .ok (.ok (S.admission d)) := by
  have hg := (S.sets d.1).gate_shred hC d.2
  rw [(S.sets d.1).leaderPubkey_eq, S.signingKey_eq] at hg
  exact hg

theorem admitted_calls (hC : C.AcceptsHonestSignatures) (ds : List (Fin n × Fin 64)) :
    admitted C P (ds.map S.call) = ds.map S.admission := by
  rw [admitted, List.filterMap_map]
  have hone : (Call.admission C P ∘ S.call) = fun d => some (S.admission d) :=
    funext fun d => admit_of_gate (S.gate_call hC d)
  rw [hone, ← Function.comp_def some S.admission, List.filterMap_eq_map]

theorem run_tracks (hC : C.AcceptsHonestSignatures) {ds : List (Fin n × Fin 64)}
    {a : FecAssembler} {es : List FecEvent} (h : S.run ds = .ok (a, es)) :
    WellFormed a ∧ Tracks C (ds.map S.admission) a := by
  rw [← S.admitted_calls hC]
  exact Listener.run_tracks h

/-- A delivery is an exit of its shred. -/
theorem ingest_call (hC : C.AcceptsHonestSignatures) {a : FecAssembler} (hwf : WellFormed a)
    (d : Fin n × Fin 64) : ∃ st ss es, ingest C P S.leaders a ((S.sets d.1).shred d.2) =
      .ok (a.put (S.sets d.1).key st ss, es) ∧ Exit C a (S.admission d) st ss es := by
  rw [← (S.sets d.1).admit_key d.2]
  exact ingest_admitted hwf (S.gate_call hC d)

/-- Every delivery returns. -/
theorem run_ok (hC : C.AcceptsHonestSignatures) (ds : List (Fin n × Fin 64)) :
    ∃ a es, S.run ds = .ok (a, es) := by
  refine run_of_admits fun c hc => ?_
  obtain ⟨d, _, rfl⟩ := List.mem_map.mp hc
  exact ⟨_, S.gate_call hC d⟩

/-- The last delivery of a run. -/
theorem run_snoc (hC : C.AcceptsHonestSignatures) {ds : List (Fin n × Fin 64)}
    {d : Fin n × Fin 64} {a' : FecAssembler} {es : List FecEvent}
    (h : S.run (ds ++ [d]) = .ok (a', es)) :
    ∃ a es₁ es₂ st ss, S.run ds = .ok (a, es₁) ∧ es = es₁ ++ es₂ ∧
      a' = a.put (S.sets d.1).key st ss ∧ Exit C a (S.admission d) st ss es₂ := by
  rw [run, List.map_append, List.map_singleton] at h
  obtain ⟨a, es₁, es₂, hrun, hstep, hes⟩ := ingestAll_snoc_eq_ok.mp h
  obtain ⟨st, ss, es', hstep', hexit⟩ := S.ingest_call hC (S.run_tracks hC hrun).1 d
  have hsame := hstep'.symm.trans hstep
  cases hsame
  exact ⟨a, es₁, _, st, ss, hrun, hes, rfl, hexit⟩

theorem key_injective {k k' : Fin n} (h : (S.sets k).key = (S.sets k').key) : k = k' :=
  S.apart (congrArg FecKey.fecSetIndex h)

/-- The positions of set `k` that have been delivered. -/
def delivered (ds : List (Fin n × Fin 64)) (k : Fin n) : Finset (Fin 64) :=
  Finset.univ.filter fun i => (k, i) ∈ ds

theorem delivered_snoc (ds : List (Fin n × Fin 64)) (d : Fin n × Fin 64) :
    delivered (ds ++ [d]) d.1 = insert d.2 (delivered ds d.1) := by
  ext i
  simp [delivered, Prod.ext_iff, or_comm]

theorem mem_delivered {ds : List (Fin n × Fin 64)} {k : Fin n} {i : Fin 64} :
    i ∈ delivered ds k ↔ (k, i) ∈ ds := by
  simp [delivered]

theorem firstRoot_eq {ds : List (Fin n × Fin 64)} {k : Fin n} {r : Bytes 32}
    (h : firstRoot (ds.map S.admission) (S.sets k).key = some r) :
    r = (S.sets k).set.merkleRoot := by
  rw [firstRoot, Option.map_eq_some_iff] at h
  obtain ⟨x, hfind, rfl⟩ := h
  obtain ⟨d, _, rfl⟩ := List.mem_map.mp (List.mem_of_find?_eq_some hfind)
  have hkey : (S.sets d.1).key = (S.sets k).key := by
    simpa [admission] using List.find?_some hfind
  rw [admission, BuiltSet.admit_root, S.key_injective hkey]

/-- All shreds delivered for a set have its root. -/
theorem root_of_key {ds : List (Fin n × Fin 64)} {k : Fin n} :
    ∀ x ∈ ds.map S.admission, x.key = (S.sets k).key → x.root = (S.sets k).set.merkleRoot := by
  intro x hx hkey
  obtain ⟨d, _, rfl⟩ := List.mem_map.mp hx
  rw [admission, BuiltSet.admit_key] at hkey
  rw [admission, BuiltSet.admit_root, S.key_injective hkey]

theorem length_of_mem {ds : List (Fin n × Fin 64)} :
    ∀ x ∈ ds.map S.admission, x.bytes.length = 987 := by
  intro x hx
  obtain ⟨d, _, rfl⟩ := List.mem_map.mp hx
  rw [admission, BuiltSet.admit_bytes]
  exact (S.sets d.1).length_erasureRegion d.2

theorem firstRoot_delivered {ds : List (Fin n × Fin 64)} {k : Fin n} {i : Fin 64}
    (h : (k, i) ∈ ds) :
    firstRoot (ds.map S.admission) (S.sets k).key = some (S.sets k).set.merkleRoot :=
  firstRoot_of_one S.root_of_key ⟨S.admission (k, i), List.mem_map_of_mem h, (S.sets k).admit_key i⟩

/-- The positions admitted for a set are those delivered. -/
theorem positions_admit (ds : List (Fin n × Fin 64)) (k : Fin n) :
    positions (ds.map S.admission) (S.sets k).key = delivered ds k := by
  ext i
  rw [mem_positions, mem_delivered]
  constructor
  · rintro ⟨x, hx, hkey, hidx⟩
    obtain ⟨d, hd, rfl⟩ := List.mem_map.mp hx
    rw [admission, BuiltSet.admit_key] at hkey
    rw [admission, BuiltSet.admit_idx] at hidx
    rw [← S.key_injective hkey, ← Fin.ext hidx]
    exact hd
  · intro hd
    exact ⟨_, List.mem_map_of_mem hd, (S.sets k).admit_key i, (S.sets k).admit_idx i⟩

section State

variable {S} {ds : List (Fin n × Fin 64)} {a : FecAssembler}
  (hwf : WellFormed a) (ht : Tracks C (ds.map S.admission) a)

include ht

/-- A stored shard is the region of the shred delivered there. -/
theorem stored_delivered {k : Fin n} {i : Fin 64} {s : List UInt8}
    (hs : (a.stateOf (S.sets k).key).shards[i.1]? = some (some s)) :
    (k, i) ∈ ds ∧ s = erasureRegion (S.sets k).set i := by
  obtain ⟨x, hx, hkey, hidx, hbytes, _⟩ := ht.origin hs
  obtain ⟨d, hd, rfl⟩ := List.mem_map.mp hx
  rw [admission, BuiltSet.admit_key] at hkey
  rw [admission, BuiltSet.admit_idx] at hidx
  rw [admission, BuiltSet.admit_bytes] at hbytes
  have hk := S.key_injective hkey
  have hi : d.2 = i := Fin.ext hidx
  rw [← hbytes, ← hk, ← hi]
  exact ⟨hd, rfl⟩

include hwf

/-- What a set at the threshold holds can be reconstructed from. -/
theorem recoverable {k : Fin n} (hmany : 32 ≤ (a.stateOf (S.sets k).key).distinctSeen) :
    Recoverable 987 (a.stateOf (S.sets k).key).shards :=
  ht.recoverable hwf (S.length_of_mem) hmany

/-- **A set is reconstructed exactly when 32 distinct shreds were delivered.** -/
theorem reconstructed_iff (hrs : C.ReconstructsEqualLengths) (k : Fin n) :
    (a.stateOf (S.sets k).key).reconstructed = true ↔ 32 ≤ (delivered ds k).card := by
  rw [← S.positions_admit]
  exact ht.reconstructed_iff hwf (S.length_of_mem) hrs S.root_of_key

end State

/-! ## One more delivery -/

section Step

variable {S} {ds : List (Fin n × Fin 64)} {d : Fin n × Fin 64} {a : FecAssembler} {st : FecState}
  {ss : SlotState} {es : List FecEvent}
  (hrs : C.ReconstructsEqualLengths) (hwf : WellFormed a) (ht : Tracks C (ds.map S.admission) a)
  (hexit : Exit C a (S.admission d) st ss es)

include ht hwf hexit

/-- The delivery extends the history. -/
theorem step_tracks : WellFormed (a.put (S.sets d.1).key st ss) ∧
    Tracks C ((ds ++ [d]).map S.admission) (a.put (S.sets d.1).key st ss) := by
  rw [List.map_append, ← (S.sets d.1).admit_key d.2]
  exact ⟨hexit.wellFormed hwf, ht.step hwf hexit⟩

include hrs

/-- A delivery is never rejected. -/
theorem no_rejection : es.filter FecEvent.isRejected = [] := by
  obtain ⟨hstart, haccept⟩ := filter_acceptEvents (a := a) (x := S.admission d)
    (p := FecEvent.isRejected) (fun _ _ => rfl) (fun _ _ _ => rfl)
  obtain ⟨hwf', ht'⟩ := step_tracks hwf ht hexit
  have hrec := recoverable hwf' ht' (k := d.1)
  rw [FecAssembler.stateOf_put_self] at hrec
  cases hexit with
  | settled _ hc => exact hc.events fun _ _ _ _ _ => rfl
  | duplicate _ _ => exact hstart
  | accepted _ _ _ => exact haccept
  | recovered _ _ _ _ hc =>
      rw [List.filter_append, List.filter_append, haccept, hc.events fun _ _ _ _ _ => rfl]
      rfl
  | diverges _ hroot hne =>
      rw [admission, BuiltSet.admit_key, ht.root] at hroot
      rw [S.firstRoot_eq hroot, admission, BuiltSet.admit_root] at hne
      exact absurd rfl hne
  | outOfRange _ hidx =>
      rw [admission, BuiltSet.admit_idx] at hidx
      exact absurd d.2.2 (by omega)
  | failed _ _ hmany herr =>
      obtain ⟨out, hout⟩ := reconstruct_succeeds hrs (hrec hmany)
      rw [hout] at herr
      cases herr

/-- `Reconstructed` is emitted by the delivery of the 32nd distinct shred. -/
theorem filter_reconstructed : es.filter FecEvent.isReconstructed =
    if (delivered ds d.1).card = 31 ∧ d.2 ∉ delivered ds d.1 then
      [.reconstructed (S.sets d.1).key (S.sets d.1).set.merkleRoot 1]
    else [] := by
  obtain ⟨hwf', ht'⟩ := step_tracks hwf ht hexit
  have hbefore := reconstructed_iff hwf ht hrs d.1
  have hafter := reconstructed_iff hwf' ht' hrs d.1
  rw [FecAssembler.stateOf_put_self, delivered_snoc] at hafter
  rw [hexit.filter_reconstructed, admission, BuiltSet.admit_key, BuiltSet.admit_root]
  refine if_congr ?_ rfl rfl
  rw [← Bool.not_eq_true, hbefore, hafter]
  by_cases hmem : d.2 ∈ delivered ds d.1
  · rw [Finset.insert_eq_of_mem hmem]
    tauto
  · rw [Finset.card_insert_of_notMem hmem]
    constructor
    · exact fun h => ⟨by omega, hmem⟩
    · exact fun h => by omega

theorem reconstructed_mem_iff : (∃ key root das, .reconstructed key root das ∈ es) ↔
    (delivered ds d.1).card = 31 ∧ d.2 ∉ delivered ds d.1 := by
  have hfilter := filter_reconstructed hrs hwf ht hexit
  constructor
  · rintro ⟨key, root, das, hmem⟩
    have hin := List.mem_filter.mpr ⟨hmem, (rfl : FecEvent.isReconstructed _ = true)⟩
    rw [hfilter] at hin
    by_contra hnot
    rw [if_neg hnot] at hin
    cases hin
  · intro hcross
    rw [if_pos hcross] at hfilter
    exact ⟨_, _, _, List.mem_of_mem_filter (hfilter ▸ List.mem_singleton.mpr rfl)⟩

end Step

end SlotSets

/-! ## Half a set -/

/-- Half the shreds of a set, from position `32 * half` on. -/
def halfOf {n : ℕ} (k : Fin n) (half : Fin 2) : List (Fin n × Fin 64) :=
  (List.finRange 32).map fun i => (k, ⟨32 * half.1 + i.1, by omega⟩)

theorem mem_halfOf {n : ℕ} {k k' : Fin n} {half : Fin 2} {i : Fin 64} :
    (k', i) ∈ halfOf k half ↔ k' = k ∧ 32 * half.1 ≤ i.1 ∧ i.1 < 32 * half.1 + 32 := by
  rw [halfOf, List.mem_map]
  constructor
  · rintro ⟨j, _, hj⟩
    cases hj
    exact ⟨rfl, by simp, by simp⟩
  · rintro ⟨rfl, hlo, hhi⟩
    exact ⟨⟨i.1 - 32 * half.1, by omega⟩, List.mem_finRange _, by simp [Nat.add_sub_cancel' hlo]⟩

theorem card_delivered_halfOf {n : ℕ} (k : Fin n) (half : Fin 2) :
    (SlotSets.delivered (halfOf k half) k).card = 32 := by
  have heq : SlotSets.delivered (halfOf k half) k =
      Finset.univ.filter fun i : Fin 64 => 32 * half.1 ≤ i.1 ∧ i.1 < 32 * half.1 + 32 := by
    ext i
    simp [SlotSets.mem_delivered, mem_halfOf]
  rw [heq]
  fin_cases half <;> decide

end Lattica.Listener
