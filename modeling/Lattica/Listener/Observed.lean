import Lattica.Listener.Finalization
import Lattica.Listener.Readiness
import Lattica.Listener.Stored
import Mathlib.Data.Set.Card

/-!
# What the total of a slot counts

A set counts the shards it stores, and stores none once it is reconstructed. So
the total a slot reports is the number of shreds observed as long as no set was
brought a shred it does not hold after it was reconstructed and before the slot
closed: each such shred is observed and not counted.
-/

namespace Lattica.Listener

open Foundation Shred Reedsol

variable {C : Crates} {P : Profile} {a a₁ a₂ : FecAssembler} {es es₁ es₂ : List FecEvent}
  {calls pre post : List Call} {c d : Call} {key : FecKey} {root : Bytes 32}

/-- The positions of a set that shreds were admitted for under `root`. -/
def observedAt (H : List Admitted) (key : FecKey) (root : Bytes 32) : Finset (Fin 64) :=
  Finset.univ.filter fun i => ∃ x ∈ H, x.key = key ∧ x.root = root ∧ x.idx = i.1

theorem mem_observedAt {H : List Admitted} {i : Fin 64} :
    i ∈ observedAt H key root ↔ ∃ x ∈ H, x.key = key ∧ x.root = root ∧ x.idx = i.1 := by
  rw [observedAt, Finset.mem_filter]
  exact and_iff_right (Finset.mem_univ i)

/-- The call brings a reconstructed set a shred under its root for a position the
set does not hold. -/
def Late (C : Crates) (P : Profile) (a : FecAssembler) (c : Call) (key : FecKey) : Prop :=
  ∃ w, c.Accepts C P w ∧ (⟨w.slot, w.fecSetIndex⟩ : FecKey) = key ∧
    (a.stateOf key).reconstructed = true ∧ (a.stateOf key).merkleRoot = some w.merkleRoot ∧
    (a.stateOf key).shards[w.erasureShardIndex]? = some none

/-- No call of the run is late for the set. -/
def NeverLate (C : Crates) (P : Profile) (calls : List Call) (key : FecKey) : Prop :=
  ∀ pre c post a₀ es₀, calls = pre ++ c :: post → ingestAll C P .new pre = .ok (a₀, es₀) →
    ¬ Late C P a₀ c key

/-! ## What later calls leave alone -/

/-- What a set keeps while the run goes on. -/
structure Lasts (st st' : FecState) : Prop where
  shards : ∀ {i : ℕ} {s : List UInt8}, st.shards[i]? = some (some s) →
    st'.shards[i]? = some (some s)
  settled : st.reconstructed = true → st' = st
  root : ∀ {r : Bytes 32}, st.merkleRoot = some r → st'.merkleRoot = some r

theorem Lasts.refl (st : FecState) : Lasts st st := ⟨id, fun _ => rfl, id⟩

theorem Exit.lasts {x : Admitted} {st : FecState} {ss : SlotState} (hwf : WellFormed a)
    (hexit : Exit C a x st ss es) : Lasts (a.stateOf x.key) st where
  shards := hexit.keeps
  settled := hexit.settled_eq
  root {r} hr := by rw [hexit.root hwf, hr, Option.getD_some]

theorem Lasts.trans {st st' st'' : FecState} (h : Lasts st st') (h' : Lasts st' st'') :
    Lasts st st'' where
  shards hs := h'.shards (h.shards hs)
  settled hrec := by
    have heq := h.settled hrec
    rw [h'.settled (heq.symm ▸ hrec), heq]
  root hr := h'.root (h.root hr)

/-- By induction on the calls that follow. -/
theorem run_lasts (hpre : ingestAll C P .new pre = .ok (a₁, es₁)) (key : FecKey) :
    ∀ {post : List Call} {a : FecAssembler} {es : List FecEvent},
      ingestAll C P .new (pre ++ post) = .ok (a, es) → Lasts (a₁.stateOf key) (a.stateOf key) := by
  intro post
  induction post using List.reverseRecOn with
  | nil =>
      intro a es h
      rw [List.append_nil, hpre] at h
      cases h
      exact Lasts.refl _
  | append_singleton post c ih =>
      intro a es h
      rw [← List.append_assoc] at h
      obtain ⟨b, fs, fs', hb, hc, _⟩ := ingestAll_snoc_eq_ok.mp h
      have hwf := run_wellFormed hb
      rcases ingest_cases hwf hc with ⟨_, _, rfl, _⟩ | ⟨x, st, ss, _, rfl, hexit⟩
      · exact ih hb
      · refine (ih hb).trans ?_
        by_cases hkey : key = x.key
        · subst hkey
          rw [FecAssembler.stateOf_put_self]
          exact hexit.lasts hwf
        · rw [FecAssembler.stateOf_put_ne b hkey]
          exact Lasts.refl _

/-- The run up to a call, the call, and the run after it. -/
theorem run_split (h : ingestAll C P .new (pre ++ c :: post) = .ok (a, es)) :
    ∃ a₁ es₁ a₂ es₂, ingestAll C P .new pre = .ok (a₁, es₁) ∧
      ingest C P c.leaders a₁ c.raw = .ok (a₂, es₂) ∧
      ∀ key, Lasts (a₁.stateOf key) (a.stateOf key) ∧ Lasts (a₂.stateOf key) (a.stateOf key) := by
  have hsplit : pre ++ c :: post = (pre ++ [c]) ++ post := by simp
  rw [hsplit] at h
  have hrun := h
  rw [ingestAll_append] at h
  obtain ⟨⟨b, fs⟩, hb, _⟩ := Exec.bind_eq_ok.mp h
  obtain ⟨a₁, es₁, es₂, hpre, hc, _⟩ := ingestAll_snoc_eq_ok.mp hb
  refine ⟨a₁, es₁, b, es₂, hpre, hc, fun key => ⟨?_, run_lasts hb key hrun⟩⟩
  rw [List.append_assoc] at hrun
  exact run_lasts hpre key hrun

/-! ## One set -/

theorem present_subset_observed (h : ingestAll C P .new calls = .ok (a, es))
    (hroot : (a.stateOf key).merkleRoot = some root) :
    presentAt (a.stateOf key).shards ⊆ observedAt (admitted C P calls) key root := by
  obtain ⟨_, ht⟩ := run_tracks h
  intro i hi
  obtain ⟨s, hs⟩ := mem_presentAt.mp hi
  obtain ⟨x, hx, hkey, hidx, _, hfirst⟩ := ht.origin hs
  rw [← ht.root, hroot] at hfirst
  exact mem_observedAt.mpr ⟨x, hx, hkey, (Option.some.inj hfirst).symm, hidx⟩

/-- A shred under the root of its set is held at the end, unless it came late. -/
theorem held_of_not_late (h : ingestAll C P .new (pre ++ c :: post) = .ok (a, es))
    {x : Admitted} (hgate : gate C P c.leaders c.raw = .ok (.ok x)) (hidx : x.idx < 64)
    (hroot : (a.stateOf x.key).merkleRoot = some x.root)
    (hlate : ∀ a₀ es₀, ingestAll C P .new pre = .ok (a₀, es₀) → ¬ Late C P a₀ c x.key) :
    ∃ s, (a.stateOf x.key).shards[x.idx]? = some (some s) := by
  obtain ⟨a₁, es₁, a₂, es₂, hpre, hc, hlasts⟩ := run_split h
  have hwf := run_wellFormed hpre
  obtain ⟨hbefore, hafter⟩ := hlasts x.key
  rcases ingest_cases hwf hc with ⟨_, hno, _, _⟩ | ⟨y, st, ss, hyes, rfl, hexit⟩
  · rw [hgate] at hno
    cases hno
  · rw [hgate] at hyes
    cases hyes
    rw [FecAssembler.stateOf_put_self] at hafter
    rcases hexit.shards with ⟨_, hrec | ⟨r, hr, hne⟩ | hout | ⟨s, hdup⟩⟩ | ⟨_, hfree, _, hset⟩
    · -- settled: the position is held already, or the call is late
      obtain ⟨r, hr⟩ := hwf.root (stateOf_eq_of_reconstructed hrec)
      have hsame := hbefore.root hr
      rw [hroot] at hsame
      cases hsame
      have hpos : x.idx < (a₁.stateOf x.key).shards.length := by
        rw [hwf.stateOf_length]
        exact hidx
      cases hheld : (a₁.stateOf x.key).shards[x.idx] with
      | none =>
          refine absurd ⟨x.shred, accepts_of_gate hgate, rfl, hrec, hr, ?_⟩ (hlate a₁ es₁ hpre)
          exact List.getElem?_eq_some_iff.mpr ⟨hpos, hheld⟩
      | some s => exact ⟨s, hbefore.shards (List.getElem?_eq_some_iff.mpr ⟨hpos, hheld⟩)⟩
    · have hsame := hbefore.root hr
      rw [hroot] at hsame
      cases hsame
      exact absurd rfl hne
    · exact absurd hidx (Nat.not_lt_of_le hout)
    · exact ⟨s, hbefore.shards hdup⟩
    · refine ⟨x.bytes, hafter.shards ?_⟩
      rw [hset]
      exact List.getElem?_set_self (List.getElem?_eq_some_iff.mp hfree).1

/-- **A set holds what was observed of it exactly if no call was late.** -/
theorem held_iff_neverLate (h : ingestAll C P .new calls = .ok (a, es))
    (hroot : (a.stateOf key).merkleRoot = some root) :
    presentAt (a.stateOf key).shards = observedAt (admitted C P calls) key root ↔
      NeverLate C P calls key := by
  constructor
  · rintro heq pre c post a₀ es₀ rfl hpre ⟨w, hw, rfl, hrec, hr, hnone⟩
    obtain ⟨a₁, es₁, _, _, hpre', _, hlasts⟩ := run_split h
    rw [hpre] at hpre'
    cases hpre'
    have hsame := (hlasts ⟨w.slot, w.fecSetIndex⟩).1.settled hrec
    rw [hsame, hr] at hroot
    cases hroot
    obtain ⟨x, hgate, hx⟩ := gate_of_accepts hw
    have hidx : w.erasureShardIndex < 64 := by
      have hlt := (List.getElem?_eq_some_iff.mp hnone).1
      rwa [(run_wellFormed hpre).stateOf_length] at hlt
    -- the shred is observed, so it would be held
    have hmem : (⟨w.erasureShardIndex, hidx⟩ : Fin 64) ∈
        observedAt (admitted C P (pre ++ c :: post)) ⟨w.slot, w.fecSetIndex⟩ w.merkleRoot := by
      refine mem_observedAt.mpr ⟨x, ?_, ?_, ?_, ?_⟩
      · exact List.mem_filterMap.mpr
          ⟨c, List.mem_append_right pre List.mem_cons_self, admit_of_gate hgate⟩
      · rw [Admitted.key, hx]
      · rw [Admitted.root, hx]
      · rw [Admitted.idx, hx]
    rw [← heq, hsame, mem_presentAt] at hmem
    obtain ⟨s, hs⟩ := hmem
    rw [hnone] at hs
    cases hs
  · intro hnever
    refine (present_subset_observed h hroot).antisymm fun i hi => ?_
    obtain ⟨x, hx, rfl, rfl, hidx⟩ := mem_observedAt.mp hi
    obtain ⟨c, hc, hgate⟩ := mem_admitted hx
    obtain ⟨pre, post, rfl⟩ := List.append_of_mem hc
    obtain ⟨s, hs⟩ := held_of_not_late h hgate (by rw [hidx]; exact i.2) hroot
      fun a₀ es₀ hpre => hnever pre c post a₀ es₀ rfl hpre
    exact mem_presentAt.mpr ⟨s, hidx ▸ hs⟩

/-! ## Counting pairs -/

section Counting

variable {α β : Type*} [DecidableEq α] {is : List α}

theorem ncard_pairs {n : ℕ} (hnodup : is.Nodup) (f : α → Finset (Fin n)) :
    Set.ncard {q : α × ℕ | q.1 ∈ is ∧ ∃ j ∈ f q.1, j.1 = q.2} =
      (is.map fun i => (f i).card).sum := by
  let pair : (Σ _ : α, Fin n) → α × ℕ := fun q => (q.1, q.2.1)
  have hpair : Function.Injective pair := by
    rintro ⟨i, j⟩ ⟨i', j'⟩ h
    obtain ⟨hi, hj⟩ := Prod.mk.inj h
    obtain rfl : i = i' := hi
    obtain rfl : j = j' := Fin.ext hj
    rfl
  have hset : {q : α × ℕ | q.1 ∈ is ∧ ∃ j ∈ f q.1, j.1 = q.2} =
      ((is.toFinset.sigma f).image pair : Finset (α × ℕ)) := by
    ext ⟨i, k⟩
    simp only [Finset.coe_image, Set.mem_image, Finset.mem_coe, Finset.mem_sigma,
      List.mem_toFinset]
    constructor
    · rintro ⟨hi, j, hj, rfl⟩
      exact ⟨⟨i, j⟩, ⟨hi, hj⟩, rfl⟩
    · rintro ⟨⟨i', j⟩, ⟨hi, hj⟩, heq⟩
      obtain ⟨rfl, rfl⟩ := Prod.mk.inj heq
      exact ⟨hi, j, hj, rfl⟩
  rw [hset, Set.ncard_coe_finset, Finset.card_image_of_injective _ hpair, Finset.card_sigma,
    List.sum_toFinset _ hnodup]

/-- Sums of sizes of nested sets are equal only set by set. -/
theorem sum_card_eq_iff (hnodup : is.Nodup) {f g : α → Finset β} (hsub : ∀ i ∈ is, f i ⊆ g i) :
    (is.map fun i => (f i).card).sum = (is.map fun i => (g i).card).sum ↔
      ∀ i ∈ is, f i = g i := by
  rw [← List.sum_toFinset _ hnodup, ← List.sum_toFinset _ hnodup,
    Finset.sum_eq_sum_iff_of_le fun i hi => Finset.card_le_card (hsub i (List.mem_toFinset.mp hi))]
  constructor
  · intro h i hi
    exact Finset.eq_of_subset_of_card_le (hsub i hi) (h i (List.mem_toFinset.mpr hi)).ge
  · intro h i hi
    rw [h i (List.mem_toFinset.mp hi)]

end Counting

/-! ## A slot -/

/-- The pairs of set and position observed in the calls: accepted shreds of the
slot under the listed root of their set, at positions below 64. -/
def observedPairs (C : Crates) (P : Profile) (calls : List Call) (slot : UInt64)
    (is : List UInt32) (roots : List (Bytes 32)) : Set (UInt32 × ℕ) :=
  {q | q.2 < 64 ∧ ∃ c ∈ calls, ∃ w, c.Accepts C P w ∧ w.slot = slot ∧ w.fecSetIndex = q.1 ∧
    w.erasureShardIndex = q.2 ∧ (q.1, w.merkleRoot) ∈ is.zip roots}

theorem observedPairs_eq (calls : List Call) (slot : UInt64) (is : List UInt32)
    (f : UInt32 → Bytes 32) : observedPairs C P calls slot is (is.map f) =
      {q | q.1 ∈ is ∧ ∃ j ∈ observedAt (admitted C P calls) ⟨slot, q.1⟩ (f q.1), j.1 = q.2} := by
  ext ⟨i, k⟩
  have hzip : ∀ r, (i, r) ∈ is.zip (is.map f) ↔ i ∈ is ∧ f i = r := by
    intro r
    rw [← List.map_prod_left_eq_zip, List.mem_map]
    constructor
    · rintro ⟨j, hj, heq⟩
      obtain ⟨rfl, rfl⟩ := Prod.mk.inj heq
      exact ⟨hj, rfl⟩
    · rintro ⟨hi, rfl⟩
      exact ⟨i, hi, rfl⟩
  constructor
  · rintro ⟨hk, c, hc, w, hw, hslot, hfec, hidx, hmem⟩
    obtain ⟨x, hgate, rfl⟩ := gate_of_accepts hw
    obtain ⟨hi, hroot⟩ := (hzip _).mp hmem
    refine ⟨hi, ⟨k, hk⟩, mem_observedAt.mpr ⟨x, ?_, ?_, hroot.symm, hidx⟩, rfl⟩
    · exact List.mem_filterMap.mpr ⟨c, hc, admit_of_gate hgate⟩
    · rw [Admitted.key, hslot, hfec]
  · rintro ⟨hi, j, hj, rfl⟩
    obtain ⟨x, hx, hkey, hroot, hidx⟩ := mem_observedAt.mp hj
    obtain ⟨c, hc, hgate⟩ := mem_admitted hx
    exact ⟨j.2, c, hc, x.shred, accepts_of_gate hgate, congrArg FecKey.slot hkey,
      congrArg FecKey.fecSetIndex hkey, hidx, (hzip _).mpr ⟨hi, hroot.symm⟩⟩

section Event

variable {slot : UInt64} (hpre : ingestAll C P .new pre = .ok (a₁, es₁))
  (hc : ingest C P c.leaders a₁ c.raw = .ok (a₂, es₂))

include hpre hc

/-- The counters of some sets add up to the shreds observed exactly if no call was
late for one of them. -/
theorem sum_distinct_iff {is : List UInt32} (hsorted : is.Pairwise (· < ·))
    (hroot : ∀ i ∈ is, (a₂.stateOf ⟨slot, i⟩).merkleRoot = some (rootOf a₂ slot i)) :
    (is.map fun i => (a₂.stateOf ⟨slot, i⟩).distinctSeen).sum =
        (observedPairs C P (pre ++ [c]) slot is (is.map (rootOf a₂ slot))).ncard ↔
      ∀ i ∈ is, NeverLate C P (pre ++ [c]) ⟨slot, i⟩ := by
  have hrun := ingestAll_snoc_eq_ok.mpr ⟨a₁, es₁, es₂, hpre, hc, rfl⟩
  have hnodup : is.Nodup := by
    refine hsorted.imp ?_
    rintro i j h rfl
    exact UInt32.lt_irrefl i h
  have hcard : (is.map fun i => (a₂.stateOf ⟨slot, i⟩).distinctSeen) =
      is.map fun i => (presentAt (a₂.stateOf ⟨slot, i⟩).shards).card :=
    List.map_congr_left fun i _ => (run_wellFormed hrun).distinct_eq_card _
  rw [observedPairs_eq, ncard_pairs hnodup fun i =>
      observedAt (admitted C P (pre ++ [c])) ⟨slot, i⟩ (rootOf a₂ slot i), hcard,
    sum_card_eq_iff hnodup fun i hi => present_subset_observed hrun (hroot i hi)]
  exact forall₂_congr fun i hi => held_iff_neverLate hrun (hroot i hi)

end Event

/-- **The total is the number of shreds observed exactly if no call was late for
a listed set.** -/
theorem total_counts_observed (C : Crates) (P : Profile) (pre : List Call) (c : Call)
    (a₁ a₂ : FecAssembler) (es₁ es₂ : List FecEvent)
    (hpre : ingestAll C P .new pre = .ok (a₁, es₁))
    (hc : ingest C P c.leaders a₁ c.raw = .ok (a₂, es₂)) (slot : UInt64)
    (roots : List (Bytes 32)) (slotRoot : Bytes 32) (n : ℕ) (conf : ℚ)
    (hmem : .slotFinalized slot roots slotRoot n conf ∈ es₂) :
    ∃ (l : UInt32) (is : List UInt32), LastMarked C P (pre ++ [c]) slot l ∧
      is.Pairwise (· < ·) ∧
      (∀ i, i ∈ is ↔ i ≤ l ∧ Ingested C P (pre ++ [c]) slot i) ∧
      List.Forall₂ (fun i root => .started ⟨slot, i⟩ root ∈ es₁ ++ es₂) is roots ∧
      (n = (observedPairs C P (pre ++ [c]) slot is roots).ncard ↔
        ∀ i ∈ is, NeverLate C P (pre ++ [c]) ⟨slot, i⟩) := by
  obtain ⟨l, is, hl, _, hsorted, hlisted, hroot, rfl, _, rfl⟩ := reported_sets hpre hc hmem
  exact ⟨l, is, hl, hsorted, hlisted, started_listed hpre hc hroot,
    sum_distinct_iff hpre hc hsorted hroot⟩

/-! ### A slot of one set -/

section Sample

variable {S : SlotSets (referenceCrates sha256) ⟨true⟩ 1} (hS : InOrder S)

include hS

/-- After the coding shreds, the first data shred closes it. -/
theorem finalized_by_late : ∃ (a₁ : FecAssembler) (es₁ : List FecEvent) (a₂ : FecAssembler)
    (es₂ : List FecEvent) (roots : List (Bytes 32)) (slotRoot : Bytes 32) (n : ℕ) (conf : ℚ),
    S.run (halfOf 0 1) = .ok (a₁, es₁) ∧
    ingest (referenceCrates sha256) ⟨true⟩ (S.call (0, 0)).leaders a₁ (S.call (0, 0)).raw =
      .ok (a₂, es₂) ∧
    .slotFinalized S.slot roots slotRoot n conf ∈ es₂ := by
  obtain ⟨a, es, hrun⟩ := S.run_ok referenceCrates_acceptsHonestSignatures
    (halfOf 0 1 ++ [((0 : Fin 1), (0 : Fin 64))])
  have hcalls := hrun
  rw [SlotSets.run, List.map_append, List.map_singleton] at hcalls
  obtain ⟨a₁, es₁, es₂, hpre, hc, rfl⟩ := ingestAll_snoc_eq_ok.mp hcalls
  have hsilent : es₁.filter FecEvent.isSlotFinalized = [] := by
    rcases S.run_reports hS referenceCrates_acceptsHonestSignatures
      referenceCrates_decodesMds.reconstructsEqualLengths hpre with ⟨_, _, hfilter⟩ |
      ⟨_, p, hp, ⟨⟨k, i, hd, _, hi⟩, _⟩, _⟩
    · exact hfilter
    · have hlow := (mem_halfOf.mp (hp.subset hd)).2.1
      exact absurd hi (Nat.not_lt_of_le hlow)
  rcases S.run_reports hS referenceCrates_acceptsHonestSignatures
    referenceCrates_decodesMds.reconstructsEqualLengths hrun with ⟨_, hnone, _⟩ |
    ⟨_, p, _, _, total, conf, hone⟩
  · refine absurd ⟨⟨0, 0, by simp, rfl, by decide⟩, ?_⟩ (hnone _ List.prefix_rfl)
    intro k _
    rw [Subsingleton.elim k 0]
    refine (card_delivered_halfOf (0 : Fin 1) 1).ge.trans (Finset.card_le_card ?_)
    intro i hi
    rw [SlotSets.mem_delivered] at hi ⊢
    exact List.mem_append_left _ hi
  · rw [List.filter_append, hsilent, List.nil_append] at hone
    have hmem := List.mem_of_mem_filter (hone ▸ List.mem_singleton.mpr rfl)
    exact ⟨a₁, es₁, a, es₂, _, _, _, _, hpre, hc, hmem⟩

omit hS in
/-- After the coding shreds, every data shred is late. -/
theorem late_data {a : FecAssembler} {es : List FecEvent} (h : S.run (halfOf 0 1) = .ok (a, es)) :
    Late (referenceCrates sha256) ⟨true⟩ a (S.call (0, 0)) (S.sets 0).key := by
  obtain ⟨hwf, ht⟩ := S.run_tracks referenceCrates_acceptsHonestSignatures h
  have hgate := S.gate_call referenceCrates_acceptsHonestSignatures (0, 0)
  have hmem : ((0 : Fin 1), (32 : Fin 64)) ∈ halfOf (0 : Fin 1) 1 :=
    mem_halfOf.mpr ⟨rfl, by decide, by decide⟩
  refine ⟨(S.admission (0, 0)).shred, accepts_of_gate hgate, (S.sets 0).admit_key 0, ?_, ?_, ?_⟩
  · rw [SlotSets.reconstructed_iff hwf ht referenceCrates_decodesMds.reconstructsEqualLengths]
    exact (card_delivered_halfOf (0 : Fin 1) 1).ge
  · rw [ht.root, S.firstRoot_delivered hmem]
    exact congrArg some ((S.sets 0).admit_root 0).symm
  · have hidx : (S.admission (0, 0)).shred.erasureShardIndex = 0 := (S.sets 0).admit_idx 0
    have hpos : 0 < (a.stateOf (S.sets 0).key).shards.length := by
      rw [hwf.stateOf_length]
      decide
    rw [hidx]
    cases hheld : (a.stateOf (S.sets 0).key).shards[0] with
    | none => exact List.getElem?_eq_some_iff.mpr ⟨hpos, hheld⟩
    | some s =>
        have hs := List.getElem?_eq_some_iff.mpr ⟨hpos, hheld⟩
        obtain ⟨hd, _⟩ := SlotSets.stored_delivered ht (k := 0) (i := 0) hs
        exact absurd (mem_halfOf.mp hd).2.1 (by decide)

end Sample

/-- A slot closed by its data shreds. -/
theorem total_counts_observed_one : ∃ (pre : List Call) (c : Call) (a₁ a₂ : FecAssembler)
    (es₁ es₂ : List FecEvent) (slot : UInt64) (roots : List (Bytes 32)) (slotRoot : Bytes 32)
    (n : ℕ) (conf : ℚ) (is : List UInt32),
    ingestAll (referenceCrates sha256) ⟨true⟩ .new pre = .ok (a₁, es₁) ∧
    ingest (referenceCrates sha256) ⟨true⟩ c.leaders a₁ c.raw = .ok (a₂, es₂) ∧
    .slotFinalized slot roots slotRoot n conf ∈ es₂ ∧
    (n = (observedPairs (referenceCrates sha256) ⟨true⟩ (pre ++ [c]) slot is roots).ncard ↔
      ∀ i ∈ is, NeverLate (referenceCrates sha256) ⟨true⟩ (pre ++ [c]) ⟨slot, i⟩) := by
  obtain ⟨S, hS⟩ := exists_inOrder 1 (by decide)
  obtain ⟨pre, c, a₁, es₁, a₂, es₂, roots, slotRoot, n, conf, hpre, hc, hmem⟩ :=
    finalized_by_data hS
  obtain ⟨_, is, _, _, _, _, hiff⟩ := total_counts_observed _ ⟨true⟩ pre c a₁ a₂ es₁ es₂ hpre hc S.slot
    roots slotRoot n conf hmem
  exact ⟨pre, c, a₁, a₂, es₁, es₂, S.slot, roots, slotRoot, n, conf, is, hpre, hc, hmem, hiff⟩

/-- The 32 coding shreds of a set, then its first data shred: the slot is closed by
a shred its total leaves out. -/
theorem late_shred_not_counted : ∃ (pre : List Call) (c : Call) (a₁ a₂ : FecAssembler)
    (es₁ es₂ : List FecEvent) (slot : UInt64) (roots : List (Bytes 32)) (slotRoot : Bytes 32)
    (n : ℕ) (conf : ℚ) (is : List UInt32),
    ingestAll (referenceCrates sha256) ⟨true⟩ .new pre = .ok (a₁, es₁) ∧
    ingest (referenceCrates sha256) ⟨true⟩ c.leaders a₁ c.raw = .ok (a₂, es₂) ∧
    .slotFinalized slot roots slotRoot n conf ∈ es₂ ∧ is.Pairwise (· < ·) ∧
    (∃ l, LastMarked (referenceCrates sha256) ⟨true⟩ (pre ++ [c]) slot l ∧ ∀ i, i ∈ is ↔
      i ≤ l ∧ Ingested (referenceCrates sha256) ⟨true⟩ (pre ++ [c]) slot i) ∧
    List.Forall₂ (fun i root => .started ⟨slot, i⟩ root ∈ es₁ ++ es₂) is roots ∧
    n ≠ (observedPairs (referenceCrates sha256) ⟨true⟩ (pre ++ [c]) slot is roots).ncard := by
  obtain ⟨S, hS⟩ := exists_inOrder 1 (by decide)
  obtain ⟨a₁, es₁, a₂, es₂, roots, slotRoot, n, conf, hpre, hc, hmem⟩ := finalized_by_late hS
  obtain ⟨l, is, hlast, hl, hsorted, hlisted, hroot, rfl, _, rfl⟩ := reported_sets hpre hc hmem
  refine ⟨_, S.call (0, 0), a₁, a₂, es₁, es₂, S.slot, _, slotRoot, _, conf, is, hpre, hc, hmem,
    hsorted, ⟨l, hlast, hlisted⟩, started_listed hpre hc hroot, fun heq => ?_⟩
  have hnever := (sum_distinct_iff hpre hc hsorted hroot).mp heq l hl
  -- the marked set is the only one there is
  obtain ⟨x, hx, _, hkey⟩ := marked_iff.mp hlast.1
  have hset : (⟨S.slot, l⟩ : FecKey) = (S.sets 0).key := by
    have hcalls : (halfOf (0 : Fin 1) 1).map S.call ++ [S.call (0, 0)] =
        (halfOf 0 1 ++ [((0 : Fin 1), (0 : Fin 64))]).map S.call := by
      rw [List.map_append, List.map_singleton]
    rw [hcalls, S.admitted_calls referenceCrates_acceptsHonestSignatures] at hx
    obtain ⟨d, _, rfl⟩ := List.mem_map.mp hx
    rw [← hkey, SlotSets.admission, BuiltSet.admit_key, Subsingleton.elim d.1 0]
  rw [hset] at hnever
  exact hnever _ _ [] a₁ es₁ rfl hpre (late_data hpre)

end Lattica.Listener
