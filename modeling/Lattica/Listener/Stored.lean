import Lattica.Listener.Protocol
import Lattica.Listener.Rejections
import Lattica.Shred.Footprint

/-!
# Where stored shards come from

A shard is stored by the one call that announces it with `ShredAccepted`, and
stays as it is. So every stored shard can be compared with the shred it was cut
from. Two comparisons are made: with the region the leader erasure-codes, which
the parser places by the variant while the assembler cuts at a constant, and
with the position's side of the set, data or coding, which the assembler does
not look at.
-/

namespace Lattica.Listener

open Foundation Shred Reedsol

variable {C : Crates} {P : Profile} {a a' : FecAssembler} {x : Admitted} {st : FecState}
  {ss : SlotState} {es es' : List FecEvent} {calls : List Call} {c d : Call} {key : FecKey}
  {i : ℕ} {s : List UInt8}

/-- The call `c` of the run announced the shard at position `i` of the set. -/
def StoredBy (C : Crates) (P : Profile) (calls : List Call) (key : FecKey) (i : ℕ) (c : Call) :
    Prop :=
  ∃ pre post a₁ es₁ a₂ es₂ n, calls = pre ++ c :: post ∧
    ingestAll C P .new pre = .ok (a₁, es₁) ∧ ingest C P c.leaders a₁ c.raw = .ok (a₂, es₂) ∧
    .shredAccepted key n i ∈ es₂

/-! ## What one call stores -/

/-- Stored shards are left alone. -/
theorem Exit.keeps (hexit : Exit C a x st ss es)
    (h : (a.stateOf x.key).shards[i]? = some (some s)) : st.shards[i]? = some (some s) := by
  rcases hexit.shards with ⟨hsame, _⟩ | ⟨_, hfree, _, hset⟩
  · rw [hsame]
    exact h
  · have hne : x.idx ≠ i := by
      rintro rfl
      rw [Free, h] at hfree
      cases hfree
    rw [hset, List.getElem?_set_ne hne]
    exact h

/-- In the set of the call as in every other. -/
theorem Exit.keeps_stored (hexit : Exit C a x st ss es)
    (h : (a.stateOf key).shards[i]? = some (some s)) :
    ((a.put x.key st ss).stateOf key).shards[i]? = some (some s) := by
  by_cases hkey : key = x.key
  · subst hkey
    rw [FecAssembler.stateOf_put_self]
    exact hexit.keeps h
  · rw [FecAssembler.stateOf_put_ne a hkey]
    exact h

/-- The call that announces a shard has stored the admitted region. -/
theorem Exit.stores_announced (hwf : WellFormed a) (hexit : Exit C a x st ss es) {n : ℕ}
    (h : .shredAccepted key n i ∈ es) :
    key = x.key ∧ i = x.idx ∧ st.shards[x.idx]? = some (some x.bytes) := by
  obtain ⟨rfl, _, rfl, hgrow⟩ := hexit.reports_accepted.mp h
  refine ⟨rfl, rfl, ?_⟩
  rcases hexit.shards with ⟨hsame, _⟩ | ⟨_, hfree, _, hset⟩
  · -- an unchanged list has as many shards as before
    have hwf' := hexit.wellFormed hwf
    have hcount := hwf'.stateOf_distinct x.key
    rw [FecAssembler.stateOf_put_self, hsame, ← hwf.stateOf_distinct] at hcount
    exact absurd (hcount.symm.trans hgrow) (Nat.lt_succ_self _).ne
  · rw [hset, List.getElem?_set_self (List.getElem?_eq_some_iff.mp hfree).1]

/-- A shard that is there after the call was there before, or is announced. -/
theorem Exit.announces_stored (hwf : WellFormed a) (hexit : Exit C a x st ss es)
    (h : st.shards[i]? = some (some s)) :
    (a.stateOf x.key).shards[i]? = some (some s) ∨
      ∃ n, .shredAccepted x.key n i ∈ es := by
  rcases hexit.shards with ⟨hsame, _⟩ | ⟨_, hfree, _, hset⟩
  · rw [hsame] at h
    exact Or.inl h
  · by_cases hi : x.idx = i
    · have hwf' := hexit.wellFormed hwf
      have hcount := hwf'.stateOf_distinct x.key
      rw [FecAssembler.stateOf_put_self, hset, present_set hfree, ← hwf.stateOf_distinct] at hcount
      exact Or.inr ⟨_, hexit.reports_accepted.mpr ⟨rfl, rfl, hi.symm, hcount⟩⟩
    · rw [hset, List.getElem?_set_ne hi] at h
      exact Or.inl h

/-! ## Whole runs -/

theorem storedBy_snoc (h : StoredBy C P (calls ++ [d]) key i c) :
    StoredBy C P calls key i c ∨ (c = d ∧ ∃ a₁ es₁ a₂ es₂ n,
      ingestAll C P .new calls = .ok (a₁, es₁) ∧ ingest C P c.leaders a₁ c.raw = .ok (a₂, es₂) ∧
      .shredAccepted key n i ∈ es₂) := by
  obtain ⟨pre, post, a₁, es₁, a₂, es₂, n, hsplit, hpre, hc, hmem⟩ := h
  rcases List.eq_nil_or_concat post with rfl | ⟨post', e, rfl⟩
  · obtain ⟨rfl, heq⟩ := List.append_inj' hsplit rfl
    cases heq
    exact Or.inr ⟨rfl, a₁, es₁, a₂, es₂, n, hpre, hc, hmem⟩
  · have hsplit' : calls ++ [d] = (pre ++ c :: post') ++ [e] := by
      rw [hsplit, List.concat_eq_append, List.append_assoc, List.cons_append]
    obtain ⟨rfl, _⟩ := List.append_inj' hsplit' rfl
    exact Or.inl ⟨pre, post', a₁, es₁, a₂, es₂, n, rfl, hpre, hc, hmem⟩

theorem StoredBy.snoc (h : StoredBy C P calls key i c) : StoredBy C P (calls ++ [d]) key i c := by
  obtain ⟨pre, post, a₁, es₁, a₂, es₂, n, rfl, hrest⟩ := h
  exact ⟨pre, post ++ [d], a₁, es₁, a₂, es₂, n, by simp, hrest⟩

theorem StoredBy.mem (h : StoredBy C P calls key i c) : c ∈ calls := by
  obtain ⟨pre, post, _, _, _, _, _, rfl, _⟩ := h
  exact List.mem_append_right pre List.mem_cons_self

/-- **Every stored shard was announced, and what was announced is stored.** By
induction on the run: one call keeps what is there and announces what it adds. -/
theorem run_stored : ∀ {calls : List Call} {a : FecAssembler} {es : List FecEvent},
    ingestAll C P .new calls = .ok (a, es) →
    (∀ key i s, (a.stateOf key).shards[i]? = some (some s) → ∃ c, StoredBy C P calls key i c) ∧
    ∀ key i c, StoredBy C P calls key i c → ∃ x, gate C P c.leaders c.raw = .ok (.ok x) ∧
      x.key = key ∧ x.idx = i ∧ (a.stateOf key).shards[i]? = some (some x.bytes) := by
  intro calls
  induction calls using List.reverseRecOn with
  | nil =>
      intro a es h
      cases h
      refine ⟨?_, ?_⟩
      · intro key i s hs
        obtain ⟨y, hy, _⟩ := (tracks_new (C := C)).origin hs
        cases hy
      · intro key i c hc
        exact absurd hc.mem List.not_mem_nil
  | append_singleton calls d ih =>
      intro a es h
      obtain ⟨a₁, es₁, es₂, hcs, hd, rfl⟩ := ingestAll_snoc_eq_ok.mp h
      obtain ⟨hall, hby⟩ := ih hcs
      have hwf := run_wellFormed hcs
      rcases ingest_cases hwf hd with ⟨reason, _, rfl, rfl⟩ | ⟨x, st, ss, hgate, rfl, hexit⟩
      · -- rejected at the gate: nothing is announced
        refine ⟨fun key i s hs => ?_, fun key i c hc => ?_⟩
        · obtain ⟨c, hc⟩ := hall key i s hs
          exact ⟨c, hc.snoc⟩
        · rcases storedBy_snoc hc with hc | ⟨rfl, b₁, fs₁, b₂, fs₂, n, hrun, hstep, hmem⟩
          · exact hby key i c hc
          · rw [hcs] at hrun
            cases hrun
            rw [hd] at hstep
            cases hstep
            simp at hmem
      · refine ⟨fun key i s hs => ?_, fun key i c hc => ?_⟩
        · by_cases hkey : key = x.key
          · subst hkey
            rw [FecAssembler.stateOf_put_self] at hs
            rcases hexit.announces_stored hwf hs with hold | ⟨n, hmem⟩
            · obtain ⟨c, hc⟩ := hall _ i s hold
              exact ⟨c, hc.snoc⟩
            · exact ⟨d, calls, [], a₁, es₁, _, es₂, n, rfl, hcs, hd, hmem⟩
          · rw [FecAssembler.stateOf_put_ne a₁ hkey] at hs
            obtain ⟨c, hc⟩ := hall key i s hs
            exact ⟨c, hc.snoc⟩
        · rcases storedBy_snoc hc with hc | ⟨rfl, b₁, fs₁, b₂, fs₂, n, hrun, hstep, hmem⟩
          · obtain ⟨y, hy, hykey, hyidx, hs⟩ := hby key i c hc
            exact ⟨y, hy, hykey, hyidx, hexit.keeps_stored hs⟩
          · rw [hcs] at hrun
            cases hrun
            rw [hd] at hstep
            cases hstep
            obtain ⟨rfl, rfl, hs⟩ := hexit.stores_announced hwf hmem
            refine ⟨x, hgate, rfl, rfl, ?_⟩
            rw [FecAssembler.stateOf_put_self]
            exact hs

/-- A stored shard, beside the parsed shred of the call that announced it. -/
theorem stored_region (h : ingestAll C P .new calls = .ok (a, es))
    (hs : (a.stateOf key).shards[i]? = some (some s)) (hc : StoredBy C P calls key i c)
    {p : ParsedShred} (hp : parseShred P c.raw = .ok p) :
    ∃ v pk, Verified C P c.raw pk v i ∧ p = parsed c.raw v i ∧
      s = cut c.raw (regionOffset v.kind) (regionOffset v.kind + 987) := by
  obtain ⟨x, hgate, _, hidx, hx⟩ := (run_stored h).2 key i c hc
  obtain ⟨v, j, pk, _, hv, rfl⟩ := gate_eq_admitted hgate
  have hj : j = i := hidx
  subst hj
  refine ⟨v, pk, hv, ?_, ?_⟩
  · rw [parseShred_eq hv.decodes hv.full, hv.index] at hp
    cases hp
    rfl
  · rw [hs] at hx
    exact Option.some.inj (Option.some.inj hx)

/-- The accepted shred of a call that announced a shard. -/
theorem StoredBy.accepts (h : ingestAll C P .new calls = .ok (a, es))
    (hc : StoredBy C P calls key i c) :
    ∃ w p, c.Accepts C P w ∧ key = ⟨w.slot, w.fecSetIndex⟩ ∧ i = w.erasureShardIndex ∧
      parseShred P c.raw = .ok p := by
  obtain ⟨x, hgate, rfl, rfl, _⟩ := (run_stored h).2 key i c hc
  obtain ⟨v, j, pk, _, hv, rfl⟩ := gate_eq_admitted hgate
  refine ⟨_, parsed c.raw v j, accepts_of_gate hgate, rfl, rfl, ?_⟩
  rw [parseShred_eq hv.decodes hv.full, hv.index]
  rfl

/-! ## The erasure region

The leader codes the bytes up to the chained root, whose place depends on the
variant. The constant of the assembler is right for one proof size, without a
retransmitter signature. -/

/-- From the header start to the start of the chained root, as the parser places
it. -/
def leaderRegion (raw : List UInt8) (p : ParsedShred) : List UInt8 :=
  cut raw (regionOffset p.header.variant.kind) (p.proofRange.start - 32)

/-- The tail of the batch that `ERASURE_SHARD_SIZE` is for. -/
def StandardTail (p : ParsedShred) : Prop :=
  p.header.variant.proofSize = 6 ∧ p.header.variant.resigned = false

theorem region_length_iff {v : ShredVariant} {byte : UInt8}
    (hv : ShredVariant.decode byte = .ok v) :
    regionOffset v.kind + 987 = v.proofStart - 32 ↔ v.proofSize = 6 ∧ v.resigned = false := by
  obtain ⟨_, _, hps⟩ := ShredVariant.decode_ok hv
  have hsix : v.proofSize = 6 ↔ v.proofSize.toNat = 6 := UInt8.toNat_inj.symm
  rw [hsix]
  obtain ⟨kind, proofSize, chained, resigned⟩ := v
  simp only [ShredVariant.proofStart, ShredVariant.proofEnd, ShredVariant.expectedLen,
    ShredVariant.resignBytes, ShredVariant.proofBytes, regionOffset] at hps ⊢
  cases kind with
  | data =>
      cases resigned
      · simp
        omega
      · simp
        omega
  | code =>
      cases resigned
      · simp
        omega
      · simp
        omega

/-- The constant region is the leader's exactly for the standard tail. -/
theorem cut_eq_leaderRegion_iff {raw : List UInt8} {pk : Bytes 32} {v : ShredVariant}
    (hv : Verified C P raw pk v i) :
    cut raw (regionOffset v.kind) (regionOffset v.kind + 987) =
      leaderRegion raw (parsed raw v i) ↔ StandardTail (parsed raw v i) := by
  have hfull := hv.full
  obtain ⟨_, _, hend⟩ := ShredVariant.fixed_le hv.decodes
  show cut raw _ _ = cut raw (regionOffset v.kind) (v.proofStart - 32) ↔ _
  constructor
  · intro heq
    have hlen := congrArg List.length heq
    obtain ⟨_, _, hps⟩ := ShredVariant.decode_ok hv.decodes
    obtain ⟨_, hstart, _⟩ := ShredVariant.tail_bounds hps
    have hoff : regionOffset v.kind ≤ 89 := by
      unfold regionOffset
      split <;> simp
    rw [length_cut (region_le hfull), length_cut (by omega)] at hlen
    exact (region_length_iff hv.decodes).mp (by omega)
  · intro htail
    rw [(region_length_iff hv.decodes).mpr htail]

/-- **Stored shards are the leader's regions exactly for the standard tail**: each
for the shred it was cut from, and all of them in a run of such shreds. -/
theorem stored_regions (C : Crates) (P : Profile) (calls : List Call) (a : FecAssembler)
    (es : List FecEvent) (h : ingestAll C P .new calls = .ok (a, es)) :
    (∀ (key : FecKey) (i : ℕ) (s : List UInt8),
      (a.stateOf key).shards[i]? = some (some s) →
      (∃ c, StoredBy C P calls key i c) ∧
      ∀ (c : Call) (p : ParsedShred), StoredBy C P calls key i c → parseShred P c.raw = .ok p →
        (s = leaderRegion c.raw p ↔ StandardTail p)) ∧
    ((∀ c ∈ calls, ∀ p : ParsedShred, (∃ w, c.Accepts C P w) → parseShred P c.raw = .ok p →
        StandardTail p) →
      ∀ (key : FecKey) (i : ℕ) (s : List UInt8),
        (a.stateOf key).shards[i]? = some (some s) →
        ∃ (c : Call) (w : VerifiedShred) (p : ParsedShred), StoredBy C P calls key i c ∧
          c.Accepts C P w ∧ key = ⟨w.slot, w.fecSetIndex⟩ ∧ i = w.erasureShardIndex ∧
          parseShred P c.raw = .ok p ∧ s = leaderRegion c.raw p) := by
  have hiff : ∀ (key : FecKey) (i : ℕ) (s : List UInt8),
      (a.stateOf key).shards[i]? = some (some s) → ∀ (c : Call) (p : ParsedShred),
      StoredBy C P calls key i c → parseShred P c.raw = .ok p →
        (s = leaderRegion c.raw p ↔ StandardTail p) := by
    intro key i s hs c p hc hp
    obtain ⟨v, pk, hv, rfl, rfl⟩ := stored_region h hs hc hp
    exact cut_eq_leaderRegion_iff hv
  refine ⟨fun key i s hs => ⟨(run_stored h).1 key i s hs, hiff key i s hs⟩, ?_⟩
  intro hall key i s hs
  obtain ⟨c, hc⟩ := (run_stored h).1 key i s hs
  obtain ⟨w, p, hw, hkey, hi, hp⟩ := hc.accepts h
  have htail : StandardTail p := hall c hc.mem p ⟨w, hw⟩ hp
  exact ⟨c, w, p, hc, hw, hkey, hi, hp, (hiff key i s hs c p hc hp).mpr htail⟩

/-! ### Runs of one bare shred

A data shred of slot 0 and set 0 at a given index, with a given number of zero
proof entries, signed by the sample key. -/

def bareVariant (entries : UInt8) : ShredVariant := ⟨.data, entries, true, false⟩

def bareEntriesAuth (entries index : UInt8) : List UInt8 :=
  bareAuth (0x90 ||| entries) index 0 (1117 - 20 * entries.toNat)

noncomputable def bareShred (entries index : UInt8) : List UInt8 :=
  signedBy (referenceCrates sha256) (sampleKey sha256)
    (laidOut (bareEntriesAuth entries index) (List.replicate entries.toNat (Bytes.zero 20)) [])
    (bareVariant entries) index.toNat

noncomputable def bareCall (entries index : UInt8) : Call :=
  ⟨sampleLeaders, bareShred entries index⟩

section Bare

variable {entries index : UInt8} (h : entries = 6 ∨ entries = 15)

include h

theorem bare_layout : Layout (bareVariant entries) (bareEntriesAuth entries index)
    (List.replicate entries.toNat (Bytes.zero 20)) [] where
  decodes := by
    rcases h with rfl | rfl
    · show ShredVariant.decode (0x90 ||| 6) = _
      rfl
    · show ShredVariant.decode (0x90 ||| 15) = _
      rfl
  auth := by
    rcases h with rfl | rfl
    · exact length_bareAuth
    · exact length_bareAuth
  proof := List.length_replicate
  rest := rfl

variable (hi : index.toNat < 64)

include hi

theorem verified_bare : Verified (referenceCrates sha256) ⟨true⟩ (bareShred entries index)
    ((referenceCrates sha256).verifyingKey (sampleKey sha256)) (bareVariant entries)
    index.toNat := by
  rw [bareShred]
  refine (bare_layout h).verified referenceCrates_acceptsHonestSignatures (sampleKey sha256) rfl
    ?_ ?_ ?_
  · rw [bareEntriesAuth, bareAuth_fecSetIndex]
    exact Nat.zero_le _
  · rw [bareEntriesAuth, bareAuth_fecSetIndex, bareAuth_index]
    rfl
  · rcases h with rfl | rfl
    · exact hi
    · exact hi.trans (by decide)

/-- A fresh assembler stores the shred. -/
theorem stored_bare : ∃ a es key s,
    ingestAll (referenceCrates sha256) ⟨true⟩ .new [bareCall entries index] = .ok (a, es) ∧
    (a.stateOf key).shards[index.toNat]? = some (some s) ∧
    StoredBy (referenceCrates sha256) ⟨true⟩ [bareCall entries index] key index.toNat
      (bareCall entries index) ∧
    parseShred ⟨true⟩ (bareCall entries index).raw =
      .ok (parsed (bareShred entries index) (bareVariant entries) index.toNat) := by
  have hv := verified_bare h hi
  have hgate : gate (referenceCrates sha256) ⟨true⟩ (bareCall entries index).leaders
      (bareCall entries index).raw = _ := Verified.gate_eq hv rfl
  obtain ⟨st, ss, es, hstep, hexit⟩ := ingest_admitted (a := .new) wellFormed_new hgate
  have hrun := (ingestAll_single .new (bareCall entries index)).trans hstep
  have hfree : Free .new (admittedAs (referenceCrates sha256) (bareShred entries index)
      (bareVariant entries) index.toNat) := by
    show (List.replicate 64 none)[index.toNat]? = some none
    rw [List.getElem?_replicate, if_pos hi]
  obtain ⟨s, hs⟩ : ∃ s, st.shards[index.toNat]? = some (some s) := by
    rcases hexit.shards with ⟨_, hrec | ⟨r, hr, _⟩ | hout | ⟨s, hdup⟩⟩ | ⟨_, _, _, hset⟩
    · cases hrec
    · cases hr
    · exact absurd hi (Nat.not_lt_of_le hout)
    · cases hdup.symm.trans hfree
    · exact ⟨_, by rw [hset]; exact List.getElem?_set_self (List.getElem?_eq_some_iff.mp hfree).1⟩
  rcases hexit.announces_stored wellFormed_new hs with hold | ⟨n, hmem⟩
  · cases hold.symm.trans hfree
  · refine ⟨_, es, _, s, hrun, ?_, ⟨[], [], .new, [], _, es, n, rfl, rfl, hstep, hmem⟩, ?_⟩
    · rw [FecAssembler.stateOf_put_self]
      exact hs
    · show parseShred ⟨true⟩ (bareShred entries index) = _
      rw [parseShred_eq hv.decodes hv.full, hv.index]
      rfl

end Bare

/-- The shred the constant is for. -/
theorem stored_regions_standard : ∃ a es key s,
    ingestAll (referenceCrates sha256) ⟨true⟩ .new [bareCall 6 0] = .ok (a, es) ∧
    (a.stateOf key).shards[0]? = some (some s) ∧
    s = leaderRegion (bareCall 6 0).raw (parsed (bareShred 6 0) (bareVariant 6) 0) := by
  obtain ⟨a, es, key, s, hrun, hs, hc, hp⟩ :=
    stored_bare (Or.inl rfl : (6 : UInt8) = 6 ∨ (6 : UInt8) = 15)
      (by decide : (0 : UInt8).toNat < 64)
  refine ⟨a, es, key, s, hrun, hs, ?_⟩
  exact (((stored_regions _ ⟨true⟩ _ a es hrun).1 key 0 s hs).2 _ _ hc hp).mpr ⟨rfl, rfl⟩

/-- With fifteen proof entries the stored bytes go over the chained root and into
the proof. -/
theorem stored_region_overruns : ∃ calls a es key i s c p,
    ingestAll (referenceCrates sha256) ⟨true⟩ .new calls = .ok (a, es) ∧
    (a.stateOf key).shards[i]? = some (some s) ∧
    StoredBy (referenceCrates sha256) ⟨true⟩ calls key i c ∧ parseShred ⟨true⟩ c.raw = .ok p ∧
    s ≠ leaderRegion c.raw p ∧ s = cut c.raw 64 1051 ∧ p.proofRange = ⟨903, 1203⟩ := by
  obtain ⟨a, es, key, s, hrun, hs, hc, hp⟩ :=
    stored_bare (Or.inr rfl : (15 : UInt8) = 6 ∨ (15 : UInt8) = 15)
      (by decide : (0 : UInt8).toNat < 64)
  obtain ⟨v, pk, hv, hparsed, rfl⟩ := stored_region hrun hs hc hp
  have hvariant : bareVariant 15 = v := congrArg (fun p => p.header.variant) hparsed
  subst hvariant
  refine ⟨_, a, es, key, 0, _, _, _, hrun, hs, hc, hp, ?_, rfl, rfl⟩
  intro heq
  obtain ⟨hsize, _⟩ := (cut_eq_leaderRegion_iff hv).mp heq
  exact absurd hsize (by decide)

/-! ## Data and coding positions -/

/-- The position is the shred's own, on its side of the set. -/
def Placed (raw : List UInt8) (p : ParsedShred) (i : ℕ) : Prop :=
  (i < 32 → p.header.variant.kind = .data ∧
    p.header.index.toNat = p.header.fecSetIndex.toNat + i) ∧
  (32 ≤ i → p.header.variant.kind = .code ∧ fromLe (cut raw 87 89) = i - 32)

/-- A data shred with one of the 32 indices from its `fec_set_index` on. -/
def InDataHalf (p : ParsedShred) : Prop :=
  p.header.variant.kind = .data → p.header.fecSetIndex.toNat ≤ p.header.index.toNat ∧
    p.header.index.toNat < p.header.fecSetIndex.toNat + 32

/-- In `u32` the position of a data shred is the difference, whatever it is. -/
theorem index_eq_add {raw : List UInt8} {v : ShredVariant} (hk : v.kind = .data)
    (hi : indexOf P raw v = .ok i) :
    (headerOf raw v).index = (headerOf raw v).fecSetIndex + .ofNat i := by
  have hidx := (headerOf raw v).index.toNat_lt
  have hfec := (headerOf raw v).fecSetIndex.toNat_lt
  rw [indexOf_data hk] at hi
  refine UInt32.toNat_inj.mp ?_
  rw [UInt32.toNat_add, UInt32.toNat_ofNat', Nat.add_mod_mod]
  by_cases hle : (headerOf raw v).fecSetIndex.toNat ≤ (headerOf raw v).index.toNat
  · rw [subU_eq hle hidx] at hi
    cases hi
    rw [Nat.add_sub_cancel' hle, Nat.mod_eq_of_lt hidx]
  · cases hP : P.overflowChecks with
    | true =>
        rw [subU_checked hP (Nat.lt_of_not_le hle)] at hi
        cases hi
    | false =>
        rw [subU_wraps hP (Nat.lt_of_not_le hle) hfec] at hi
        cases hi
        omega

theorem placed_iff {raw : List UInt8} {pk : Bytes 32} {v : ShredVariant}
    (hv : Verified C P raw pk v i) :
    Placed raw (parsed raw v i) i ↔ InDataHalf (parsed raw v i) := by
  have hbytes := v.expectedLen_le
  have hfull := hv.full
  have hidx := (headerOf raw v).index.toNat_lt
  have hfec := (headerOf raw v).fecSetIndex.toNat_lt
  have hi := hv.index
  show (i < 32 → v.kind = .data ∧
      (headerOf raw v).index.toNat = (headerOf raw v).fecSetIndex.toNat + i) ∧
    (32 ≤ i → v.kind = .code ∧ fromLe (cut raw 87 89) = i - 32) ↔
    (v.kind = .data → (headerOf raw v).fecSetIndex.toNat ≤ (headerOf raw v).index.toNat ∧
      (headerOf raw v).index.toNat < (headerOf raw v).fecSetIndex.toNat + 32)
  cases hk : v.kind with
  | code =>
      -- the position of a coding shred is at 32 or above by construction
      rw [indexOf_code hk (by omega)] at hi
      cases hi
      constructor
      · intro _ hdata
        cases hdata
      · intro _
        refine ⟨fun hlow => absurd hlow (by omega), fun _ => ⟨rfl, by omega⟩⟩
  | data =>
      have hadd := congrArg UInt32.toNat (index_eq_add hk hi)
      rw [UInt32.toNat_add, UInt32.toNat_ofNat', Nat.add_mod_mod] at hadd
      constructor
      · rintro ⟨hlow, hhigh⟩ _
        rcases Nat.lt_or_ge i 32 with hi | hi
        · obtain ⟨_, heq⟩ := hlow hi
          omega
        · cases (hhigh hi).1
      · intro hhalf
        obtain ⟨hle, hlt⟩ := hhalf rfl
        rw [indexOf_data_of_le hk hle] at hi
        cases hi
        refine ⟨fun _ => ⟨rfl, by omega⟩, fun hhigh => absurd hhigh (by omega)⟩

/-- **Stored positions are on their own side exactly for data shreds of the first
half**: each for the shred that was stored, and all of them in a run of such
shreds. Coding shreds always are. -/
theorem stored_positions (C : Crates) (P : Profile) (calls : List Call) (a : FecAssembler)
    (es : List FecEvent) (h : ingestAll C P .new calls = .ok (a, es)) :
    (∀ (key : FecKey) (i : ℕ) (s : List UInt8),
      (a.stateOf key).shards[i]? = some (some s) →
      (∃ c, StoredBy C P calls key i c) ∧
      ∀ (c : Call) (p : ParsedShred), StoredBy C P calls key i c → parseShred P c.raw = .ok p →
        (Placed c.raw p i ↔ InDataHalf p) ∧
        (p.header.variant.kind = .data → p.header.index = p.header.fecSetIndex + .ofNat i)) ∧
    ((∀ c ∈ calls, ∀ p : ParsedShred, (∃ w, c.Accepts C P w) → parseShred P c.raw = .ok p →
        InDataHalf p) →
      ∀ (key : FecKey) (i : ℕ) (s : List UInt8),
        (a.stateOf key).shards[i]? = some (some s) →
        ∃ (c : Call) (w : VerifiedShred) (p : ParsedShred), StoredBy C P calls key i c ∧
          c.Accepts C P w ∧ key = ⟨w.slot, w.fecSetIndex⟩ ∧ i = w.erasureShardIndex ∧
          parseShred P c.raw = .ok p ∧ Placed c.raw p i) := by
  have hiff : ∀ (key : FecKey) (i : ℕ) (s : List UInt8),
      (a.stateOf key).shards[i]? = some (some s) → ∀ (c : Call) (p : ParsedShred),
      StoredBy C P calls key i c → parseShred P c.raw = .ok p →
        (Placed c.raw p i ↔ InDataHalf p) ∧
        (p.header.variant.kind = .data →
          p.header.index = p.header.fecSetIndex + .ofNat i) := by
    intro key i s hs c p hc hp
    obtain ⟨v, pk, hv, rfl, _⟩ := stored_region h hs hc hp
    exact ⟨placed_iff hv, fun hk => index_eq_add hk hv.index⟩
  refine ⟨fun key i s hs => ⟨(run_stored h).1 key i s hs, hiff key i s hs⟩, ?_⟩
  intro hall key i s hs
  obtain ⟨c, hc⟩ := (run_stored h).1 key i s hs
  obtain ⟨w, p, hw, hkey, hi, hp⟩ := hc.accepts h
  have hhalf : InDataHalf p := hall c hc.mem p ⟨w, hw⟩ hp
  exact ⟨c, w, p, hc, hw, hkey, hi, hp, (hiff key i s hs c p hc hp).1.mpr hhalf⟩

/-- The first data shred of a set. -/
theorem stored_positions_first : ∃ a es key s,
    ingestAll (referenceCrates sha256) ⟨true⟩ .new [bareCall 6 0] = .ok (a, es) ∧
    (a.stateOf key).shards[0]? = some (some s) ∧
    (Placed (bareCall 6 0).raw (parsed (bareShred 6 0) (bareVariant 6) 0) 0 ↔
      InDataHalf (parsed (bareShred 6 0) (bareVariant 6) 0)) := by
  obtain ⟨a, es, key, s, hrun, hs, hc, hp⟩ :=
    stored_bare (Or.inl rfl : (6 : UInt8) = 6 ∨ (6 : UInt8) = 15)
      (by decide : (0 : UInt8).toNat < 64)
  refine ⟨a, es, key, s, hrun, hs, ?_⟩
  exact (((stored_positions _ ⟨true⟩ _ a es hrun).1 key 0 s hs).2 _ _ hc hp).1

/-- A data shred of index 40 in set 0 is stored as a coding shard. -/
theorem data_at_coding_position : ∃ calls a es key i s c p,
    ingestAll (referenceCrates sha256) ⟨true⟩ .new calls = .ok (a, es) ∧
    (a.stateOf key).shards[i]? = some (some s) ∧
    StoredBy (referenceCrates sha256) ⟨true⟩ calls key i c ∧ parseShred ⟨true⟩ c.raw = .ok p ∧
    i = 40 ∧ p.header.variant.kind = .data ∧ ¬ Placed c.raw p i := by
  obtain ⟨a, es, key, s, hrun, hs, hc, hp⟩ :=
    stored_bare (Or.inl rfl : (6 : UInt8) = 6 ∨ (6 : UInt8) = 15)
      (by decide : (40 : UInt8).toNat < 64)
  refine ⟨_, a, es, key, 40, s, _, _, hrun, hs, hc, hp, rfl, rfl, ?_⟩
  rintro ⟨_, hhigh⟩
  cases (hhigh (by decide)).1

end Lattica.Listener
