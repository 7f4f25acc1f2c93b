import Lattica.Listener.Finalization

/-!
# When a slot is final

A prefix of a run is ready for a slot when a LAST_IN_SLOT data shred of the slot
has been accepted and every set seen up to the largest marked one has been
reported reconstructed. `ingest` asks only on two of its exits; that it misses no
prefix is `Tracks.waiting`, and `finalized` says whether a prefix was ready.
-/

namespace Lattica.Listener

open Foundation Shred Reedsol

variable {C : Crates} {P : Profile} {a a' : FecAssembler} {es : List FecEvent}
  {calls : List Call} {slot : UInt64}

/-- A shred of set `i` of the slot has been accepted. -/
def Ingested (C : Crates) (P : Profile) (calls : List Call) (slot : UInt64) (i : UInt32) : Prop :=
  ∃ c ∈ calls, ∃ w, c.Accepts C P w ∧ w.slot = slot ∧ w.fecSetIndex = i

/-- A LAST_IN_SLOT data shred of set `i` of the slot has been accepted. -/
def Marked (C : Crates) (P : Profile) (calls : List Call) (slot : UInt64) (i : UInt32) : Prop :=
  ∃ c ∈ calls, ∃ w, c.Accepts C P w ∧ w.isLastInSlot = true ∧ w.slot = slot ∧ w.fecSetIndex = i

/-- The largest marked set. -/
def LastMarked (C : Crates) (P : Profile) (calls : List Call) (slot : UInt64) (l : UInt32) :
    Prop :=
  Marked C P calls slot l ∧ ∀ i, Marked C P calls slot i → i ≤ l

/-- A run after which the slot should be final. -/
def ReadyAfter (C : Crates) (P : Profile) (calls : List Call) (slot : UInt64) : Prop :=
  ∃ a es l, ingestAll C P .new calls = .ok (a, es) ∧ LastMarked C P calls slot l ∧
    ∀ i, i ≤ l → Ingested C P calls slot i → ∃ root das, .reconstructed ⟨slot, i⟩ root das ∈ es

/-- The call `c` is the first to make the prefix ready. -/
def FirstReady (C : Crates) (P : Profile) (pre : List Call) (c : Call) (slot : UInt64) : Prop :=
  ReadyAfter C P (pre ++ [c]) slot ∧ ∀ p, p <+: pre → ¬ ReadyAfter C P p slot

/-! ## Readiness in the state -/

theorem ingested_iff (h : ingestAll C P .new calls = .ok (a, es)) {i : UInt32} :
    Ingested C P calls slot i ↔ i ∈ (a.slotOf slot).seenFecIndices := by
  obtain ⟨hwf, ht⟩ := run_tracks h
  rw [hwf.seen, ht.touched]
  constructor
  · rintro ⟨c, hc, w, hw, rfl, rfl⟩
    obtain ⟨x, hgate, rfl⟩ := gate_of_accepts hw
    exact ⟨x, List.mem_filterMap.mpr ⟨c, hc, admit_of_gate hgate⟩, rfl⟩
  · rintro ⟨x, hx, hkey⟩
    obtain ⟨c, hc, hgate⟩ := mem_admitted hx
    exact ⟨c, hc, x.shred, accepts_of_gate hgate, congrArg FecKey.slot hkey,
      congrArg FecKey.fecSetIndex hkey⟩

theorem marked_iff {i : UInt32} : Marked C P calls slot i ↔
    ∃ x ∈ admitted C P calls, x.isLast = true ∧ x.key = ⟨slot, i⟩ := by
  constructor
  · rintro ⟨c, hc, w, hw, hlast, rfl, rfl⟩
    obtain ⟨x, hgate, rfl⟩ := gate_of_accepts hw
    exact ⟨x, List.mem_filterMap.mpr ⟨c, hc, admit_of_gate hgate⟩, hlast, rfl⟩
  · rintro ⟨x, hx, hlast, hkey⟩
    obtain ⟨c, hc, hgate⟩ := mem_admitted hx
    exact ⟨c, hc, x.shred, accepts_of_gate hgate, hlast, congrArg FecKey.slot hkey,
      congrArg FecKey.fecSetIndex hkey⟩

/-- The marker of the slot is the largest marked set. -/
theorem lastMarked_iff (h : ingestAll C P .new calls = .ok (a, es)) {l : UInt32} :
    LastMarked C P calls slot l ↔ (a.slotOf slot).lastFecSetIndex = some l := by
  obtain ⟨_, ht⟩ := run_tracks h
  have hle : ∀ {i}, Marked C P calls slot i →
      ∃ m, (a.slotOf slot).lastFecSetIndex = some m ∧ i ≤ m := by
    intro i hi
    obtain ⟨x, hx, hlast, hkey⟩ := marked_iff.mp hi
    have hm := ht.marker_le hx hlast
    rwa [hkey] at hm
  have hmem : ∀ {m}, (a.slotOf slot).lastFecSetIndex = some m → Marked C P calls slot m :=
    fun hm => marked_iff.mpr (ht.marker_mem hm)
  constructor
  · rintro ⟨hl, hmax⟩
    obtain ⟨m, hm, hlm⟩ := hle hl
    rw [hm, UInt32.le_antisymm hlm (hmax m (hmem hm))]
  · intro hl
    refine ⟨hmem hl, fun i hi => ?_⟩
    obtain ⟨m, hm, him⟩ := hle hi
    rw [hl] at hm
    cases hm
    exact him

/-- The slot is ready up to its `finalized` flag. -/
def Due (ss : SlotState) : Prop := Ready { ss with finalized := false }

theorem readyAfter_iff (h : ingestAll C P .new calls = .ok (a, es)) :
    ReadyAfter C P calls slot ↔ Due (a.slotOf slot) := by
  obtain ⟨hwf, _⟩ := run_tracks h
  have hdone : ∀ i, (∃ root das, .reconstructed ⟨slot, i⟩ root das ∈ es) ↔
      i ∈ (a.slotOf slot).reconstructedFecIndices := by
    intro i
    rw [hwf.mem_reconstructed]
    constructor
    · rintro ⟨root, hroot⟩
      exact ((run_reconstructed h).mp hroot).1
    · intro hrec
      obtain ⟨r, hr⟩ := hwf.root (stateOf_eq_of_reconstructed hrec)
      exact ⟨r, (run_reconstructed h).mpr ⟨hrec, hr⟩⟩
  constructor
  · rintro ⟨a', es', l, hrun, hl, hall⟩
    rw [h] at hrun
    cases hrun
    have hlast := (lastMarked_iff h).mp hl
    refine ⟨rfl, ?_, l, hlast, fun i hi => ?_, hwf.marker_seen slot l hlast⟩
    · rw [hwf.marker, hlast]
      rfl
    · obtain ⟨hseen, hil⟩ := mem_indicesToCheck.mp hi
      exact (hdone i).mp (hall i hil ((ingested_iff h).mpr hseen))
  · rintro ⟨_, _, l, hlast, hall, _⟩
    refine ⟨a, es, l, h, (lastMarked_iff h).mpr hlast, fun i hil hi => (hdone i).mpr ?_⟩
    exact hall i (mem_indicesToCheck.mpr ⟨(ingested_iff h).mp hi, hil⟩)

/-! ## `finalized` says whether a prefix was ready -/

/-- A call finalizes the slots that are due after it, and no other. -/
theorem finalized_step {c : Call} {es' : List FecEvent}
    (h : ingestAll C P .new calls = .ok (a, es))
    (hc : ingest C P c.leaders a c.raw = .ok (a', es')) :
    (a'.slotOf slot).finalized = true ↔
      (a.slotOf slot).finalized = true ∨ Due (a'.slotOf slot) := by
  obtain ⟨hwf, _⟩ := run_tracks h
  obtain ⟨_, ht'⟩ := run_tracks (ingestAll_snoc_eq_ok.mpr ⟨a, es, es', h, hc, rfl⟩)
  have hdue : Due (a'.slotOf slot) → (a'.slotOf slot).finalized = true := by
    intro hdue
    cases hfin : (a'.slotOf slot).finalized with
    | true => rfl
    | false =>
        refine absurd ?_ (ht'.waiting slot)
        rw [Due, ← hfin] at hdue
        exact hdue
  rcases ingest_cases hwf hc with ⟨_, _, rfl, _⟩ | ⟨x, st, ss, _, rfl, hexit⟩
  · exact ⟨Or.inl, fun h => h.elim id hdue⟩
  · by_cases hslot : slot = x.key.slot
    · subst hslot
      rw [FecAssembler.slotOf_put_self] at hdue ⊢
      rcases hexit.filter_slotFinalized with ⟨hsame, _⟩ | ⟨_, hnow, hready, _⟩
      · rw [hsame] at hdue ⊢
        exact ⟨Or.inl, fun h => h.elim id hdue⟩
      · exact ⟨fun _ => Or.inr hready, fun _ => hnow⟩
    · rw [FecAssembler.slotOf_put_ne a hslot] at hdue ⊢
      exact ⟨Or.inl, fun h => h.elim id hdue⟩

theorem prefix_snoc_iff {α : Type*} {p xs : List α} {x : α} :
    p <+: xs ++ [x] ↔ p <+: xs ∨ p = xs ++ [x] := by
  rw [List.prefix_concat_iff, or_comm]

/-- **A slot is final exactly when some prefix of the run was ready for it.** -/
theorem run_finalized : ∀ {calls : List Call} {a : FecAssembler} {es : List FecEvent},
    ingestAll C P .new calls = .ok (a, es) →
      ((a.slotOf slot).finalized = true ↔ ∃ p, p <+: calls ∧ ReadyAfter C P p slot) := by
  intro calls
  induction calls using List.reverseRecOn with
  | nil =>
      intro a es h
      have hnew : ReadyAfter C P [] slot ↔ Due (a.slotOf slot) := readyAfter_iff h
      cases h
      constructor
      · intro hfin
        cases hfin
      · rintro ⟨p, hp, hready⟩
        rw [List.prefix_nil.mp hp, hnew] at hready
        obtain ⟨_, hmark, _⟩ := hready
        cases hmark
  | append_singleton calls c ih =>
      intro a es h
      obtain ⟨a₁, es₁, es₂, hcs, hc, _⟩ := ingestAll_snoc_eq_ok.mp h
      rw [finalized_step hcs hc, ih hcs, ← readyAfter_iff h]
      constructor
      · rintro (⟨p, hp, hready⟩ | hready)
        · exact ⟨p, prefix_snoc_iff.mpr (Or.inl hp), hready⟩
        · exact ⟨_, List.prefix_rfl, hready⟩
      · rintro ⟨p, hp, hready⟩
        rcases prefix_snoc_iff.mp hp with hp | rfl
        · exact Or.inl ⟨p, hp, hready⟩
        · exact Or.inr hready

/-- The exit that reports a slot final makes it so. -/
theorem Exit.finalizes_iff {x : Admitted} {st : FecState} {ss : SlotState}
    (hexit : Exit C a x st ss es) : (∃ roots slotRoot n conf,
      .slotFinalized slot roots slotRoot n conf ∈ es) ↔
      slot = x.key.slot ∧ (a.slotOf x.key.slot).finalized = false ∧ ss.finalized = true := by
  constructor
  · rintro ⟨roots, slotRoot, n, conf, hmem⟩
    have hin := List.mem_filter.mpr ⟨hmem, (rfl : FecEvent.isSlotFinalized _ = true)⟩
    rcases hexit.filter_slotFinalized with ⟨_, hnone⟩ | ⟨hbefore, hafter, _⟩
    · rw [hnone] at hin
      cases hin
    · exact ⟨(hexit.reports hmem).1, hbefore, hafter⟩
  · rintro ⟨rfl, hbefore, hafter⟩
    rcases hexit.filter_slotFinalized with ⟨hsame, _⟩ | ⟨_, _, _, hone⟩
    · rw [hafter, hbefore] at hsame
      cases hsame
    · exact ⟨_, _, _, _, List.mem_of_mem_filter (hone ▸ List.mem_singleton.mpr rfl)⟩

/-- The listed sets are in increasing order. -/
theorem pairwise_listed (ss : SlotState) : (listed ss).Pairwise (· < ·) := by
  rw [listed]
  cases ss.lastFecSetIndex with
  | none => exact List.Pairwise.nil
  | some l =>
      exact (ss.seenFecIndices.sorted.imp fun h => UInt32.lt_iff_toNat_lt.mpr h).filter _

/-! ## The event -/

section Event

variable {c : Call} {a₁ a₂ : FecAssembler} {es₁ es₂ : List FecEvent} {pre : List Call}
  (hpre : ingestAll C P .new pre = .ok (a₁, es₁))
  (hc : ingest C P c.leaders a₁ c.raw = .ok (a₂, es₂))

include hpre hc

/-- What a call reports of a slot, and how often. -/
theorem reported_once : (es₂.filter FecEvent.isSlotFinalized).length ≤ 1 ∧
    ((∃ roots slotRoot n conf, .slotFinalized slot roots slotRoot n conf ∈ es₂) ↔
      (a₁.slotOf slot).finalized = false ∧ (a₂.slotOf slot).finalized = true) := by
  rcases ingest_cases (run_wellFormed hpre) hc with ⟨_, _, rfl, rfl⟩ | ⟨x, st, ss, _, rfl, hexit⟩
  · refine ⟨Nat.zero_le _, ?_⟩
    constructor
    · rintro ⟨_, _, _, _, hmem⟩
      simp at hmem
    · rintro ⟨hbefore, hafter⟩
      rw [hbefore] at hafter
      cases hafter
  · refine ⟨?_, ?_⟩
    · rcases hexit.filter_slotFinalized with ⟨_, hnone⟩ | ⟨_, _, _, hone⟩
      · rw [hnone]
        exact Nat.zero_le _
      · rw [hone]
        exact le_rfl
    · rw [hexit.finalizes_iff]
      by_cases hslot : slot = x.key.slot
      · subst hslot
        rw [FecAssembler.slotOf_put_self]
        exact and_iff_right rfl
      · rw [FecAssembler.slotOf_put_ne a₁ hslot]
        constructor
        · exact fun h => absurd h.1 hslot
        · rintro ⟨hbefore, hafter⟩
          rw [hbefore] at hafter
          cases hafter

theorem firstReady_iff : FirstReady C P pre c slot ↔
    (a₁.slotOf slot).finalized = false ∧ (a₂.slotOf slot).finalized = true := by
  have hrun := ingestAll_snoc_eq_ok.mpr ⟨a₁, es₁, es₂, hpre, hc, rfl⟩
  rw [run_finalized hrun, ← Bool.not_eq_true, run_finalized hpre]
  constructor
  · rintro ⟨hready, hfirst⟩
    exact ⟨fun ⟨p, hp, hr⟩ => hfirst p hp hr, _, List.prefix_rfl, hready⟩
  · rintro ⟨hnone, p, hp, hready⟩
    refine ⟨?_, fun p hp hr => hnone ⟨p, hp, hr⟩⟩
    rcases prefix_snoc_iff.mp hp with hp | rfl
    · exact absurd ⟨p, hp, hready⟩ hnone
    · exact hready

/-- The sets an event lists: the seen ones up to the largest marked one, by the roots
they have after the call, their counters added up. -/
theorem reported_sets {roots : List (Bytes 32)} {slotRoot : Bytes 32} {n : ℕ} {conf : ℚ}
    (hmem : .slotFinalized slot roots slotRoot n conf ∈ es₂) :
    ∃ (l : UInt32) (is : List UInt32), LastMarked C P (pre ++ [c]) slot l ∧ l ∈ is ∧
      is.Pairwise (· < ·) ∧
      (∀ i, i ∈ is ↔ i ≤ l ∧ Ingested C P (pre ++ [c]) slot i) ∧
      (∀ i ∈ is, (a₂.stateOf ⟨slot, i⟩).merkleRoot = some (rootOf a₂ slot i)) ∧
      roots = is.map (rootOf a₂ slot) ∧ slotRoot = slotRootOf C roots ∧
      n = (is.map fun i => (a₂.stateOf ⟨slot, i⟩).distinctSeen).sum := by
  have hrun := ingestAll_snoc_eq_ok.mpr ⟨a₁, es₁, es₂, hpre, hc, rfl⟩
  have hwf := run_wellFormed hrun
  rcases ingest_cases (run_wellFormed hpre) hc with ⟨_, _, rfl, rfl⟩ | ⟨x, st, ss, _, rfl, hexit⟩
  · simp at hmem
  · have hin := List.mem_filter.mpr ⟨hmem, (rfl : FecEvent.isSlotFinalized _ = true)⟩
    obtain ⟨rfl, hroots, hslotRoot, l, hl, hlast, _⟩ := hexit.reports hmem
    have hslot : (a₁.put x.key st ss).slotOf x.key.slot = ss := FecAssembler.slotOf_put_self a₁
    have hmem : ∀ i, i ∈ listed ss ↔ i ≤ l ∧ Ingested C P (pre ++ [c]) x.key.slot i := by
      intro i
      rw [listed, hl, mem_indicesToCheck, ingested_iff hrun, hslot, and_comm]
    refine ⟨l, listed ss, (lastMarked_iff hrun).mpr (hslot.symm ▸ hl), hlast, pairwise_listed ss,
      hmem, ?_, hroots, hslotRoot, ?_⟩
    · intro i hi
      obtain ⟨st', hst'⟩ := (hwf.seen _ i).mp ((ingested_iff hrun).mp ((hmem i).mp hi).2)
      obtain ⟨r, hr⟩ := hwf.root hst'
      have hroot : ((a₁.put x.key st ss).stateOf ⟨x.key.slot, i⟩).merkleRoot = some r := by
        rw [FecAssembler.stateOf, hst']
        exact hr
      rw [rootOf, hroot, Option.getD_some]
    · rcases hexit.filter_slotFinalized with ⟨_, hnone⟩ | ⟨_, _, _, hone⟩
      · rw [hnone] at hin
        cases hin
      · rw [hone, List.mem_singleton, finalEvent, FecEvent.slotFinalized.injEq] at hin
        exact hin.2.2.2.1

/-- Sets that have a root were reported started under it. -/
theorem started_listed {is : List UInt32}
    (hroot : ∀ i ∈ is, (a₂.stateOf ⟨slot, i⟩).merkleRoot = some (rootOf a₂ slot i)) :
    List.Forall₂ (fun i root => .started ⟨slot, i⟩ root ∈ es₁ ++ es₂) is
      (is.map (rootOf a₂ slot)) := by
  have hrun := ingestAll_snoc_eq_ok.mpr ⟨a₁, es₁, es₂, hpre, hc, rfl⟩
  rw [List.forall₂_map_right_iff, List.forall₂_same]
  intro i hi
  exact (run_started hrun).mpr (hroot i hi)

/-- What the event reports. -/
theorem reported_roots {roots : List (Bytes 32)} {slotRoot : Bytes 32} {n : ℕ} {conf : ℚ}
    (hmem : .slotFinalized slot roots slotRoot n conf ∈ es₂) :
    aggregateRoot C roots = .ok slotRoot ∧ ∃ l is, LastMarked C P (pre ++ [c]) slot l ∧
      is.Pairwise (· < ·) ∧ (∀ i, i ∈ is ↔ i ≤ l ∧ Ingested C P (pre ++ [c]) slot i) ∧
      List.Forall₂ (fun i root => .started ⟨slot, i⟩ root ∈ es₁ ++ es₂) is roots := by
  obtain ⟨l, is, hl, _, hsorted, hlisted, hroot, rfl, rfl, _⟩ := reported_sets hpre hc hmem
  exact ⟨aggregateRoot_eq C _, l, is, hl, hsorted, hlisted, started_listed hpre hc hroot⟩

end Event

/-- **`SlotFinalized` fires exactly when it should on what has been seen**: at the
call that makes the run ready for the first time. -/
theorem finalized_when_first_ready (C : Crates) (P : Profile) (slot : UInt64) (pre : List Call)
    (c : Call) (a₁ a₂ : FecAssembler) (es₁ es₂ : List FecEvent)
    (hpre : ingestAll C P .new pre = .ok (a₁, es₁))
    (hc : ingest C P c.leaders a₁ c.raw = .ok (a₂, es₂)) :
    (es₂.filter FecEvent.isSlotFinalized).length ≤ 1 ∧
    ((∃ roots slotRoot n conf, .slotFinalized slot roots slotRoot n conf ∈ es₂) ↔
      FirstReady C P pre c slot) ∧
    ∀ roots slotRoot n conf, .slotFinalized slot roots slotRoot n conf ∈ es₂ →
      aggregateRoot C roots = .ok slotRoot ∧ ∃ l is, LastMarked C P (pre ++ [c]) slot l ∧
        is.Pairwise (· < ·) ∧ (∀ i, i ∈ is ↔ i ≤ l ∧ Ingested C P (pre ++ [c]) slot i) ∧
        List.Forall₂ (fun i root => .started ⟨slot, i⟩ root ∈ es₁ ++ es₂) is roots := by
  have hboth : (es₂.filter FecEvent.isSlotFinalized).length ≤ 1 ∧
      ((∃ roots slotRoot n conf, .slotFinalized slot roots slotRoot n conf ∈ es₂) ↔
        (a₁.slotOf slot).finalized = false ∧ (a₂.slotOf slot).finalized = true) :=
    reported_once hpre hc
  obtain ⟨honce, hiff⟩ := hboth
  refine ⟨honce, ?_, fun _ _ _ _ hmem => reported_roots hpre hc hmem⟩
  rw [hiff, firstReady_iff hpre hc]

/-- The call among the data shreds of a one-set slot that closes it. -/
theorem finalized_by_data {S : SlotSets (referenceCrates sha256) ⟨true⟩ 1} (hS : InOrder S) :
    ∃ (pre : List Call) (c : Call) (a₁ : FecAssembler) (es₁ : List FecEvent)
      (a₂ : FecAssembler) (es₂ : List FecEvent) (roots : List (Bytes 32)) (slotRoot : Bytes 32)
      (n : ℕ) (conf : ℚ),
    ingestAll (referenceCrates sha256) ⟨true⟩ .new pre = .ok (a₁, es₁) ∧
    ingest (referenceCrates sha256) ⟨true⟩ c.leaders a₁ c.raw = .ok (a₂, es₂) ∧
    .slotFinalized S.slot roots slotRoot n conf ∈ es₂ := by
  obtain ⟨a, es, hrun⟩ := S.run_ok referenceCrates_acceptsHonestSignatures (halfOf 0 0)
  rcases S.run_reports hS referenceCrates_acceptsHonestSignatures
    referenceCrates_decodesMds.reconstructsEqualLengths hrun with ⟨_, hnone, _⟩ |
    ⟨_, p, _, _, total, conf, hone⟩
  · refine absurd ⟨⟨0, 0, mem_halfOf.mpr ⟨rfl, by decide, by decide⟩, rfl, by decide⟩, ?_⟩
      (hnone _ List.prefix_rfl)
    intro k _
    rw [Subsingleton.elim k 0, card_delivered_halfOf]
  · have hmem := List.mem_of_mem_filter (hone ▸ List.mem_singleton.mpr rfl)
    obtain ⟨pre, c, post, a₁, es₁, a₂, es₂, _, hpre, hc, hmem⟩ := mem_events hrun hmem
    exact ⟨pre, c, a₁, es₁, a₂, es₂, _, _, _, _, hpre, hc, hmem⟩

/-- The call that completes a slot of one set. -/
theorem finalized_when_first_ready_one :
    ∃ pre c slot a₁ es₁, ingestAll (referenceCrates sha256) ⟨true⟩ .new pre = .ok (a₁, es₁) ∧
      FirstReady (referenceCrates sha256) ⟨true⟩ pre c slot := by
  obtain ⟨S, hS⟩ := exists_inOrder 1 (by decide)
  obtain ⟨pre, c, a₁, es₁, a₂, es₂, _, _, _, _, hpre, hc, hmem⟩ := finalized_by_data hS
  obtain ⟨_, hiff, _⟩ := finalized_when_first_ready _ ⟨true⟩ S.slot pre c a₁ a₂ es₁ es₂ hpre hc
  exact ⟨pre, c, S.slot, a₁, es₁, hpre, hiff.mp ⟨_, _, _, _, hmem⟩⟩

end Lattica.Listener
