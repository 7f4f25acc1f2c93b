import Lattica.Listener.Backing
import Lattica.Listener.LeaderCache
import Lattica.Listener.Recovery
import Lattica.Listener.Safety

/-!
# The assembler with its resolver

`FecAssembler::with_resolver` given a `HeliusLeaderResolver`: an unauthenticated
datagram names a slot, the slot is looked up and perhaps fetched, the cache
changes, and only then is the signature checked. Whatever the cache and the RPC
do within the schedule, the assembler is the one with the schedule for resolver:
a slot the resolver does not know is a datagram lost, and until the cache is full
there is no such slot.
-/

namespace Lattica.Listener

open Foundation Shred Reedsol Eviction HeliusLeaderResolver

attribute [local instance] HeliusLeaderResolver.slotOrder

/-- A `FecAssembler` and the cache of the resolver it owns. -/
structure HeliusAssembler where
  asm : FecAssembler
  cache : HeliusLeaderResolver.Cache

/-- A datagram, with the RPC as it is when it comes in. -/
structure Datagram where
  fetchWindow : FetchWindow
  raw : List UInt8

namespace HeliusAssembler

def new : HeliusAssembler := ⟨.new, ∅⟩

variable (C : Crates) (P : Profile)

/-- `FecAssembler::ingest`. -/
def ingest (s : HeliusAssembler) (d : Datagram) : Exec Empty (HeliusAssembler × List FecEvent) := do
  match ← (parseShred P d.raw).attempt with
  | .error e => return (s, [.rejected s!"parse: {e}"])
  | .ok parsed => do
      let (cache, leader) ← leaderForSlot P d.fetchWindow parsed.header.slot s.cache
      match leader with
      | none => return (⟨s.asm, cache⟩, [.rejected s!"no leader for slot {parsed.header.slot}"])
      | some leaderPubkey =>
          match ← (verifyShred C P d.raw leaderPubkey).attempt with
          | .error e => return (⟨s.asm, cache⟩, [.rejected s!"verify: {e}"])
          | .ok v => do
              let (asm, events) ← ingestVerified C P s.asm d.raw parsed v
              return (⟨asm, cache⟩, events)

def ingestAll : HeliusAssembler → List Datagram → Exec Empty (HeliusAssembler × List FecEvent)
  | s, [] => .ok (s, [])
  | s, d :: ds => do
      let (s, events) ← s.ingest C P d
      let (s, rest) ← ingestAll s ds
      return (s, events ++ rest)

end HeliusAssembler

variable {C : Crates} {P : Profile} {schedule : UInt64 → Bytes 32} {s : HeliusAssembler}
  {d : Datagram} {ds : List Datagram}

/-- The datagram, before a resolver that knows the schedule. -/
def scheduledCall (schedule : UInt64 → Bytes 32) (d : Datagram) : Call :=
  ⟨fun slot => some (schedule slot), d.raw⟩

/-- Put the cache beside what the assembler came to. -/
def withCache (cache : HeliusLeaderResolver.Cache) (r : FecAssembler × List FecEvent) :
    Exec Empty (HeliusAssembler × List FecEvent) := .ok (⟨r.1, cache⟩, r.2)

/-! ## One datagram -/

/-- A datagram that is not parsed does not reach the resolver. -/
theorem HeliusAssembler.ingest_unparsed (leaders : Leaders)
    (h : ∀ parsed, parseShred P d.raw ≠ .ok parsed) :
    s.ingest C P d = Listener.ingest C P leaders s.asm d.raw >>= withCache s.cache := by
  unfold HeliusAssembler.ingest Listener.ingest
  cases hparse : parseShred P d.raw with
  | ok parsed => exact absurd hparse (h parsed)
  | err e => rfl
  | panic p => rfl

/-- A datagram that is parsed is ingested under what the resolver answers. -/
theorem HeliusAssembler.ingest_parsed {parsed : ParsedShred} {leaders : Leaders}
    {cache : HeliusLeaderResolver.Cache} (h : parseShred P d.raw = .ok parsed)
    (hquery : leaderForSlot P d.fetchWindow parsed.header.slot s.cache =
      .ok (cache, leaders parsed.header.slot)) :
    s.ingest C P d = Listener.ingest C P leaders s.asm d.raw >>= withCache cache := by
  unfold HeliusAssembler.ingest Listener.ingest
  rw [h, Exec.attempt_ok, Exec.ok_bind, Exec.ok_bind]
  simp only [hquery, Exec.ok_bind]
  cases leaders parsed.header.slot with
  | none => rfl
  | some leaderPubkey =>
      dsimp only
      cases verifyShred C P d.raw leaderPubkey with
      | err e => rfl
      | panic p => rfl
      | ok v => rfl

/-- Every datagram is lost or ingested under the schedule. -/
theorem HeliusAssembler.ingest_scheduled (hs : Sound schedule s.cache)
    (hd : FollowsSchedule schedule d.fetchWindow) :
    ∃ cache, Sound schedule cache ∧
      ((¬ (parseShred P d.raw).IsPanic ∧
          ∃ reason, s.ingest C P d = .ok (⟨s.asm, cache⟩, [.rejected reason])) ∨
        s.ingest C P d = Listener.ingest C P (scheduledCall schedule d).leaders s.asm d.raw >>=
          withCache cache) := by
  cases hparse : parseShred P d.raw with
  | ok parsed =>
      obtain ⟨cache, answer, hquery, hs', hanswer⟩ :=
        hs.query (P := P) (q := ⟨parsed.header.slot, d.fetchWindow⟩) hd
      refine ⟨cache, hs', ?_⟩
      cases answer with
      | none =>
          refine Or.inl ⟨?_, s!"no leader for slot {parsed.header.slot}", ?_⟩
          · exact Exec.not_isPanic_ok parsed
          have hingest : s.ingest C P d =
              Listener.ingest C P (fun _ => none) s.asm d.raw >>= withCache cache :=
            HeliusAssembler.ingest_parsed hparse hquery
          rw [hingest]
          unfold Listener.ingest
          rw [hparse]
          rfl
      | some pk =>
          rw [hanswer pk rfl] at hquery
          exact Or.inr (ingest_parsed hparse hquery)
  | err e =>
      refine ⟨s.cache, hs, Or.inr (ingest_unparsed _ ?_)⟩
      intro parsed h
      rw [hparse] at h
      cases h
  | panic p =>
      refine ⟨s.cache, hs, Or.inr (ingest_unparsed _ ?_)⟩
      intro parsed h
      rw [hparse] at h
      cases h

/-- One datagram of a run. -/
theorem HeliusAssembler.ingest_step (hwf : WellFormed s.asm) (hs : Sound schedule s.cache)
    (hd : FollowsSchedule schedule d.fetchWindow) :
    ((s.ingest C P d).IsPanic ↔ (parseShred P d.raw).IsPanic) ∧
      ∀ s' es, s.ingest C P d = .ok (s', es) → WellFormed s'.asm ∧ Sound schedule s'.cache ∧
        ((s'.asm = s.asm ∧ ∃ reason, es = [.rejected reason]) ∨
          Listener.ingest C P (scheduledCall schedule d).leaders s.asm d.raw =
            .ok (s'.asm, es)) := by
  obtain ⟨cache, hs', ⟨hparse, reason, hlost⟩ | hsame⟩ :=
    HeliusAssembler.ingest_scheduled (C := C) (P := P) hs hd
  · rw [hlost]
    refine ⟨⟨fun h => absurd h (Exec.not_isPanic_ok _), fun h => absurd h hparse⟩, ?_⟩
    intro s' es h
    cases h
    exact ⟨hwf, hs', Or.inl ⟨rfl, reason, rfl⟩⟩
  · have hpanic : (Listener.ingest C P (scheduledCall schedule d).leaders s.asm d.raw).IsPanic ↔
        (parseShred P d.raw).IsPanic := ingest_isPanic_iff hwf
    rw [hsame, ← hpanic]
    cases hrun : Listener.ingest C P (scheduledCall schedule d).leaders s.asm d.raw with
    | err e => exact e.elim
    | panic p =>
        refine ⟨⟨fun _ => Exec.isPanic_panic p, fun _ => Exec.isPanic_panic p⟩, ?_⟩
        intro s' es h
        cases h
    | ok r =>
        refine ⟨⟨fun h => absurd h (Exec.not_isPanic_ok _), fun h => absurd h
          (Exec.not_isPanic_ok _)⟩, ?_⟩
        intro s' es h
        cases h
        exact ⟨ingest_wellFormed hwf hrun, hs', Or.inr rfl⟩

/-! ## Runs -/

theorem HeliusAssembler.ingestAll_isPanic_iff (hwf : WellFormed s.asm)
    (hs : Sound schedule s.cache) (hds : ∀ d ∈ ds, FollowsSchedule schedule d.fetchWindow) :
    (s.ingestAll C P ds).IsPanic ↔
      P.overflowChecks = true ∧ ∃ d ∈ ds, IndexUnderflow d.raw := by
  induction ds generalizing s with
  | nil =>
      constructor
      · intro h
        exact absurd h (Exec.not_isPanic_ok _)
      · rintro ⟨_, d, hd, _⟩
        exact absurd hd List.not_mem_nil
  | cons d ds ih =>
      obtain ⟨hpanic, hok⟩ := HeliusAssembler.ingest_step (C := C) (P := P) hwf hs
        (hds d List.mem_cons_self)
      rw [parseShred_isPanic_iff] at hpanic
      have hrest := fun d' hd' => hds d' (List.mem_cons_of_mem d hd')
      unfold HeliusAssembler.ingestAll
      cases hrun : s.ingest C P d with
      | err e => exact e.elim
      | panic p =>
          rw [hrun] at hpanic
          obtain ⟨hund, hP⟩ := hpanic.mp (Exec.isPanic_panic p)
          exact ⟨fun _ => ⟨hP, d, List.mem_cons_self, hund⟩, fun _ => Exec.isPanic_panic p⟩
      | ok r =>
          obtain ⟨s', es⟩ := r
          obtain ⟨hwf', hs', _⟩ := hok s' es hrun
          have hhead : P.overflowChecks = true → ¬ IndexUnderflow d.raw := by
            intro hP hund
            rw [hrun] at hpanic
            exact absurd (hpanic.mpr ⟨hund, hP⟩) (Exec.not_isPanic_ok _)
          have htail : ((Exec.ok (s', es) : Exec Empty _) >>= fun r =>
              r.1.ingestAll C P ds >>= fun r' => Exec.ok (r'.1, r.2 ++ r'.2)).IsPanic ↔
                (s'.ingestAll C P ds).IsPanic := by
            rw [Exec.ok_bind]
            cases s'.ingestAll C P ds with
            | err e => exact e.elim
            | panic p => exact Iff.rfl
            | ok r' => simp
          refine htail.trans ((ih hwf' hs' hrest).trans ?_)
          constructor
          · rintro ⟨hP, d', hd', hund⟩
            exact ⟨hP, d', List.mem_cons_of_mem d hd', hund⟩
          · rintro ⟨hP, d', hd', hund⟩
            rcases List.mem_cons.mp hd' with rfl | hd'
            · exact absurd hund (hhead hP)
            · exact ⟨hP, d', hd', hund⟩

theorem HeliusAssembler.ingestAll_kept (hwf : WellFormed s.asm) (hs : Sound schedule s.cache)
    (hds : ∀ d ∈ ds, FollowsSchedule schedule d.fetchWindow) {s' : HeliusAssembler}
    {es : List FecEvent} (hrun : s.ingestAll C P ds = .ok (s', es)) :
    ∃ (kept : List Datagram) (es' : List FecEvent), kept.Sublist ds ∧
      Listener.ingestAll C P s.asm (kept.map (scheduledCall schedule)) = .ok (s'.asm, es') ∧
      ∀ p : FecEvent → Bool, (∀ r, p (.rejected r) = false) → es.filter p = es'.filter p := by
  induction ds generalizing s es with
  | nil =>
      cases hrun
      exact ⟨[], [], List.Sublist.refl [], rfl, fun _ _ => rfl⟩
  | cons d ds ih =>
      obtain ⟨_, hok⟩ := HeliusAssembler.ingest_step (C := C) (P := P) hwf hs
        (hds d List.mem_cons_self)
      obtain ⟨⟨s₁, es₁⟩, hd, hrun⟩ := Exec.bind_eq_ok.mp hrun
      obtain ⟨⟨s₂, rest⟩, hrest, hrun⟩ := Exec.bind_eq_ok.mp hrun
      cases hrun
      obtain ⟨hwf₁, hs₁, hstep⟩ := hok s₁ es₁ hd
      obtain ⟨kept, es', hsub, hkept, hfilter⟩ :=
        ih hwf₁ hs₁ (fun d' hd' => hds d' (List.mem_cons_of_mem d hd')) hrest
      rcases hstep with ⟨hsame, reason, rfl⟩ | hstep
      · refine ⟨kept, es', hsub.cons d, ?_, ?_⟩
        · rw [← hsame]
          exact hkept
        · intro p hp
          rw [List.filter_append, List.filter_cons_of_neg (by rw [hp]; exact Bool.false_ne_true),
            List.filter_nil, List.nil_append, hfilter p hp]
      · refine ⟨d :: kept, es₁ ++ es', hsub.cons_cons d, ?_, ?_⟩
        · show (Listener.ingest C P (scheduledCall schedule d).leaders s.asm d.raw >>= _) = _
          rw [hstep, Exec.ok_bind]
          show (Listener.ingestAll C P s₁.asm (kept.map (scheduledCall schedule)) >>= _) = _
          rw [hkept]
          rfl
        · intro p hp
          rw [List.filter_append, List.filter_append, hfilter p hp]

/-! ## Panics -/

/-- **The resolver adds no panic.** An RPC within the schedule is never asked to
write past the last slot, whatever slot a datagram names. -/
theorem helius_panics_iff (C : Crates) (P : Profile) (schedule : UInt64 → Bytes 32)
    (ds : List Datagram) (hds : ∀ d ∈ ds, FollowsSchedule schedule d.fetchWindow) :
    (HeliusAssembler.new.ingestAll C P ds).IsPanic ↔
      P.overflowChecks = true ∧ ∃ d ∈ ds, IndexUnderflow d.raw :=
  HeliusAssembler.ingestAll_isPanic_iff wellFormed_new sound_empty hds

theorem helius_panics_iff_underflowing : (HeliusAssembler.new.ingestAll (referenceCrates sha256)
    ⟨true⟩ [⟨fullWindow sampleSchedule, []⟩, ⟨fullWindow sampleSchedule, underflowing⟩]).IsPanic := by
  refine (helius_panics_iff _ ⟨true⟩ sampleSchedule _ ?_).mpr
    ⟨rfl, ⟨fullWindow sampleSchedule, underflowing⟩,
      List.mem_cons_of_mem _ (List.mem_singleton_self _), indexUnderflow_underflowing⟩
  intro d hd
  simp only [List.mem_cons, List.not_mem_nil, or_false] at hd
  rcases hd with rfl | rfl
  · exact fullWindow_follows
  · exact fullWindow_follows

/-! ## Until the cache is full -/

/-- The RPC answers every call, with no more leaders than it is asked for. -/
def Answering (fetchWindow : FetchWindow) : Prop :=
  ∀ start, ∃ leaders, fetchWindow start batchSize = .ok leaders ∧ leaders ≠ [] ∧
    leaders.length ≤ batchSize.toNat

/-- The slots asked for are cached, and what else is cached came with them. -/
structure Room (slots : Finset UInt64) (cache : HeliusLeaderResolver.Cache) : Prop where
  cached : slots ⊆ cache.keys
  card_le : cache.keys.card ≤ 1000 * slots.card

theorem room_empty : Room ∅ ∅ where
  cached := Finset.empty_subset _
  card_le := by
    rw [Finmap.keys_empty, Finset.card_empty]

/-- With room for one more window every slot is answered. -/
theorem Room.query {slots : Finset UInt64} {cache : HeliusLeaderResolver.Cache}
    {fetchWindow : FetchWindow} {slot : UInt64} (h : Room slots cache) (hs : Sound schedule cache)
    (hfollows : FollowsSchedule schedule fetchWindow) (hanswers : Answering fetchWindow)
    (hcard : (insert slot slots).card ≤ 100) :
    ∃ cache', leaderForSlot P fetchWindow slot cache = .ok (cache', some (schedule slot)) ∧
      Room (insert slot slots) cache' ∧ Sound schedule cache' := by
  cases hlookup : cache.lookup slot with
  | some pk =>
      refine ⟨cache, ?_, ⟨?_, ?_⟩, hs⟩
      · rw [leaderForSlot_cached hlookup, hs.scheduled hlookup]
      · apply Finset.insert_subset _ h.cached
        rw [Finmap.mem_keys, ← Finmap.lookup_isSome, hlookup, Option.isSome_some]
      · apply h.card_le.trans
        exact Nat.mul_le_mul_left _ (Finset.card_le_card (Finset.subset_insert _ _))
  | none =>
      obtain ⟨leaders, hfetch, hne, hlength⟩ := hanswers slot
      have hlength : leaders.length ≤ 1000 := hlength
      obtain ⟨filled, hfilled, hrun⟩ :=
        leaderForSlot_fetched (P := P) hfollows hlookup hfetch
      have hmiss : slot ∉ slots := by
        intro hin
        have hin := h.cached hin
        rw [Finmap.mem_keys, ← Finmap.lookup_isSome, hlookup] at hin
        cases hin
      rw [Finset.card_insert_of_notMem hmiss] at hcard
      have hslot : slot ∈ window slot leaders.length := by
        have hpos := List.length_pos_of_ne_nil hne
        exact (mem_window hfilled.fits).mpr ⟨le_rfl, Nat.lt_add_of_pos_right hpos⟩
      have hkeys : filled.keys.card ≤ 1000 * (slots.card + 1) := by
        rw [hfilled.keys_eq]
        apply (Finset.card_union_le _ _).trans
        rw [card_window hfilled.fits, Nat.mul_add, Nat.add_comm]
        exact Nat.add_le_add h.card_le hlength
      have hfits : filled.keys.card ≤ maxCacheEntries :=
        hkeys.trans (Nat.mul_le_mul_left 1000 hcard)
      have hs' := hs.evict hfilled
      rw [evict_of_card_le hfits] at hrun hs'
      rw [hfilled.lookup_eq, if_pos hslot] at hrun
      refine ⟨filled, hrun, ⟨?_, ?_⟩, hs'⟩
      · rw [hfilled.keys_eq]
        apply Finset.insert_subset (Finset.mem_union_left _ hslot)
        exact h.cached.trans Finset.subset_union_right
      · rw [Finset.card_insert_of_notMem hmiss]
        exact hkeys

/-- The slot a datagram names, where it is parsed. -/
def slotNamed (P : Profile) (d : Datagram) : Option UInt64 :=
  match parseShred P d.raw with
  | .ok parsed => some parsed.header.slot
  | _ => none

/-- The slots named by datagrams, beside `slots`. -/
def slotsNamed (P : Profile) (ds : List Datagram) : Finset UInt64 :=
  (ds.filterMap (slotNamed P)).toFinset

theorem slotsNamed_cons {slots : Finset UInt64} {parsed : ParsedShred}
    (h : parseShred P d.raw = .ok parsed) : slotsNamed P (d :: ds) ∪ slots =
      slotsNamed P ds ∪ insert parsed.header.slot slots := by
  have hslot : slotNamed P d = some parsed.header.slot := by
    rw [slotNamed, h]
  rw [slotsNamed, List.filterMap_cons_some hslot, List.toFinset_cons, Finset.insert_union,
    ← Finset.union_insert]
  rfl

theorem slotsNamed_cons_unparsed (h : ∀ parsed, parseShred P d.raw ≠ .ok parsed) :
    slotsNamed P (d :: ds) = slotsNamed P ds := by
  have hslot : slotNamed P d = none := by
    unfold slotNamed
    split
    · rename_i parsed hparse
      exact absurd hparse (h parsed)
    · rfl
  rw [slotsNamed, List.filterMap_cons_none hslot]
  rfl

theorem HeliusAssembler.ingest_room {slots : Finset UInt64} (hroom : Room slots s.cache)
    (hs : Sound schedule s.cache)
    (hd : FollowsSchedule schedule d.fetchWindow ∧ Answering d.fetchWindow)
    (hcard : (slotsNamed P (d :: ds) ∪ slots).card ≤ 100) :
    ∃ slots' cache, Room slots' cache ∧ Sound schedule cache ∧
      (slotsNamed P ds ∪ slots').card ≤ 100 ∧ s.ingest C P d =
        Listener.ingest C P (scheduledCall schedule d).leaders s.asm d.raw >>= withCache cache := by
  by_cases hparse : ∃ parsed, parseShred P d.raw = .ok parsed
  · obtain ⟨parsed, hparse⟩ := hparse
    rw [slotsNamed_cons hparse] at hcard
    obtain ⟨cache, hquery, hroom', hs'⟩ := hroom.query (P := P) hs hd.1 hd.2
      ((Finset.card_le_card Finset.subset_union_right).trans hcard)
    exact ⟨_, cache, hroom', hs', hcard, ingest_parsed hparse hquery⟩
  · have hparse : ∀ parsed, parseShred P d.raw ≠ .ok parsed := not_exists.mp hparse
    rw [slotsNamed_cons_unparsed hparse] at hcard
    exact ⟨slots, s.cache, hroom, hs, hcard, ingest_unparsed _ hparse⟩

theorem HeliusAssembler.ingestAll_room {slots : Finset UInt64} (hroom : Room slots s.cache)
    (hs : Sound schedule s.cache)
    (hds : ∀ d ∈ ds, FollowsSchedule schedule d.fetchWindow ∧ Answering d.fetchWindow)
    (hcard : (slotsNamed P ds ∪ slots).card ≤ 100) :
    (s.ingestAll C P ds >>= fun r => .ok (r.1.asm, r.2)) =
      Listener.ingestAll C P s.asm (ds.map (scheduledCall schedule)) := by
  induction ds generalizing s slots with
  | nil => rfl
  | cons d ds ih =>
      obtain ⟨slots', cache, hroom', hs', hcard', hingest⟩ :=
        HeliusAssembler.ingest_room (C := C) hroom hs (hds d List.mem_cons_self) hcard
      show ((s.ingest C P d >>= _) >>= _) =
        (Listener.ingest C P (scheduledCall schedule d).leaders s.asm d.raw >>= _)
      rw [hingest]
      cases Listener.ingest C P (scheduledCall schedule d).leaders s.asm d.raw with
      | err e => exact e.elim
      | panic p => rfl
      | ok r =>
          obtain ⟨a, es⟩ := r
          have hrest := ih (s := ⟨a, cache⟩) hroom' hs'
            (fun d' hd' => hds d' (List.mem_cons_of_mem d hd')) hcard'
          show ((HeliusAssembler.ingestAll C P ⟨a, cache⟩ ds >>= _) >>= _) =
            (Listener.ingestAll C P a (ds.map (scheduledCall schedule)) >>= _)
          rw [← hrest]
          cases HeliusAssembler.ingestAll C P ⟨a, cache⟩ ds with
          | err e => exact e.elim
          | panic p => rfl
          | ok r => rfl

/-- **Until the cache is full the resolver does not show.** As long as the RPC
answers and the datagrams name at most a hundred slots, every run is, panics
included, the run of a listener that knows the schedule. -/
theorem resolver_invisible (C : Crates) (P : Profile) (schedule : UInt64 → Bytes 32)
    (ds : List Datagram)
    (hds : ∀ d ∈ ds, FollowsSchedule schedule d.fetchWindow ∧ Answering d.fetchWindow)
    (hcard : (slotsNamed P ds).card ≤ 100) :
    (HeliusAssembler.new.ingestAll C P ds >>= fun r => .ok (r.1.asm, r.2)) =
      ingestAll C P .new (ds.map (scheduledCall schedule)) := by
  apply HeliusAssembler.ingestAll_room room_empty sound_empty hds
  rw [Finset.union_empty]
  exact hcard

theorem fullWindow_answering : Answering (fullWindow schedule) := by
  intro start
  refine ⟨_, rfl, ?_, ?_⟩
  · intro h
    have hlength := congrArg List.length h
    have hlt := start.toNat_lt
    rw [List.length_map, List.length_range, List.length_nil,
      show batchSize.toNat = 1000 from rfl] at hlength
    omega
  · rw [List.length_map, List.length_range]
    exact Nat.min_le_left _ _

/-- The data shreds of a set, sent to a listener whose RPC knows the set's leader. -/
theorem exists_scheduledRun : ∃ (schedule : UInt64 → Bytes 32) (ds : List Datagram)
    (s : HeliusAssembler) (es : List FecEvent) (key : FecKey) (root : Bytes 32) (das : ℚ),
    (∀ d ∈ ds, d.fetchWindow = fullWindow schedule) ∧ ds.length = 32 ∧
      HeliusAssembler.new.ingestAll (referenceCrates sha256) ⟨true⟩ ds = .ok (s, es) ∧
      .reconstructed key root das ∈ es := by
  obtain ⟨B, a, es, _, hrun, hrec⟩ := exists_sampleRun 64 0xc0 (by decide)
  obtain ⟨root, hroot⟩ := (run_wellFormed hrun).root (stateOf_eq_of_reconstructed hrec)
  obtain ⟨das, hmem⟩ := (run_reconstructed hrun).mpr ⟨hrec, hroot⟩
  let schedule : UInt64 → Bytes 32 := fun _ =>
    (referenceCrates sha256).verifyingKey B.alone.signingKey
  let ds : List Datagram := (halfOf 0 0).map fun i => ⟨fullWindow schedule, (B.alone.call i).raw⟩
  have hlength : ds.length = 32 := by
    rw [List.length_map, halfOf, List.length_map, List.length_finRange]
  have hfull : ∀ d ∈ ds, d.fetchWindow = fullWindow schedule := by
    intro d hd
    obtain ⟨i, _, rfl⟩ := List.mem_map.mp hd
    rfl
  have hcalls : ds.map (scheduledCall schedule) = (halfOf 0 0).map B.alone.call := by
    rw [List.map_map]
    rfl
  have hsame : (HeliusAssembler.new.ingestAll (referenceCrates sha256) ⟨true⟩ ds >>=
      fun r => .ok (r.1.asm, r.2)) = Listener.ingestAll (referenceCrates sha256) ⟨true⟩ .new
        (ds.map (scheduledCall schedule)) := by
    apply HeliusAssembler.ingestAll_room room_empty sound_empty
    · intro d hd
      rw [hfull d hd]
      exact ⟨fullWindow_follows, fullWindow_answering⟩
    · rw [Finset.union_empty]
      apply (List.toFinset_card_le _).trans
      apply (List.length_filterMap_le _ _).trans
      rw [hlength]
      decide
  rw [hcalls, hrun] at hsame
  obtain ⟨⟨s, es'⟩, hhelius, heq⟩ := Exec.bind_eq_ok.mp hsame
  have hes : es' = es := congrArg Prod.snd (Exec.ok.inj heq)
  rw [hes] at hhelius
  exact ⟨schedule, ds, s, es, _, root, das, hfull, hlength, hhelius, hmem⟩

theorem resolver_invisible_scheduled : ∃ (schedule : UInt64 → Bytes 32) (ds : List Datagram)
    (a : FecAssembler) (es : List FecEvent) (key : FecKey) (root : Bytes 32) (das : ℚ),
    ingestAll (referenceCrates sha256) ⟨true⟩ .new (ds.map (scheduledCall schedule)) =
      .ok (a, es) ∧ .reconstructed key root das ∈ es := by
  obtain ⟨schedule, ds, s, es, key, root, das, hfull, hlength, hrun, hmem⟩ := exists_scheduledRun
  refine ⟨schedule, ds, s.asm, es, key, root, das, ?_, hmem⟩
  rw [← resolver_invisible (referenceCrates sha256) ⟨true⟩ schedule ds ?_ ?_, hrun]
  · rfl
  · intro d hd
    rw [hfull d hd]
    exact ⟨fullWindow_follows, fullWindow_answering⟩
  · apply (List.toFinset_card_le _).trans
    apply (List.length_filterMap_le _ _).trans
    rw [hlength]
    decide

/-! ## Leaders that are not known -/

/-- **A leader that is not known is a datagram lost.** Whatever is cached, evicted
or fetched in vain on the way, the assembler is that of a listener that knows
the schedule and lost some of the datagrams, and every report is backed by
datagrams that the scheduled leaders signed. -/
theorem resolver_only_loses (C : Crates) (P : Profile) (schedule : UInt64 → Bytes 32)
    (ds : List Datagram) (hds : ∀ d ∈ ds, FollowsSchedule schedule d.fetchWindow)
    (s : HeliusAssembler) (es : List FecEvent)
    (hrun : HeliusAssembler.new.ingestAll C P ds = .ok (s, es)) :
    (∃ (kept : List Datagram) (es' : List FecEvent), kept.Sublist ds ∧
      ingestAll C P .new (kept.map (scheduledCall schedule)) = .ok (s.asm, es') ∧
      ∀ p : FecEvent → Bool, (∀ r, p (.rejected r) = false) → es.filter p = es'.filter p) ∧
    ∀ e ∈ es, e.Substantiated C P (ds.map (scheduledCall schedule)) := by
  obtain ⟨kept, es', hsub, hkept, hfilter⟩ :=
    HeliusAssembler.ingestAll_kept wellFormed_new sound_empty hds hrun
  refine ⟨⟨kept, es', hsub, hkept, hfilter⟩, ?_⟩
  have hback : ∀ e ∈ es, ∀ p : FecEvent → Bool, (∀ r, p (.rejected r) = false) → p e = true →
      e.Substantiated C P (ds.map (scheduledCall schedule)) := by
    intro e he p hp hpe
    have hin : e ∈ es'.filter p := by
      rw [← hfilter p hp]
      exact List.mem_filter.mpr ⟨he, hpe⟩
    apply (run_substantiated hkept e (List.mem_of_mem_filter hin)).mono
    intro c hc
    obtain ⟨d, hd, rfl⟩ := List.mem_map.mp hc
    exact List.mem_map.mpr ⟨d, hsub.subset hd, rfl⟩
  intro e he
  cases e with
  | started key root => trivial
  | shredAccepted key n i => trivial
  | rejected reason => trivial
  | reconstructed key root das => exact hback _ he FecEvent.isReconstructed (fun _ => rfl) rfl
  | slotFinalized slot roots slotRoot n conf =>
      exact hback _ he FecEvent.isSlotFinalized (fun _ => rfl) rfl

theorem resolver_only_loses_scheduled : ∃ (schedule : UInt64 → Bytes 32) (ds : List Datagram)
    (key : FecKey) (root : Bytes 32), Backed (referenceCrates sha256) ⟨true⟩
      (ds.map (scheduledCall schedule)) key root := by
  obtain ⟨schedule, ds, s, es, key, root, das, hfull, _, hrun, hmem⟩ := exists_scheduledRun
  obtain ⟨_, hbacked⟩ := resolver_only_loses (referenceCrates sha256) ⟨true⟩ schedule ds
    (fun d hd => by rw [hfull d hd]; exact fullWindow_follows) s es hrun
  exact ⟨schedule, ds, key, root, (hbacked _ hmem).2⟩

end Lattica.Listener
