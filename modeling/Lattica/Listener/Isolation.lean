import Lattica.Listener.Recovery

/-!
# Slots do not interfere

`only slot` forgets all other slots. A call whose datagram parses to the slot
commutes with it, whatever the assembler holds for other slots, and every other
call is invisible through it. So a run, seen from one slot, is the run of that
slot's datagrams.
-/

namespace Lattica.Listener

open Foundation Shred Reedsol

variable {C : Crates} {P : Profile} {a a' : FecAssembler} {es : List FecEvent} {slot : UInt64}

/-! ## One slot of the assembler -/

namespace FecAssembler

/-- The entries of one slot. -/
def only (slot : UInt64) (a : FecAssembler) : FecAssembler where
  states := fun key => if key.slot = slot then a.states key else none
  slots := fun s => if s = slot then a.slots s else none

variable (a) {key : FecKey} {st : FecState} {ss : SlotState}

theorem only_states (h : key.slot = slot) : (a.only slot).states key = a.states key := if_pos h

theorem only_slots : (a.only slot).slots slot = a.slots slot := if_pos rfl

theorem only_stateOf (h : key.slot = slot) : (a.only slot).stateOf key = a.stateOf key := by
  rw [stateOf, only_states a h, stateOf]

theorem only_slotOf : (a.only slot).slotOf slot = a.slotOf slot := by
  rw [slotOf, only_slots, slotOf]

theorem only_new : FecAssembler.new.only slot = .new := by
  unfold only new
  simp

theorem only_setState (h : key.slot = slot) :
    (a.setState key st).only slot = (a.only slot).setState key st := by
  unfold only setState
  congr 1
  funext k
  by_cases hk : k = key
  · subst hk
    simp [h]
  · simp [hk]

theorem only_setSlot : (a.setSlot slot ss).only slot = (a.only slot).setSlot slot ss := by
  unfold only setSlot
  congr 1
  funext s
  by_cases hs : s = slot
  · subst hs
    simp
  · simp [hs]

/-- Writing another slot is invisible. -/
theorem only_put_ne (h : key.slot ≠ slot) : (a.put key st ss).only slot = a.only slot := by
  unfold only
  congr 1
  · funext k
    by_cases hk : k.slot = slot
    · rw [if_pos hk, if_pos hk]
      exact put_states_ne a fun heq => h (by rw [← heq, hk])
    · rw [if_neg hk, if_neg hk]
  · funext s
    by_cases hs : s = slot
    · rw [if_pos hs, if_pos hs]
      exact put_slots_ne a fun heq => h (by rw [← heq, hs])
    · rw [if_neg hs, if_neg hs]

end FecAssembler

/-! ## A call on the slot -/

/-- The result of a call, its assembler seen from one slot. -/
def seenFrom {α : Type} (slot : UInt64) (r : FecAssembler × α) : Exec Empty (FecAssembler × α) :=
  .ok (r.1.only slot, r.2)

theorem collectSets_only (P : Profile) (a : FecAssembler) (slot : UInt64) :
    ∀ (is : List UInt32) (fecRoots : List (Bytes 32)) (total : ℕ) (undetect : ℚ),
      collectSets P (a.only slot) slot is fecRoots total undetect =
        collectSets P a slot is fecRoots total undetect
  | [], _, _, _ => rfl
  | i :: is, fecRoots, total, undetect => by
      have hstate : (a.only slot).states ⟨slot, i⟩ = a.states ⟨slot, i⟩ :=
        FecAssembler.only_states a rfl
      unfold collectSets
      rw [hstate]
      cases a.states ⟨slot, i⟩ with
      | none => rfl
      | some st =>
          cases hr : st.merkleRoot with
          | none => simp only [hr]
          | some root =>
              simp only [hr]
              congr 1
              funext total
              exact collectSets_only P a slot is _ _ _

/-- The end of `try_finalize_slot`, past its guards. -/
def reportSets (C : Crates) (P : Profile) (a : FecAssembler) (slot : UInt64) (is : List UInt32) :
    Exec Empty (FecAssembler × Option FecEvent) := do
  match ← collectSets P a slot is [] 0 1 with
  | none => return (a, none)
  | some (fecRoots, totalShreds, undetect) => do
      let slotRoot ← aggregateRoot C fecRoots
      return (a, some (.slotFinalized slot fecRoots slotRoot totalShreds (1 - undetect)))

theorem reportSets_only (a : FecAssembler) (slot : UInt64) (is : List UInt32) :
    reportSets C P (a.only slot) slot is = reportSets C P a slot is >>= seenFrom slot := by
  unfold reportSets
  rw [collectSets_only]
  cases collectSets P a slot is [] 0 1 with
  | err e => exact e.elim
  | panic p => rfl
  | ok r =>
      cases r with
      | none => rfl
      | some r =>
          simp only [Exec.ok_bind, aggregateRoot_eq]
          rfl

theorem tryFinalizeSlot_only (a : FecAssembler) (slot : UInt64) :
    tryFinalizeSlot C P (a.only slot) slot = tryFinalizeSlot C P a slot >>= seenFrom slot := by
  unfold tryFinalizeSlot
  rw [FecAssembler.only_slots]
  cases a.slots slot with
  | none => rfl
  | some ss =>
      -- every guard reads the slot's own entry, so both sides take the same branch
      simp only
      by_cases hfin : ss.finalized = true
      · rw [if_pos hfin, if_pos hfin]
        rfl
      · rw [if_neg hfin, if_neg hfin]
        by_cases hmark : (!ss.lastShredSeen) = true
        · rw [if_pos hmark, if_pos hmark]
          rfl
        · rw [if_neg hmark, if_neg hmark]
          cases ss.lastFecSetIndex with
          | none => rfl
          | some l =>
              simp only
              by_cases hany : ((indicesToCheck ss l).any
                fun i => !ss.reconstructedFecIndices.contains i) = true
              · rw [if_pos hany, if_pos hany]
                rfl
              · rw [if_neg hany, if_neg hany]
                by_cases hseen : (!ss.seenFecIndices.contains l) = true
                · rw [if_pos hseen, if_pos hseen]
                  rfl
                · rw [if_neg hseen, if_neg hseen]
                  -- the final slot is written before its sets are read
                  rw [← FecAssembler.only_setSlot]
                  exact reportSets_only _ slot _

theorem tryReconstruct_only (a : FecAssembler) {key : FecKey} (hkey : key.slot = slot)
    (st : FecState) (events : List FecEvent) :
    tryReconstruct C P (a.only slot) key st events =
      tryReconstruct C P a key st events >>= seenFrom slot := by
  subst hkey
  unfold tryReconstruct
  cases cloneShards st.shards with
  | err e => exact e.elim
  | panic p => rfl
  | ok shards =>
      simp only [Exec.ok_bind]
      cases reconstruct C shards with
      | error e => rfl
      | ok out =>
          simp only
          cases st.merkleRoot with
          | none => rfl
          | some root =>
              rw [← FecAssembler.only_setState a rfl, FecAssembler.only_slotOf,
                ← FecAssembler.only_setSlot, tryFinalizeSlot_only]
              generalize tryFinalizeSlot C P _ key.slot = r
              cases r with
              | err e => exact e.elim
              | panic p => rfl
              | ok r => rfl

theorem storeShard_only (a : FecAssembler) {key : FecKey} (hkey : key.slot = slot)
    (st : FecState) (idx : ℕ) (bytes : List UInt8) (events : List FecEvent) :
    storeShard C P (a.only slot) key st idx bytes events =
      storeShard C P a key st idx bytes events >>= seenFrom slot := by
  unfold storeShard
  by_cases hidx : idx ≥ shredsPerFec
  · rw [if_pos hidx, if_pos hidx]
    rfl
  · rw [if_neg hidx, if_neg hidx]
    cases st.shards[idx]? with
    | none => rfl
    | some s =>
        cases s with
        | some s => rfl
        | none =>
            simp only
            cases addU P 64 st.distinctSeen 1 with
            | err e => exact e.elim
            | panic p => rfl
            | ok n =>
                simp only [Exec.ok_bind]
                by_cases hmany : n ≥ dataShredsThreshold ∧ st.reconstructed = false
                · rw [if_pos hmany, if_pos hmany, ← FecAssembler.only_setState a hkey]
                  exact tryReconstruct_only _ hkey _ _
                · rw [if_neg hmany, if_neg hmany, ← FecAssembler.only_setState a hkey]
                  rfl

/-- **An admitted shred of the slot does not look at other slots.** -/
theorem ingestAdmitted_only (a : FecAssembler) {x : Admitted} (hx : x.key.slot = slot) :
    ingestAdmitted C P (a.only slot) x = ingestAdmitted C P a x >>= seenFrom slot := by
  subst hx
  unfold ingestAdmitted
  simp only [FecAssembler.only_stateOf a rfl, FecAssembler.only_slotOf]
  rw [← FecAssembler.only_setState a rfl, ← FecAssembler.only_setSlot]
  by_cases hrec : (a.stateOf x.key).reconstructed = true
  · rw [if_pos hrec, if_pos hrec, tryFinalizeSlot_only]
    generalize tryFinalizeSlot C P _ x.key.slot = r
    cases r with
    | err e => exact e.elim
    | panic p => rfl
    | ok r => rfl
  · rw [if_neg hrec, if_neg hrec]
    cases recordRoot x.key x.root (a.stateOf x.key) with
    | none => rfl
    | some r =>
        simp only
        rw [← FecAssembler.only_setState _ rfl]
        exact storeShard_only _ rfl _ _ _ _

/-! ## Which slot a datagram is for -/

/-- The datagram parses to the slot. -/
def parsesTo (P : Profile) (slot : UInt64) (raw : List UInt8) : Bool :=
  match parseShred P raw with
  | .ok parsed => parsed.header.slot = slot
  | _ => false

/-- What is admitted is of the slot the datagram parses to. -/
theorem parsesTo_of_gate {leaders : Leaders} {raw : List UInt8} {x : Admitted}
    (h : gate C P leaders raw = .ok (.ok x)) : parsesTo P slot raw = (x.key.slot = slot) := by
  obtain ⟨v, i, pk, _, hv, rfl⟩ := gate_eq_admitted h
  unfold parsesTo
  rw [parseShred_eq hv.decodes hv.full, hv.index]
  simp only [Exec.ok_bind, decide_eq_true_eq]
  rfl

theorem ingest_only (a : FecAssembler) {c : Call} (h : parsesTo P slot c.raw = true) :
    ingest C P c.leaders (a.only slot) c.raw = ingest C P c.leaders a c.raw >>= seenFrom slot := by
  rw [ingest_eq_gate, ingest_eq_gate]
  cases hgate : gate C P c.leaders c.raw with
  | err e => exact e.elim
  | panic p => rfl
  | ok r =>
      cases r with
      | error reason => rfl
      | ok x =>
          rw [parsesTo_of_gate hgate] at h
          exact ingestAdmitted_only a h

/-- A call on another slot is invisible. -/
theorem ingest_other (hwf : WellFormed a) {c : Call} (h : parsesTo P slot c.raw = false)
    (hc : ingest C P c.leaders a c.raw = .ok (a', es)) : a'.only slot = a.only slot := by
  rcases ingest_cases hwf hc with ⟨_, _, rfl, _⟩ | ⟨x, st, ss, hgate, rfl, _⟩
  · rfl
  · refine FecAssembler.only_put_ne a fun hslot => ?_
    have hto : parsesTo P slot c.raw = (x.key.slot = slot) := parsesTo_of_gate hgate
    rw [h] at hto
    exact absurd (hto.symm ▸ hslot) (by decide)

/-! ## Runs call by call -/

/-- A run that keeps apart what its calls returned. -/
def ingestEach (C : Crates) (P : Profile) :
    FecAssembler → List Call → Exec Empty (FecAssembler × List (Call × List FecEvent))
  | a, [] => .ok (a, [])
  | a, c :: cs => do
      let (a, events) ← ingest C P c.leaders a c.raw
      let (a, rest) ← ingestEach C P a cs
      return (a, (c, events) :: rest)

/-- The same run, its events in one list. -/
theorem ingestAll_eq_each : ∀ (cs : List Call) (a : FecAssembler), ingestAll C P a cs =
    ingestEach C P a cs >>= fun r => .ok (r.1, (r.2.map Prod.snd).flatten)
  | [], a => rfl
  | c :: cs, a => by
      unfold ingestAll ingestEach
      cases ingest C P c.leaders a c.raw with
      | err e => exact e.elim
      | panic p => rfl
      | ok r =>
          obtain ⟨a₁, events⟩ := r
          simp only [Exec.ok_bind]
          rw [ingestAll_eq_each cs a₁]
          cases ingestEach C P a₁ cs with
          | err e => exact e.elim
          | panic p => rfl
          | ok r => rfl

/-- The calls on the slot. -/
def callsOn (P : Profile) (slot : UInt64) (calls : List Call) : List Call :=
  calls.filter fun c => parsesTo P slot c.raw

/-- What the calls on the slot returned. -/
def eventsOn (P : Profile) (slot : UInt64) (tr : List (Call × List FecEvent)) :
    List (Call × List FecEvent) :=
  tr.filter fun p => parsesTo P slot p.1.raw

/-- **A run seen from a slot is the run of its calls.** -/
theorem ingestEach_only (slot : UInt64) : ∀ {calls : List Call} {a a' : FecAssembler}
    {tr : List (Call × List FecEvent)}, WellFormed a → ingestEach C P a calls = .ok (a', tr) →
      ingestEach C P (a.only slot) (callsOn P slot calls) =
        .ok (a'.only slot, eventsOn P slot tr)
  | [], a, a', tr, _, h => by
      cases h
      rfl
  | c :: calls, a, a', tr, hwf, h => by
      unfold ingestEach at h
      obtain ⟨⟨a₁, events⟩, hc, h⟩ := Exec.bind_eq_ok.mp h
      obtain ⟨⟨a₂, rest⟩, hrest, h⟩ := Exec.bind_eq_ok.mp h
      cases h
      have ih := ingestEach_only slot (ingest_wellFormed hwf hc) hrest
      by_cases hto : parsesTo P slot c.raw = true
      · have hcalls : callsOn P slot (c :: calls) = c :: callsOn P slot calls :=
          List.filter_cons_of_pos hto
        have htr : eventsOn P slot ((c, events) :: rest) = (c, events) :: eventsOn P slot rest :=
          List.filter_cons_of_pos hto
        rw [hcalls, htr, ingestEach, ingest_only a hto, hc]
        simp only [Exec.ok_bind, seenFrom]
        rw [ih]
        rfl
      · have hcalls : callsOn P slot (c :: calls) = callsOn P slot calls :=
          List.filter_cons_of_neg hto
        have htr : eventsOn P slot ((c, events) :: rest) = eventsOn P slot rest :=
          List.filter_cons_of_neg hto
        rw [hcalls, htr, ← ingest_other hwf (Bool.eq_false_iff.mpr hto) hc]
        exact ih

/-- **Slots do not interfere**: what a slot is told, and what is kept of it, are
those of the run of its own calls, so of any interleaving with other slots. -/
theorem slots_do_not_interfere (C : Crates) (P : Profile) (slot : UInt64) (calls : List Call)
    (a : FecAssembler) (tr : List (Call × List FecEvent))
    (h : ingestEach C P .new calls = .ok (a, tr)) :
    (∃ b, ingestEach C P .new (callsOn P slot calls) = .ok (b, eventsOn P slot tr) ∧
      (∀ i, b.states ⟨slot, i⟩ = a.states ⟨slot, i⟩) ∧ b.slots slot = a.slots slot) ∧
    ∀ calls' a' tr', callsOn P slot calls' = callsOn P slot calls →
      ingestEach C P .new calls' = .ok (a', tr') → eventsOn P slot tr' = eventsOn P slot tr ∧
        (∀ i, a'.states ⟨slot, i⟩ = a.states ⟨slot, i⟩) ∧ a'.slots slot = a.slots slot := by
  have hrun := ingestEach_only slot wellFormed_new h
  rw [FecAssembler.only_new] at hrun
  have hstates : ∀ i, (a.only slot).states ⟨slot, i⟩ = a.states ⟨slot, i⟩ :=
    fun i => FecAssembler.only_states a rfl
  refine ⟨⟨_, hrun, hstates, FecAssembler.only_slots a⟩, ?_⟩
  intro calls' a' tr' hcalls h'
  have hrun' := ingestEach_only slot wellFormed_new h'
  rw [FecAssembler.only_new, hcalls, hrun] at hrun'
  obtain ⟨hsame, htr⟩ := Prod.mk.inj (Exec.ok.inj hrun')
  refine ⟨htr.symm, fun i => ?_, ?_⟩
  · rw [← hstates i, hsame]
    exact (FecAssembler.only_states a' rfl).symm
  · rw [← FecAssembler.only_slots a, hsame]
    exact (FecAssembler.only_slots a').symm

/-- The same deliveries of two sets, in turn. -/
def inTurn (B B' : BuiltSet C P) (ds : List (Fin 1 × Fin 64)) : List Call :=
  ds.flatMap fun d => [B.alone.call d, B'.alone.call d]

theorem BuiltSet.parsesTo_call (B : BuiltSet C P) (hC : C.AcceptsHonestSignatures)
    (slot : UInt64) (d : Fin 1 × Fin 64) :
    parsesTo P slot (B.alone.call d).raw = decide (B.params.slot = slot) := by
  have hto : parsesTo P slot (B.alone.call d).raw = ((B.alone.admission d).key.slot = slot) :=
    parsesTo_of_gate (B.alone.gate_call hC d)
  rw [SlotSets.admission, BuiltSet.admit_key] at hto
  rw [Bool.eq_iff_iff, hto, decide_eq_true_eq]
  rfl

/-- Of the shreds in turn, those of a set are the ones on its slot. -/
theorem callsOn_inTurn (hC : C.AcceptsHonestSignatures) (B B' : BuiltSet C P)
    (ds : List (Fin 1 × Fin 64)) (hne : B'.params.slot ≠ B.params.slot) :
    callsOn P B.params.slot (inTurn B B' ds) = ds.map B.alone.call ∧
      callsOn P B'.params.slot (inTurn B B' ds) = ds.map B'.alone.call := by
  rw [callsOn, callsOn, inTurn, List.filter_flatMap, List.filter_flatMap, List.map_eq_flatMap,
    List.map_eq_flatMap]
  constructor
  · congr 1
    funext d
    simp [BuiltSet.parsesTo_call _ hC, hne]
  · congr 1
    funext d
    simp [BuiltSet.parsesTo_call _ hC, hne.symm]

theorem exists_inTurnRun (hC : C.AcceptsHonestSignatures) (B B' : BuiltSet C P)
    (ds : List (Fin 1 × Fin 64)) :
    ∃ a tr, ingestEach C P .new (inTurn B B' ds) = .ok (a, tr) := by
  have hadmits : ∀ c ∈ inTurn B B' ds, ∃ x, gate C P c.leaders c.raw = .ok (.ok x) := by
    intro c hc
    obtain ⟨d, _, hc⟩ := List.mem_flatMap.mp hc
    rw [List.mem_pair] at hc
    rcases hc with rfl | rfl
    · exact ⟨_, B.alone.gate_call hC d⟩
    · exact ⟨_, B'.alone.gate_call hC d⟩
  obtain ⟨a, es, hrun⟩ := run_of_admits hadmits
  rw [ingestAll_eq_each, Exec.bind_eq_ok] at hrun
  obtain ⟨⟨a', tr⟩, heach, _⟩ := hrun
  exact ⟨a', tr, heach⟩

/-- The data shreds of a set alone reconstruct it. -/
theorem BuiltSet.reconstructed_of_halfRun (B : BuiltSet (referenceCrates sha256) ⟨true⟩)
    {tr : List (Call × List FecEvent)} (h : ingestEach (referenceCrates sha256) ⟨true⟩ .new
      ((halfOf 0 0).map B.alone.call) = .ok (a, tr)) : (a.stateOf B.key).reconstructed = true := by
  obtain ⟨a', es, hrun, hrec⟩ := B.exists_halfRun
  rw [ingestAll_eq_each, h] at hrun
  cases hrun
  exact hrec

/-- The data shreds of two slots in turn: both sets are reconstructed, as by themselves. -/
theorem slots_do_not_interfere_in_turn : ∃ (B B' : BuiltSet (referenceCrates sha256) ⟨true⟩)
    (a b b' : FecAssembler) (tr : List (Call × List FecEvent)),
    ingestEach (referenceCrates sha256) ⟨true⟩ .new (inTurn B B' (halfOf 0 0)) = .ok (a, tr) ∧
      ingestEach (referenceCrates sha256) ⟨true⟩ .new ((halfOf 0 0).map B.alone.call) =
        .ok (b, eventsOn ⟨true⟩ 0 tr) ∧
      ingestEach (referenceCrates sha256) ⟨true⟩ .new ((halfOf 0 0).map B'.alone.call) =
        .ok (b', eventsOn ⟨true⟩ 1 tr) ∧
      (a.stateOf ⟨0, 64⟩).reconstructed = true ∧ (a.stateOf ⟨1, 64⟩).reconstructed = true := by
  have hC : (referenceCrates sha256).AcceptsHonestSignatures :=
    referenceCrates_acceptsHonestSignatures
  obtain ⟨B, hB⟩ := exists_builtSet (sampleParams sha256 64 0xc0) (by decide)
  obtain ⟨B', hB'⟩ := exists_builtSet { sampleParams sha256 64 0xc0 with slot := 1 } (by decide)
  have hslot : B.params.slot = 0 := congrArg FecSetParams.slot hB
  have hslot' : B'.params.slot = 1 := congrArg FecSetParams.slot hB'
  have hkey : B.key = ⟨0, 64⟩ := by rw [BuiltSet.key, hB, sampleParams]
  have hkey' : B'.key = ⟨1, 64⟩ := by rw [BuiltSet.key, hB', sampleParams]
  obtain ⟨a, tr, heach⟩ := exists_inTurnRun hC B B' (halfOf 0 0)
  obtain ⟨hon, hon'⟩ := callsOn_inTurn hC B B' (halfOf 0 0) (by rw [hslot, hslot']; decide)
  rw [hslot] at hon
  rw [hslot'] at hon'
  obtain ⟨⟨b, hb, hstates, _⟩, _⟩ := slots_do_not_interfere _ ⟨true⟩ 0 _ a tr heach
  obtain ⟨⟨b', hb', hstates', _⟩, _⟩ := slots_do_not_interfere _ ⟨true⟩ 1 _ a tr heach
  rw [hon] at hb
  rw [hon'] at hb'
  have hrec := B.reconstructed_of_halfRun hb
  have hrec' := B'.reconstructed_of_halfRun hb'
  rw [hkey, FecAssembler.stateOf, hstates 64] at hrec
  rw [hkey', FecAssembler.stateOf, hstates' 64] at hrec'
  exact ⟨B, B', a, b, b', tr, heach, hb, hb', hrec, hrec'⟩

end Lattica.Listener
