import Lattica.Listener.Recovery

/-!
# Replays

A datagram that was already ingested finds everything it could do done: its set
is in its slot, the marker is at its set or past it, its position is taken or its
set closed, and no prefix was ready that was not reported (`Tracks.waiting`). So
the assembler stays as it is, and at most a rejection comes back.
-/

namespace Lattica.Listener

open Foundation Shred Reedsol

variable {C : Crates} {P : Profile} {a : FecAssembler} {x : Admitted} {st : FecState}
  {ss : SlotState} {es : List FecEvent}

/-- Writing back what is there changes nothing. -/
theorem FecAssembler.put_self {key : FecKey} (hst : a.states key = some st)
    (hss : a.slots key.slot = some ss) : a.put key st ss = a := by
  rw [FecAssembler.put, FecAssembler.setState, ← hst, Function.update_eq_self]
  exact FecAssembler.setSlot_self a hss

/-- Bookkeeping of a shred the slot has already booked. -/
theorem bookkeep_self {v : VerifiedShred} (hseen : v.fecSetIndex ∈ ss.seenFecIndices)
    (hmark : v.isLastInSlot = true →
      ss.lastShredSeen = true ∧ ∃ l, ss.lastFecSetIndex = some l ∧ v.fecSetIndex ≤ l) :
    bookkeep v ss = ss := by
  have hins : ss.seenFecIndices.insert v.fecSetIndex = ss.seenFecIndices :=
    SortedSet.insert_of_mem hseen
  unfold bookkeep
  rw [hins]
  by_cases hlast : v.isLastInSlot = true
  · rw [if_pos hlast]
    obtain ⟨hflag, l, hl, hle⟩ := hmark hlast
    have hmax : max l v.fecSetIndex = l := by
      rcases max_index l v.fecSetIndex with ⟨heq, _⟩ | ⟨heq, hle'⟩
      · exact heq
      · rw [heq]
        exact UInt32.le_antisymm hle hle'
    simp only [hl, hmax]
    rw [← hflag, ← hl]
  · rw [if_neg hlast]

section Again

variable {H : List Admitted} (hwf : WellFormed a) (ht : Tracks C H a) (hx : x ∈ H)

include hwf ht hx

theorem Tracks.booked_self : booked a x = a.slotOf x.key.slot := by
  refine bookkeep_self ((hwf.seen _ _).mpr ((ht.touched x.key).mpr ⟨x, hx, rfl⟩)) fun hlast => ?_
  obtain ⟨l, hl, hle⟩ := ht.marker_le hx hlast
  refine ⟨?_, l, hl, hle⟩
  rw [hwf.marker, hl]
  rfl

/-- The entries of an admitted shred are in the maps. -/
theorem Tracks.entries : a.states x.key = some (a.stateOf x.key) ∧
    a.slots x.key.slot = some (a.slotOf x.key.slot) := by
  obtain ⟨st, hst⟩ := (ht.touched x.key).mpr ⟨x, hx, rfl⟩
  have hseen : x.key.fecSetIndex ∈ (a.slotOf x.key.slot).seenFecIndices :=
    (hwf.seen _ _).mpr ⟨st, hst⟩
  refine ⟨by rw [FecAssembler.stateOf, hst, Option.getD_some], ?_⟩
  unfold FecAssembler.slotOf at hseen ⊢
  cases hs : a.slots x.key.slot with
  | none =>
      rw [hs] at hseen
      exact absurd hseen (SortedSet.not_mem_empty _)
  | some ss => rfl

/-- The set of an admitted shred has a root, so nothing is started again. -/
theorem Tracks.rooted_self (hopen : Open a x) :
    rooted a x = a.stateOf x.key ∧ startEvents a x = [] := by
  obtain ⟨r, hr⟩ := hwf.root (ht.entries hwf hx).1
  have hroot := hopen.root r hr
  subst hroot
  refine ⟨?_, ?_⟩
  · rw [rooted, ← hr]
  · rw [startEvents, hr]

/-- The position of an admitted shred is not free in an open set. -/
theorem Tracks.not_free (hopen : Open a x) : ¬ Free a x := by
  intro hfree
  obtain ⟨r, hr⟩ := hwf.root (ht.entries hwf hx).1
  have hidx : x.idx < 64 := by
    rw [← hwf.stateOf_length x.key]
    exact (List.getElem?_eq_some_iff.mp hfree).1
  obtain ⟨s, hs⟩ := ht.kept hx hopen.pending (by rw [← ht.root, hr, hopen.root r hr]) hidx
  exact absurd (hfree.symm.trans hs) (by simp)

/-- **An admitted shred that comes again changes nothing.** -/
theorem Exit.again (hexit : Exit C a x st ss es) :
    a.put x.key st ss = a ∧ ∀ e ∈ es, e.isRejected = true := by
  obtain ⟨hst, hss⟩ := ht.entries hwf hx
  have hbooked := ht.booked_self hwf hx
  have hsame : a.put x.key (a.stateOf x.key) (booked a x) = a := by
    rw [hbooked]
    exact FecAssembler.put_self hst hss
  have hone : ∀ {reason : String}, ∀ e ∈ [FecEvent.rejected reason], e.isRejected = true := by
    intro reason e he
    rw [List.mem_singleton.mp he]
    rfl
  -- the exits before the store write back what is there; the store needs a free position
  cases hexit with
  | settled _ hc =>
      cases hc with
      | waiting _ => exact ⟨hsame, fun e he => absurd he List.not_mem_nil⟩
      | final hready =>
          rw [hbooked] at hready
          exact absurd hready (ht.waiting _)
  | diverges _ _ _ => exact ⟨hsame, hone⟩
  | outOfRange hopen _ =>
      obtain ⟨hrooted, hstart⟩ := ht.rooted_self hwf hx hopen
      rw [hrooted, hstart]
      exact ⟨hsame, hone⟩
  | duplicate hopen _ =>
      obtain ⟨hrooted, hstart⟩ := ht.rooted_self hwf hx hopen
      rw [hrooted, hstart]
      exact ⟨hsame, fun e he => absurd he List.not_mem_nil⟩
  | accepted hopen hfree _ => exact absurd hfree (ht.not_free hwf hx hopen)
  | failed hopen hfree _ _ => exact absurd hfree (ht.not_free hwf hx hopen)
  | recovered hopen hfree _ _ _ => exact absurd hfree (ht.not_free hwf hx hopen)

end Again

/-- A run that returned has passed the gate with each of its calls. -/
theorem gate_ok_of_run {calls : List Call} (h : ingestAll C P .new calls = .ok (a, es)) {c : Call}
    (hc : c ∈ calls) : ∃ r, gate C P c.leaders c.raw = .ok r := by
  obtain ⟨pre, post, rfl⟩ := List.append_of_mem hc
  rw [List.append_cons, ingestAll_append, Exec.bind_eq_ok] at h
  obtain ⟨⟨a₁, es₁⟩, hpre, _⟩ := h
  obtain ⟨a₀, es₀, es', _, hstep, _⟩ := ingestAll_snoc_eq_ok.mp hpre
  rw [ingest_eq_gate] at hstep
  obtain ⟨r, hgate, _⟩ := Exec.bind_eq_ok.mp hstep
  exact ⟨r, hgate⟩

/-- **Replays are harmless**, at any later point. -/
theorem replay_harmless (C : Crates) (P : Profile) (leaderForSlot : Leaders)
    (raws : List (List UInt8)) (a : FecAssembler) (es : List FecEvent)
    (h : ingestAll C P .new (raws.map (Call.mk leaderForSlot)) = .ok (a, es)) (raw : List UInt8)
    (hraw : raw ∈ raws) :
    ∃ es', ingest C P leaderForSlot a raw = .ok (a, es') ∧ ∀ e ∈ es', e.isRejected = true := by
  obtain ⟨hwf, ht⟩ := run_tracks h
  have hmem : Call.mk leaderForSlot raw ∈ raws.map (Call.mk leaderForSlot) :=
    List.mem_map_of_mem hraw
  obtain ⟨r, hgate⟩ := gate_ok_of_run h hmem
  cases r with
  | error reason =>
      refine ⟨[.rejected reason], ?_, fun e he => ?_⟩
      · rw [ingest_eq_gate, hgate]
        rfl
      · rw [List.mem_singleton.mp he]
        rfl
  | ok x =>
      obtain ⟨st, ss, es', hstep, hexit⟩ := ingest_admitted hwf hgate
      have hx : x ∈ admitted C P (raws.map (Call.mk leaderForSlot)) :=
        List.mem_filterMap.mpr ⟨_, hmem, admit_of_gate hgate⟩
      obtain ⟨hsame, hrej⟩ := hexit.again hwf ht hx
      rw [hsame] at hstep
      exact ⟨es', hstep, hrej⟩

/-- The first data shred of a delivered sample, after the whole set. -/
theorem replay_harmless_small : ∃ (leaders : Leaders) (raws : List (List UInt8)) (raw : List UInt8)
    (a : FecAssembler) (es es' : List FecEvent), raw ∈ raws ∧
    ingestAll (referenceCrates sha256) ⟨true⟩ .new (raws.map (Call.mk leaders)) = .ok (a, es) ∧
    ingest (referenceCrates sha256) ⟨true⟩ leaders a raw = .ok (a, es') ∧
    ∀ e ∈ es', e.isRejected = true := by
  obtain ⟨B, a, es, _, hrun, _⟩ := exists_sampleRun 64 0xc0 (by decide)
  have hcalls : (halfOf 0 0).map B.alone.call =
      ((halfOf (0 : Fin 1) 0).map fun d => B.shred d.2).map (Call.mk B.alone.leaders) := by
    rw [List.map_map]
    rfl
  rw [hcalls] at hrun
  have hfirst : ((0 : Fin 1), (0 : Fin 64)) ∈ halfOf (0 : Fin 1) 0 :=
    mem_halfOf.mpr ⟨rfl, by decide, by decide⟩
  have hraw : B.shred 0 ∈ (halfOf (0 : Fin 1) 0).map fun d => B.shred d.2 :=
    List.mem_map.mpr ⟨_, hfirst, rfl⟩
  obtain ⟨es', hstep, hrej⟩ := replay_harmless _ ⟨true⟩ B.alone.leaders _ a es hrun _ hraw
  exact ⟨_, _, _, a, es, es', hraw, hrun, hstep, hrej⟩

end Lattica.Listener
