import Lattica.Listener.Run

/-!
# What the assembler remembers

`Tracks` relates the assembler to the admitted shreds of the run that led to
it: the root of a set is the root of its first shred, a stored shard is the
region of a shred under that root, the marker is the largest set a marker
shred came in. Each exit keeps it (`Tracks.step`), so every run does
(`run_tracks`).
-/

namespace Lattica.Listener

open Foundation Shred Reedsol

variable {C : Crates} {P : Profile} {a : FecAssembler} {x : Admitted} {st : FecState}
  {ss : SlotState} {es : List FecEvent}

/-! ## What an exit does to its set -/

theorem rooted_getD (hopen : Open a x) :
    some x.root = some ((a.stateOf x.key).merkleRoot.getD x.root) := by
  cases hr : (a.stateOf x.key).merkleRoot with
  | none => rfl
  | some r => rw [hopen.root r hr, Option.getD_some]

/-- The root of a set is never replaced. -/
theorem Exit.root (h : WellFormed a) (hexit : Exit C a x st ss es) :
    st.merkleRoot = some ((a.stateOf x.key).merkleRoot.getD x.root) := by
  cases hexit with
  | settled hrec _ =>
      obtain ⟨r, hr⟩ := h.root (stateOf_eq_of_reconstructed hrec)
      rw [hr, Option.getD_some]
  | diverges _ hr _ => rw [hr, Option.getD_some]
  | outOfRange hopen _ => exact rooted_getD hopen
  | duplicate hopen _ => exact rooted_getD hopen
  | accepted hopen _ _ => exact rooted_getD hopen
  | failed hopen _ _ _ => exact rooted_getD hopen
  | recovered hopen _ _ _ _ => exact rooted_getD hopen

/-- The shred's region is stored under its root, or nothing is and there is a
reason for it. -/
theorem Exit.shards (hexit : Exit C a x st ss es) :
    (st.shards = (a.stateOf x.key).shards ∧
      ((a.stateOf x.key).reconstructed = true ∨
        (∃ r, (a.stateOf x.key).merkleRoot = some r ∧ r ≠ x.root) ∨ 64 ≤ x.idx ∨
        ∃ s, (a.stateOf x.key).shards[x.idx]? = some (some s))) ∨
      (Open a x ∧ Free a x ∧ st.merkleRoot = some x.root ∧
        st.shards = (a.stateOf x.key).shards.set x.idx (some x.bytes)) := by
  cases hexit with
  | settled hrec _ => exact Or.inl ⟨rfl, Or.inl hrec⟩
  | diverges _ hr hne => exact Or.inl ⟨rfl, Or.inr (Or.inl ⟨_, hr, hne⟩)⟩
  | outOfRange _ hidx => exact Or.inl ⟨rfl, Or.inr (Or.inr (Or.inl hidx))⟩
  | duplicate _ hdup => exact Or.inl ⟨rfl, Or.inr (Or.inr (Or.inr ⟨_, hdup⟩))⟩
  | accepted hopen hfree _ => exact Or.inr ⟨hopen, hfree, rfl, rfl⟩
  | failed hopen hfree _ _ => exact Or.inr ⟨hopen, hfree, rfl, rfl⟩
  | recovered hopen hfree _ _ _ => exact Or.inr ⟨hopen, hfree, rfl, rfl⟩

/-- A reconstructed set is left as it is. -/
theorem Exit.settled_eq (hexit : Exit C a x st ss es)
    (hrec : (a.stateOf x.key).reconstructed = true) : st = a.stateOf x.key := by
  cases hexit with
  | settled _ _ => rfl
  | diverges hp _ _ => simp [hrec] at hp
  | outOfRange hopen _ => simp [hopen.pending] at hrec
  | duplicate hopen _ => simp [hopen.pending] at hrec
  | accepted hopen _ _ => simp [hopen.pending] at hrec
  | failed hopen _ _ _ => simp [hopen.pending] at hrec
  | recovered hopen _ _ _ _ => simp [hopen.pending] at hrec

theorem Exit.pending (hexit : Exit C a x st ss es) (hpend : st.reconstructed = false) :
    (a.stateOf x.key).reconstructed = false := by
  cases hrec : (a.stateOf x.key).reconstructed with
  | false => rfl
  | true =>
      rw [hexit.settled_eq hrec, hrec] at hpend
      exact absurd hpend (by decide)

/-- A set is reconstructed by the crate, at the threshold. -/
theorem Exit.reconstructs (hexit : Exit C a x st ss es)
    (hpend : (a.stateOf x.key).reconstructed = false) (hrec : st.reconstructed = true) :
    32 ≤ st.distinctSeen ∧ ∃ out, reconstruct C st.shards = .ok out := by
  cases hexit with
  | settled hr _ => simp [hpend] at hr
  | diverges _ _ _ => simp [hpend] at hrec
  | outOfRange _ _ => simp [rooted, hpend] at hrec
  | duplicate _ _ => simp [rooted, hpend] at hrec
  | accepted _ _ _ => simp [stored, rooted, hpend] at hrec
  | failed _ _ _ _ => simp [stored, rooted, hpend] at hrec
  | recovered _ _ hmany hrs _ => exact ⟨hmany, _, hrs⟩

/-- A set that grows to the threshold and stays pending is one the crate fails on. -/
theorem Exit.fails (hexit : Exit C a x st ss es) (hpend : st.reconstructed = false)
    (hmany : 32 ≤ st.distinctSeen) :
    st.distinctSeen = (a.stateOf x.key).distinctSeen ∧ st.shards = (a.stateOf x.key).shards ∨
      ∃ e, reconstruct C st.shards = .error e := by
  cases hexit with
  | settled _ _ => exact Or.inl ⟨rfl, rfl⟩
  | diverges _ _ _ => exact Or.inl ⟨rfl, rfl⟩
  | outOfRange _ _ => exact Or.inl ⟨rfl, rfl⟩
  | duplicate _ _ => exact Or.inl ⟨rfl, rfl⟩
  | accepted _ _ hfew =>
      simp only [stored] at hmany
      omega
  | failed _ _ _ hrs => exact Or.inr ⟨_, hrs⟩
  | recovered _ _ _ _ _ => simp [finished] at hpend

/-! ## What an exit does to its slot -/

/-- Up to the reconstructed sets and `finalized` the slot is the booked one. -/
theorem Exit.slot (hexit : Exit C a x st ss es) :
    ss.seenFecIndices = (booked a x).seenFecIndices ∧
      ss.lastFecSetIndex = (booked a x).lastFecSetIndex := by
  have hclose : ∀ {b : FecAssembler} {slot : UInt64} {ss ss' : SlotState} {es : List FecEvent},
      Close C b slot ss ss' es →
      ss'.seenFecIndices = ss.seenFecIndices ∧ ss'.lastFecSetIndex = ss.lastFecSetIndex := by
    intro b slot ss ss' es h
    rcases h.slot with rfl | rfl <;> exact ⟨rfl, rfl⟩
  cases hexit with
  | settled _ hc => exact hclose hc
  | recovered _ _ _ _ hc =>
      obtain ⟨hseen, hlast⟩ := hclose hc
      exact ⟨hseen, hlast⟩
  | diverges _ _ _ => exact ⟨rfl, rfl⟩
  | outOfRange _ _ => exact ⟨rfl, rfl⟩
  | duplicate _ _ => exact ⟨rfl, rfl⟩
  | accepted _ _ _ => exact ⟨rfl, rfl⟩
  | failed _ _ _ _ => exact ⟨rfl, rfl⟩

theorem Close.not_ready {b : FecAssembler} {slot : UInt64} {ss ss' : SlotState}
    {es : List FecEvent} (h : Close C b slot ss ss' es) : ¬ Ready ss' := by
  cases h with
  | final _ => exact fun hr => by simpa using hr.1
  | waiting hnot => exact hnot

/-- The bookkeeping of a pending set does not complete its slot. -/
theorem booked_not_ready (h : WellFormed a) (hnot : ¬ Ready (a.slotOf x.key.slot))
    (hpend : (a.stateOf x.key).reconstructed = false) : ¬ Ready (booked a x) := by
  rintro ⟨hfin, hmark, l, hl, hall, _⟩
  have hseen : x.key.fecSetIndex ∈ (booked a x).seenFecIndices := mem_booked_seen.mpr (Or.inl rfl)
  by_cases hle : x.key.fecSetIndex ≤ l
  · -- the pending set is among those checked
    have hin := hall _ (mem_indicesToCheck.mpr ⟨hseen, hle⟩)
    rw [booked_reconstructed, h.mem_reconstructed] at hin
    exact absurd (hpend.symm.trans hin) (by simp)
  · -- the shred is past the marker, so it carries none and the slot was ready before
    cases hlast : x.isLast with
    | true =>
        obtain ⟨l', hl', hle', _⟩ := booked_last_marker (a := a) hlast
        rw [hl'] at hl
        cases hl
        exact hle hle'
    | false =>
      rw [booked_last_other hlast] at hl
      refine hnot ⟨by rw [← booked_finalized]; exact hfin, ?_, l, hl, ?_,
        h.marker_seen _ l hl⟩
      · rw [h.marker, hl]
        rfl
      · intro i hi
        obtain ⟨hi, hil⟩ := mem_indicesToCheck.mp hi
        rw [← booked_reconstructed]
        exact hall i (mem_indicesToCheck.mpr ⟨mem_booked_seen.mpr (Or.inr hi), hil⟩)

/-- No exit leaves a slot that finalization would still emit for. -/
theorem Exit.not_ready (h : WellFormed a) (hnot : ¬ Ready (a.slotOf x.key.slot))
    (hexit : Exit C a x st ss es) : ¬ Ready ss := by
  cases hexit with
  | settled _ hc => exact hc.not_ready
  | recovered _ _ _ _ hc => exact hc.not_ready
  | diverges hp _ _ => exact booked_not_ready h hnot hp
  | outOfRange hopen _ => exact booked_not_ready h hnot hopen.pending
  | duplicate hopen _ => exact booked_not_ready h hnot hopen.pending
  | accepted hopen _ _ => exact booked_not_ready h hnot hopen.pending
  | failed hopen _ _ _ => exact booked_not_ready h hnot hopen.pending

/-! ## The events of an exit -/

def FecEvent.isStarted : FecEvent → Bool
  | .started .. => true
  | _ => false

def FecEvent.isReconstructed : FecEvent → Bool
  | .reconstructed .. => true
  | _ => false

def FecEvent.isSlotFinalized : FecEvent → Bool
  | .slotFinalized .. => true
  | _ => false

def FecEvent.isRejected : FecEvent → Bool
  | .rejected _ => true
  | _ => false

/-- The events of storing a shred are of two kinds. -/
theorem filter_acceptEvents {p : FecEvent → Bool} (hstart : ∀ key r, p (.started key r) = false)
    (haccept : ∀ key n i, p (.shredAccepted key n i) = false) :
    (startEvents a x).filter p = [] ∧ (acceptEvents a x).filter p = [] := by
  have hs : (startEvents a x).filter p = [] := by
    rw [startEvents]
    cases (a.stateOf x.key).merkleRoot with
    | none => simp [hstart]
    | some r => rfl
  refine ⟨hs, ?_⟩
  rw [acceptEvents, List.filter_append, hs]
  simp [haccept]

theorem Close.events {b : FecAssembler} {slot : UInt64} {ss ss' : SlotState} {es : List FecEvent}
    (h : Close C b slot ss ss' es) {p : FecEvent → Bool}
    (hp : ∀ slot roots r n c, p (.slotFinalized slot roots r n c) = false) : es.filter p = [] := by
  cases h with
  | final _ => simp [finalEvent, hp]
  | waiting _ => rfl

theorem mem_startEvents {e : FecEvent} :
    e ∈ startEvents a x ↔ (a.stateOf x.key).merkleRoot = none ∧ e = .started x.key x.root := by
  rw [startEvents]
  cases (a.stateOf x.key).merkleRoot with
  | none => simp
  | some r => simp

/-- `Started` is emitted by the exit that gives the set its root. -/
theorem Exit.filter_started (h : WellFormed a) (hexit : Exit C a x st ss es) :
    es.filter FecEvent.isStarted = startEvents a x := by
  have hstart : (startEvents a x).filter FecEvent.isStarted = startEvents a x := by
    rw [List.filter_eq_self]
    intro e he
    rw [(mem_startEvents.mp he).2]
    rfl
  have haccept : (acceptEvents a x).filter FecEvent.isStarted = startEvents a x := by
    rw [acceptEvents, List.filter_append, hstart]
    exact List.append_nil _
  have hrooted : ∀ {r}, (a.stateOf x.key).merkleRoot = some r → startEvents a x = [] := by
    intro r hr
    rw [startEvents, hr]
  cases hexit with
  | settled hrec hc =>
      obtain ⟨r, hr⟩ := h.root (stateOf_eq_of_reconstructed hrec)
      rw [hc.events fun _ _ _ _ _ => rfl, hrooted hr]
  | diverges _ hr _ =>
      rw [hrooted hr]
      rfl
  | outOfRange _ _ =>
      rw [List.filter_append, hstart]
      exact List.append_nil _
  | duplicate _ _ => exact hstart
  | accepted _ _ _ => exact haccept
  | failed _ _ _ _ =>
      rw [List.filter_append, haccept]
      exact List.append_nil _
  | recovered _ _ _ _ hc =>
      rw [List.filter_append, List.filter_append, haccept, hc.events fun _ _ _ _ _ => rfl]
      rw [List.append_nil]
      exact List.append_nil _

/-- The exit that starts a set gives it the root it announces. -/
theorem Exit.reports_started (h : WellFormed a) (hexit : Exit C a x st ss es) {key : FecKey}
    {root : Bytes 32} : .started key root ∈ es ↔
      (a.stateOf x.key).merkleRoot = none ∧ key = x.key ∧ root = x.root := by
  have hmem : .started key root ∈ es ↔ .started key root ∈ startEvents a x := by
    rw [← hexit.filter_started h, List.mem_filter]
    exact (and_iff_left rfl).symm
  rw [hmem, mem_startEvents, FecEvent.started.injEq]

/-- `Reconstructed` is emitted by the exit that reconstructs the set, once. -/
theorem Exit.filter_reconstructed (hexit : Exit C a x st ss es) :
    es.filter FecEvent.isReconstructed =
      if (a.stateOf x.key).reconstructed = false ∧ st.reconstructed = true then
        [.reconstructed x.key x.root 1]
      else [] := by
  obtain ⟨hstart, haccept⟩ := filter_acceptEvents (a := a) (x := x)
    (p := FecEvent.isReconstructed) (fun _ _ => rfl) (fun _ _ _ => rfl)
  cases hexit with
  | settled hrec hc =>
      rw [hc.events fun _ _ _ _ _ => rfl, if_neg (by simp [hrec])]
  | diverges hp _ _ => rw [if_neg (by simp [hp])]; rfl
  | outOfRange hopen _ =>
      rw [List.filter_append, hstart, if_neg (by simp [rooted])]
      rfl
  | duplicate hopen _ => rw [hstart, if_neg (by simp [rooted])]
  | accepted hopen _ _ => rw [haccept, if_neg (by simp [stored, rooted])]
  | failed hopen _ _ _ =>
      rw [List.filter_append, haccept, if_neg (by simp [stored, rooted])]
      rfl
  | recovered hopen _ _ _ hc =>
      rw [List.filter_append, List.filter_append, haccept, hc.events fun _ _ _ _ _ => rfl,
        if_pos ⟨hopen.pending, rfl⟩]
      rfl

/-- The exit that reports a set reconstructed stores a shred of it. -/
theorem Exit.reports_reconstructed (hexit : Exit C a x st ss es) {key : FecKey}
    {root : Bytes 32} {das : ℚ} (hmem : .reconstructed key root das ∈ es) :
    key = x.key ∧ root = x.root ∧ (a.stateOf x.key).reconstructed = false ∧
      st.reconstructed = true ∧ st.merkleRoot = some root ∧
      st.distinctSeen = (a.stateOf x.key).distinctSeen + 1 := by
  have hin := List.mem_filter.mpr ⟨hmem, (rfl : FecEvent.isReconstructed _ = true)⟩
  rw [hexit.filter_reconstructed] at hin
  by_cases hnow : (a.stateOf x.key).reconstructed = false ∧ st.reconstructed = true
  · rw [if_pos hnow, List.mem_singleton] at hin
    cases hin
    obtain ⟨hpend, hrec⟩ := hnow
    refine ⟨rfl, rfl, hpend, hrec, ?_⟩
    cases hexit with
    | recovered _ _ _ _ _ => exact ⟨rfl, rfl⟩
    | settled hr _ => simp [hpend] at hr
    | diverges _ _ _ => simp [hpend] at hrec
    | outOfRange _ _ => simp [rooted, hpend] at hrec
    | duplicate _ _ => simp [rooted, hpend] at hrec
    | accepted _ _ _ => simp [stored, rooted, hpend] at hrec
    | failed _ _ _ _ => simp [stored, rooted, hpend] at hrec
  · rw [if_neg hnow] at hin
    cases hin

/-- `SlotFinalized` is emitted by the exit that finalizes the slot, once, and
reports the slot as that exit leaves it. -/
theorem Exit.filter_slotFinalized (hexit : Exit C a x st ss es) :
    (ss.finalized = (a.slotOf x.key.slot).finalized ∧ es.filter FecEvent.isSlotFinalized = []) ∨
      ((a.slotOf x.key.slot).finalized = false ∧ ss.finalized = true ∧
        Ready { ss with finalized := false } ∧ es.filter FecEvent.isSlotFinalized =
          [finalEvent C (a.put x.key st ss) x.key.slot ss]) := by
  obtain ⟨hstart, haccept⟩ := filter_acceptEvents (a := a) (x := x)
    (p := FecEvent.isSlotFinalized) (fun _ _ => rfl) (fun _ _ _ => rfl)
  have hclose : ∀ {ss₀ ss' : SlotState} {st : FecState} {es : List FecEvent},
      ss₀.finalized = (a.slotOf x.key.slot).finalized →
      Close C (a.put x.key st ss₀) x.key.slot ss₀ ss' es →
      (ss'.finalized = (a.slotOf x.key.slot).finalized ∧
          es.filter FecEvent.isSlotFinalized = []) ∨
        ((a.slotOf x.key.slot).finalized = false ∧ ss'.finalized = true ∧
          Ready { ss' with finalized := false } ∧ es.filter FecEvent.isSlotFinalized =
            [finalEvent C (a.put x.key st ss') x.key.slot ss']) := by
    intro ss₀ ss' st es hfin hc
    cases hc with
    | waiting _ => exact Or.inl ⟨hfin, rfl⟩
    | final hready =>
        have hpend : ss₀.finalized = false := hready.1
        refine Or.inr ⟨hfin ▸ hpend, rfl, ?_, rfl⟩
        rw [← hpend]
        exact hready
  cases hexit with
  | settled hrec hc => exact hclose booked_finalized hc
  | diverges _ _ _ => exact Or.inl ⟨booked_finalized, rfl⟩
  | outOfRange _ _ =>
      refine Or.inl ⟨booked_finalized, ?_⟩
      rw [List.filter_append, hstart]
      rfl
  | duplicate _ _ => exact Or.inl ⟨booked_finalized, hstart⟩
  | accepted _ _ _ => exact Or.inl ⟨booked_finalized, haccept⟩
  | failed _ _ _ _ =>
      refine Or.inl ⟨booked_finalized, ?_⟩
      rw [List.filter_append, haccept]
      rfl
  | recovered _ _ _ _ hc =>
      have hfin : (bookedDone a x).finalized = (a.slotOf x.key.slot).finalized := booked_finalized
      rw [List.filter_append, List.filter_append, haccept]
      exact hclose hfin hc

/-- What a `SlotFinalized` event reports: the sets up to the marker, all of them
reconstructed, by their roots. -/
theorem Exit.reports (hexit : Exit C a x st ss es) {slot : UInt64} {roots : List (Bytes 32)}
    {slotRoot : Bytes 32} {n : ℕ} {conf : ℚ}
    (hmem : .slotFinalized slot roots slotRoot n conf ∈ es) :
    slot = x.key.slot ∧ roots = listedRoots (a.put x.key st ss) slot ss ∧
      slotRoot = slotRootOf C roots ∧ ∃ l, ss.lastFecSetIndex = some l ∧ l ∈ listed ss ∧
        ∀ i ∈ listed ss, i ≤ l ∧ i ∈ ss.reconstructedFecIndices := by
  have hfilter := List.mem_filter.mpr ⟨hmem, (rfl : FecEvent.isSlotFinalized _ = true)⟩
  rcases hexit.filter_slotFinalized with ⟨_, hnone⟩ | ⟨_, _, hready, hone⟩
  · rw [hnone] at hfilter
    cases hfilter
  · rw [hone, List.mem_singleton] at hfilter
    cases hfilter
    obtain ⟨_, _, l, hl, hall, hseen⟩ := hready
    have hl' : ss.lastFecSetIndex = some l := hl
    have hlisted : listed ss = indicesToCheck ss l := by rw [listed, hl']
    refine ⟨rfl, rfl, rfl, l, hl', ?_, fun i hi => ?_⟩
    · rw [hlisted, mem_indicesToCheck]
      exact ⟨hseen, UInt32.le_refl l⟩
    · rw [hlisted] at hi
      exact ⟨(mem_indicesToCheck.mp hi).2, hall i hi⟩

/-! ## The history invariant -/

/-- The root of the first admitted shred of a set. -/
def firstRoot (H : List Admitted) (key : FecKey) : Option (Bytes 32) :=
  (H.find? fun x => x.key = key).map Admitted.root

theorem firstRoot_snoc_self (H : List Admitted) (x : Admitted) :
    firstRoot (H ++ [x]) x.key = some ((firstRoot H x.key).getD x.root) := by
  rw [firstRoot, firstRoot, List.find?_append]
  cases H.find? fun y => y.key = x.key with
  | none => simp
  | some y => rfl

theorem firstRoot_snoc_ne (H : List Admitted) {x : Admitted} {key : FecKey} (h : key ≠ x.key) :
    firstRoot (H ++ [x]) key = firstRoot H key := by
  rw [firstRoot, firstRoot, List.find?_append]
  simp [Ne.symm h]

/-- What the assembler holds after admitting `H`, in order. -/
structure Tracks (C : Crates) (H : List Admitted) (a : FecAssembler) : Prop where
  touched : ∀ key, (∃ st, a.states key = some st) ↔ ∃ x ∈ H, x.key = key
  root : ∀ key, (a.stateOf key).merkleRoot = firstRoot H key
  /-- Where a stored shard comes from. -/
  origin : ∀ {key i s}, (a.stateOf key).shards[i]? = some (some s) →
    ∃ x ∈ H, x.key = key ∧ x.idx = i ∧ x.bytes = s ∧ firstRoot H key = some x.root
  /-- A pending set holds a shard for every admitted shred under its root. -/
  kept : ∀ {x}, x ∈ H → (a.stateOf x.key).reconstructed = false →
    firstRoot H x.key = some x.root → x.idx < 64 →
    ∃ s, (a.stateOf x.key).shards[x.idx]? = some (some s)
  enough : ∀ {key}, (a.stateOf key).reconstructed = true → 32 ≤ (a.stateOf key).distinctSeen ∧
    ∃ out, reconstruct C (a.stateOf key).shards = .ok out
  /-- A set is pending past the threshold only where the crate fails. -/
  stuck : ∀ {key}, (a.stateOf key).reconstructed = false → 32 ≤ (a.stateOf key).distinctSeen →
    ∃ e, reconstruct C (a.stateOf key).shards = .error e
  marker_mem : ∀ {slot l}, (a.slotOf slot).lastFecSetIndex = some l →
    ∃ x ∈ H, x.isLast = true ∧ x.key = ⟨slot, l⟩
  marker_le : ∀ {x}, x ∈ H → x.isLast = true →
    ∃ l, (a.slotOf x.key.slot).lastFecSetIndex = some l ∧ x.key.fecSetIndex ≤ l
  waiting : ∀ slot, ¬ Ready (a.slotOf slot)
  /-- A final slot has its marker. -/
  closed : ∀ {slot}, (a.slotOf slot).finalized = true →
    ∃ l, (a.slotOf slot).lastFecSetIndex = some l

theorem tracks_new : Tracks C [] .new where
  touched key := by simp [FecAssembler.new]
  root key := rfl
  origin {key i s} h := by
    have hnone : (FecAssembler.new.stateOf key).shards = List.replicate 64 none := rfl
    rw [hnone, List.getElem?_replicate] at h
    split at h
    · simp at h
    · simp at h
  kept h := by simp at h
  enough h := by simp [FecAssembler.new, FecAssembler.stateOf, FecState.new] at h
  stuck {key} _ h := by
    have hzero : (FecAssembler.new.stateOf key).distinctSeen = 0 := rfl
    omega
  marker_mem {slot l} h := by
    have hnone : (FecAssembler.new.slotOf slot).lastFecSetIndex = none := rfl
    simp [hnone] at h
  marker_le h := by simp at h
  waiting slot h := by
    obtain ⟨_, hmark, _⟩ := h
    have hfalse : (FecAssembler.new.slotOf slot).lastShredSeen = false := rfl
    simp [hfalse] at hmark
  closed {slot} h := by
    have hfalse : (FecAssembler.new.slotOf slot).finalized = false := rfl
    simp [hfalse] at h

section Step

variable {H : List Admitted}

theorem Tracks.firstRoot_mono (h : Tracks C H a) (hwf : WellFormed a)
    (hexit : Exit C a x st ss es) : st.merkleRoot = firstRoot (H ++ [x]) x.key := by
  rw [firstRoot_snoc_self, ← h.root, hexit.root hwf]

/-- Once a set has a root its first root stays. -/
theorem firstRoot_snoc_of_some {key : FecKey} {r : Bytes 32} (h : firstRoot H key = some r) :
    firstRoot (H ++ [x]) key = some r := by
  by_cases heq : key = x.key
  · subst heq
    rw [firstRoot_snoc_self, h, Option.getD_some]
  · rw [firstRoot_snoc_ne H heq, h]

theorem Tracks.origin_step (h : Tracks C H a) (hwf : WellFormed a) (hexit : Exit C a x st ss es)
    {i : ℕ} {s : List UInt8} (hs : st.shards[i]? = some (some s)) :
    ∃ y ∈ H ++ [x], y.key = x.key ∧ y.idx = i ∧ y.bytes = s ∧
      firstRoot (H ++ [x]) x.key = some y.root := by
  have hold : (a.stateOf x.key).shards[i]? = some (some s) →
      ∃ y ∈ H ++ [x], y.key = x.key ∧ y.idx = i ∧ y.bytes = s ∧
        firstRoot (H ++ [x]) x.key = some y.root := by
    intro hs
    obtain ⟨y, hy, hkey, hidx, hbytes, hroot⟩ := h.origin hs
    exact ⟨y, List.mem_append_left _ hy, hkey, hidx, hbytes, firstRoot_snoc_of_some hroot⟩
  rcases hexit.shards with ⟨hsame, _⟩ | ⟨_, hfree, hroot, hset⟩
  · exact hold (hsame ▸ hs)
  · rw [hset, List.getElem?_set] at hs
    by_cases hi : x.idx = i
    · rw [if_pos hi, if_pos (List.getElem?_eq_some_iff.mp hfree).1] at hs
      cases hs
      exact ⟨x, by simp, rfl, hi, rfl, by rw [← h.firstRoot_mono hwf hexit, hroot]⟩
    · rw [if_neg hi] at hs
      exact hold hs

theorem Tracks.kept_step (h : Tracks C H a) (hexit : Exit C a x st ss es)
    {y : Admitted} (hy : y ∈ H ++ [x]) (hkey : y.key = x.key) (hpend : st.reconstructed = false)
    (hroot : firstRoot (H ++ [x]) x.key = some y.root) (hidx : y.idx < 64) :
    ∃ s, st.shards[y.idx]? = some (some s) := by
  have hpend' := hexit.pending hpend
  have hold : y ∈ H → ∃ s, (a.stateOf x.key).shards[y.idx]? = some (some s) := by
    intro hy
    rw [firstRoot_snoc_self] at hroot
    cases hfirst : firstRoot H x.key with
    | none =>
        rw [firstRoot, Option.map_eq_none_iff, List.find?_eq_none] at hfirst
        exact absurd hkey (by simpa using hfirst y hy)
    | some r =>
        rw [hfirst, Option.getD_some] at hroot
        rw [← hkey] at hfirst hpend' ⊢
        exact h.kept hy hpend' (hfirst.trans hroot) hidx
  rcases hexit.shards with ⟨hsame, hwhy⟩ | ⟨_, hfree, _, hset⟩
  · rw [hsame]
    rw [List.mem_append, List.mem_singleton] at hy
    rcases hy with hy | rfl
    · exact hold hy
    · rcases hwhy with hrec | ⟨r, hr, hne⟩ | hout | hdup
      · rw [hpend'] at hrec
        exact absurd hrec (by decide)
      · rw [firstRoot_snoc_self, ← h.root, hr, Option.getD_some] at hroot
        exact absurd (Option.some.inj hroot) hne
      · omega
      · exact hdup
  · rw [hset, List.getElem?_set]
    by_cases hi : x.idx = y.idx
    · rw [if_pos hi, if_pos (List.getElem?_eq_some_iff.mp hfree).1]
      exact ⟨_, rfl⟩
    · rw [if_neg hi]
      rw [List.mem_append, List.mem_singleton] at hy
      rcases hy with hy | rfl
      · exact hold hy
      · exact absurd rfl hi

theorem Tracks.marker_step (h : Tracks C H a) (hexit : Exit C a x st ss es) :
    (∀ {l}, ss.lastFecSetIndex = some l →
      ∃ y ∈ H ++ [x], y.isLast = true ∧ y.key = ⟨x.key.slot, l⟩) ∧
    ∀ {y}, y ∈ H ++ [x] → y.isLast = true → y.key.slot = x.key.slot →
      ∃ l, ss.lastFecSetIndex = some l ∧ y.key.fecSetIndex ≤ l := by
  obtain ⟨_, hlast⟩ := hexit.slot
  have hmem : ∀ {l}, (a.slotOf x.key.slot).lastFecSetIndex = some l →
      ∃ y ∈ H ++ [x], y.isLast = true ∧ y.key = ⟨x.key.slot, l⟩ := by
    intro l hl
    obtain ⟨y, hy, hmark, hkey⟩ := h.marker_mem hl
    exact ⟨y, List.mem_append_left _ hy, hmark, hkey⟩
  have hle : ∀ {y}, y ∈ H → y.isLast = true → y.key.slot = x.key.slot →
      ∃ l, (a.slotOf x.key.slot).lastFecSetIndex = some l ∧ y.key.fecSetIndex ≤ l := by
    intro y hy hmark hslot
    rw [← hslot]
    exact h.marker_le hy hmark
  rw [hlast]
  cases hmark : x.isLast with
  | false =>
      rw [booked_last_other hmark]
      refine ⟨hmem, fun {y} hy hy' hslot => ?_⟩
      rw [List.mem_append, List.mem_singleton] at hy
      rcases hy with hy | rfl
      · exact hle hy hy' hslot
      · rw [hmark] at hy'
        exact absurd hy' (by decide)
  | true =>
      obtain ⟨l, hl, hxl, hfrom, hold⟩ := booked_last_marker (a := a) hmark
      rw [hl]
      constructor
      · intro l' hl'
        cases hl'
        rcases hfrom with rfl | hfrom
        · exact ⟨x, by simp, hmark, rfl⟩
        · exact hmem hfrom
      · intro y hy hy' hslot
        refine ⟨l, rfl, ?_⟩
        rw [List.mem_append, List.mem_singleton] at hy
        rcases hy with hy | rfl
        · obtain ⟨m, hm, hym⟩ := hle hy hy' hslot
          exact UInt32.le_trans hym (hold m hm)
        · exact hxl

theorem Tracks.closed_step (h : Tracks C H a) (hexit : Exit C a x st ss es)
    (hfin : ss.finalized = true) : ∃ l, ss.lastFecSetIndex = some l := by
  rcases hexit.filter_slotFinalized with ⟨hsame, _⟩ | ⟨_, _, ⟨_, _, l, hl, _⟩, _⟩
  · rw [hsame] at hfin
    rw [hexit.slot.2]
    cases hmark : x.isLast with
    | false =>
        rw [booked_last_other hmark]
        exact h.closed hfin
    | true =>
        obtain ⟨l, hl, _⟩ := booked_last_marker (a := a) hmark
        exact ⟨l, hl⟩
  · exact ⟨l, hl⟩

/-- **Every exit keeps the invariant.** -/
theorem Tracks.step (h : Tracks C H a) (hwf : WellFormed a) (hexit : Exit C a x st ss es) :
    Tracks C (H ++ [x]) (a.put x.key st ss) where
  touched key := by
    by_cases heq : key = x.key
    · subst heq
      simp
    · rw [FecAssembler.put_states_ne a heq, h.touched]
      simp [Ne.symm heq]
  root key := by
    by_cases heq : key = x.key
    · subst heq
      rw [FecAssembler.stateOf_put_self, h.firstRoot_mono hwf hexit]
    · rw [FecAssembler.stateOf_put_ne a heq, firstRoot_snoc_ne H heq, h.root]
  origin {key i s} hs := by
    by_cases heq : key = x.key
    · subst heq
      rw [FecAssembler.stateOf_put_self] at hs
      exact h.origin_step hwf hexit hs
    · rw [FecAssembler.stateOf_put_ne a heq] at hs
      obtain ⟨y, hy, hkey, hidx, hbytes, hroot⟩ := h.origin hs
      exact ⟨y, List.mem_append_left _ hy, hkey, hidx, hbytes, firstRoot_snoc_of_some hroot⟩
  kept {y} hy hpend hroot hidx := by
    by_cases heq : y.key = x.key
    · rw [heq, FecAssembler.stateOf_put_self] at hpend ⊢
      exact h.kept_step hexit hy heq hpend (heq ▸ hroot) hidx
    · rw [FecAssembler.stateOf_put_ne a heq] at hpend ⊢
      rw [firstRoot_snoc_ne H heq] at hroot
      rw [List.mem_append, List.mem_singleton] at hy
      rcases hy with hy | rfl
      · exact h.kept hy hpend hroot hidx
      · exact absurd rfl heq
  enough {key} hrec := by
    by_cases heq : key = x.key
    · subst heq
      rw [FecAssembler.stateOf_put_self] at hrec ⊢
      cases hold : (a.stateOf x.key).reconstructed with
      | true =>
          rw [hexit.settled_eq hold]
          exact h.enough hold
      | false => exact hexit.reconstructs hold hrec
    · rw [FecAssembler.stateOf_put_ne a heq] at hrec ⊢
      exact h.enough hrec
  stuck {key} hpend hmany := by
    by_cases heq : key = x.key
    · subst heq
      rw [FecAssembler.stateOf_put_self] at hpend hmany ⊢
      rcases hexit.fails hpend hmany with ⟨hdist, hsame⟩ | hfail
      · rw [hsame]
        exact h.stuck (hexit.pending hpend) (hdist ▸ hmany)
      · exact hfail
    · rw [FecAssembler.stateOf_put_ne a heq] at hpend hmany ⊢
      exact h.stuck hpend hmany
  marker_mem {slot l} hl := by
    by_cases heq : slot = x.key.slot
    · subst heq
      rw [FecAssembler.slotOf_put_self] at hl
      exact (h.marker_step hexit).1 hl
    · rw [FecAssembler.slotOf_put_ne a heq] at hl
      obtain ⟨y, hy, hmark, hkey⟩ := h.marker_mem hl
      exact ⟨y, List.mem_append_left _ hy, hmark, hkey⟩
  marker_le {y} hy hmark := by
    by_cases heq : y.key.slot = x.key.slot
    · rw [heq, FecAssembler.slotOf_put_self]
      exact (h.marker_step hexit).2 hy hmark heq
    · rw [FecAssembler.slotOf_put_ne a heq]
      rw [List.mem_append, List.mem_singleton] at hy
      rcases hy with hy | rfl
      · exact h.marker_le hy hmark
      · exact absurd rfl heq
  waiting slot := by
    by_cases heq : slot = x.key.slot
    · subst heq
      rw [FecAssembler.slotOf_put_self]
      exact hexit.not_ready hwf (h.waiting _)
    · rw [FecAssembler.slotOf_put_ne a heq]
      exact h.waiting slot
  closed {slot} hfin := by
    by_cases heq : slot = x.key.slot
    · subst heq
      rw [FecAssembler.slotOf_put_self] at hfin ⊢
      exact h.closed_step hexit hfin
    · rw [FecAssembler.slotOf_put_ne a heq] at hfin ⊢
      exact h.closed hfin

end Step

/-- **Every run tracks its history.** -/
theorem run_tracks {calls : List Call} (h : ingestAll C P .new calls = .ok (a, es)) :
    WellFormed a ∧ Tracks C (admitted C P calls) a :=
  run_induction tracks_new (fun hwf ht hexit => ht.step hwf hexit) h

/-- The sets started are those with a root, and the root announced stays. -/
theorem run_started {calls : List Call} (h : ingestAll C P .new calls = .ok (a, es))
    {key : FecKey} {root : Bytes 32} :
    .started key root ∈ es ↔ (a.stateOf key).merkleRoot = some root := by
  refine (run_events (Q := fun _ a es => ∀ key root, .started key root ∈ es ↔
    (a.stateOf key).merkleRoot = some root) ?_ ?_ ?_ h).2 key root
  · intro key root
    simp [FecAssembler.new, FecAssembler.stateOf, FecState.new]
  · intro H a es reason hq key root
    rw [← hq]
    simp
  · intro H a es x st ss es' hwf hq hexit key root
    rw [List.mem_append, hq, hexit.reports_started hwf]
    by_cases heq : key = x.key
    · subst heq
      rw [FecAssembler.stateOf_put_self, hexit.root hwf, Option.some.injEq]
      cases (a.stateOf x.key).merkleRoot with
      | none => simp [eq_comm]
      | some r => simp
    · rw [FecAssembler.stateOf_put_ne a heq]
      simp [heq]

/-- The sets reported reconstructed are the reconstructed ones, by their roots. -/
theorem run_reconstructed {calls : List Call} (h : ingestAll C P .new calls = .ok (a, es))
    {key : FecKey} {root : Bytes 32} : (∃ das, .reconstructed key root das ∈ es) ↔
      (a.stateOf key).reconstructed = true ∧ (a.stateOf key).merkleRoot = some root := by
  refine (run_events (Q := fun _ a es => ∀ key root, (∃ das, .reconstructed key root das ∈ es) ↔
    (a.stateOf key).reconstructed = true ∧ (a.stateOf key).merkleRoot = some root)
    ?_ ?_ ?_ h).2 key root
  · intro key root
    simp [FecAssembler.new, FecAssembler.stateOf, FecState.new]
  · intro H a es reason hq key root
    rw [← hq]
    simp
  · intro H a es x st ss es' hwf hq hexit key root
    have hsplit : (∃ das, .reconstructed key root das ∈ es ++ es') ↔
        (∃ das, .reconstructed key root das ∈ es) ∨ ∃ das, .reconstructed key root das ∈ es' := by
      simp only [List.mem_append, exists_or]
    rw [hsplit, hq]
    by_cases heq : key = x.key
    · subst heq
      rw [FecAssembler.stateOf_put_self]
      constructor
      · rintro (⟨hrec, hroot⟩ | ⟨das, hmem⟩)
        · rw [hexit.settled_eq hrec]
          exact ⟨hrec, hroot⟩
        · obtain ⟨_, _, _, hrec, hroot, _⟩ := hexit.reports_reconstructed hmem
          exact ⟨hrec, hroot⟩
      · rintro ⟨hrec, hroot⟩
        cases hold : (a.stateOf x.key).reconstructed with
        | true =>
            rw [hexit.settled_eq hold] at hroot
            exact Or.inl ⟨rfl, hroot⟩
        | false =>
            have hfilter := hexit.filter_reconstructed
            rw [if_pos ⟨hold, hrec⟩] at hfilter
            have hmem := List.mem_of_mem_filter (hfilter ▸ List.mem_singleton.mpr rfl)
            obtain ⟨_, _, _, _, hroot', _⟩ := hexit.reports_reconstructed hmem
            rw [hroot] at hroot'
            cases hroot'
            exact Or.inr ⟨1, hmem⟩
    · rw [FecAssembler.stateOf_put_ne a heq]
      refine or_iff_left ?_
      rintro ⟨das, hmem⟩
      exact heq (hexit.reports_reconstructed hmem).1

/-- Without a marker shred no slot is final. -/
theorem run_unmarked {calls : List Call} (h : ingestAll C P .new calls = .ok (a, es))
    (hno : ∀ x ∈ admitted C P calls, x.isLast = false) :
    es.filter FecEvent.isSlotFinalized = [] := by
  refine (run_events (Q := fun H a es => Tracks C H a ∧
    ((∀ x ∈ H, x.isLast = false) → es.filter FecEvent.isSlotFinalized = [])) ?_ ?_ ?_ h).2.2 hno
  · exact ⟨tracks_new, fun _ => rfl⟩
  · rintro H a es reason ⟨ht, hq⟩
    refine ⟨ht, fun hno => ?_⟩
    rw [List.filter_append, hq hno]
    rfl
  · rintro H a es x st ss es' hwf ⟨ht, hq⟩ hexit
    have ht' := ht.step hwf hexit
    refine ⟨ht', fun hno => ?_⟩
    rw [List.filter_append, hq fun y hy => hno y (List.mem_append_left _ hy), List.nil_append]
    rcases hexit.filter_slotFinalized with ⟨_, hnone⟩ | ⟨_, hfin, _⟩
    · exact hnone
    · have hclosed : ((a.put x.key st ss).slotOf x.key.slot).finalized = true := by
        rw [FecAssembler.slotOf_put_self, hfin]
      obtain ⟨l, hl⟩ := ht'.closed hclosed
      obtain ⟨y, hy, hmark, _⟩ := ht'.marker_mem hl
      rw [hno y hy] at hmark
      cases hmark

/-! ## Positions

What a tracked set holds, as a set of positions. -/

/-- The positions of a set that shreds were admitted for. -/
def positions (H : List Admitted) (key : FecKey) : Finset (Fin 64) :=
  Finset.univ.filter fun i => ∃ x ∈ H, x.key = key ∧ x.idx = i.1

section Positions

variable {H : List Admitted} {key : FecKey}

theorem mem_positions {i : Fin 64} :
    i ∈ positions H key ↔ ∃ x ∈ H, x.key = key ∧ x.idx = i.1 := by
  rw [positions, Finset.mem_filter]
  exact and_iff_right (Finset.mem_univ i)

theorem firstRoot_of_one {root : Bytes 32} (hone : ∀ x ∈ H, x.key = key → x.root = root)
    (hx : ∃ x ∈ H, x.key = key) : firstRoot H key = some root := by
  obtain ⟨x, hx, hkey⟩ := hx
  cases hfirst : H.find? fun y => y.key = key with
  | none => exact absurd hkey (by simpa using List.find?_eq_none.mp hfirst x hx)
  | some y =>
      rw [firstRoot, hfirst, Option.map_some,
        hone y (List.mem_of_find?_eq_some hfirst) (by simpa using List.find?_some hfirst)]

theorem WellFormed.distinct_eq_card (hwf : WellFormed a) (key : FecKey) :
    (a.stateOf key).distinctSeen = (presentAt (a.stateOf key).shards).card := by
  rw [card_presentAt (hwf.stateOf_length _), hwf.stateOf_distinct]

namespace Tracks

variable (ht : Tracks C H a)

include ht

theorem present_subset : presentAt (a.stateOf key).shards ⊆ positions H key := by
  intro i hi
  obtain ⟨s, hs⟩ := mem_presentAt.mp hi
  obtain ⟨x, hx, hkey, hidx, _⟩ := ht.origin hs
  exact mem_positions.mpr ⟨x, hx, hkey, hidx⟩

/-- Where all shreds of a set have one root, the pending set holds every position. -/
theorem present_of_pending {root : Bytes 32} (hone : ∀ x ∈ H, x.key = key → x.root = root)
    (hpend : (a.stateOf key).reconstructed = false) :
    presentAt (a.stateOf key).shards = positions H key := by
  refine Finset.Subset.antisymm ht.present_subset fun i hi => ?_
  obtain ⟨x, hx, hkey, hidx⟩ := mem_positions.mp hi
  have hfirst := firstRoot_of_one hone ⟨x, hx, hkey⟩
  rw [← hone x hx hkey] at hfirst
  subst hkey
  obtain ⟨s, hs⟩ := ht.kept hx hpend hfirst (by rw [hidx]; exact i.2)
  exact mem_presentAt.mpr ⟨s, hidx ▸ hs⟩

variable (hwf : WellFormed a) (hlen : ∀ x ∈ H, x.bytes.length = 987)

include hwf hlen

/-- What a set at the threshold holds can be reconstructed from. -/
theorem recoverable (hmany : 32 ≤ (a.stateOf key).distinctSeen) :
    Recoverable 987 (a.stateOf key).shards where
  pos := by decide
  length := hwf.stateOf_length _
  equal s hs := by
    obtain ⟨i, hi⟩ := List.mem_iff_getElem?.mp hs
    obtain ⟨x, hx, _, _, rfl, _⟩ := ht.origin hi
    exact hlen x hx
  enough := hwf.stateOf_distinct _ ▸ hmany

/-- A set at the threshold is reconstructed. -/
theorem reconstructed_of_many (hrs : C.ReconstructsEqualLengths)
    (hmany : 32 ≤ (a.stateOf key).distinctSeen) : (a.stateOf key).reconstructed = true := by
  cases hrec : (a.stateOf key).reconstructed with
  | true => rfl
  | false =>
      obtain ⟨out, hout⟩ := reconstruct_succeeds hrs (ht.recoverable hwf hlen hmany)
      obtain ⟨e, he⟩ := ht.stuck hrec hmany
      rw [hout] at he
      cases he

/-- **A set of one root is reconstructed exactly at 32 distinct positions.** -/
theorem reconstructed_iff (hrs : C.ReconstructsEqualLengths) {root : Bytes 32}
    (hone : ∀ x ∈ H, x.key = key → x.root = root) :
    (a.stateOf key).reconstructed = true ↔ 32 ≤ (positions H key).card := by
  constructor
  · intro hrec
    have hmany := (ht.enough hrec).1
    rw [hwf.distinct_eq_card] at hmany
    exact hmany.trans (Finset.card_le_card ht.present_subset)
  · intro hmany
    cases hrec : (a.stateOf key).reconstructed with
    | true => rfl
    | false =>
        rw [← ht.present_of_pending hone hrec, ← hwf.distinct_eq_card] at hmany
        rw [← hrec]
        exact ht.reconstructed_of_many hwf hlen hrs hmany

end Tracks

end Positions

end Lattica.Listener
