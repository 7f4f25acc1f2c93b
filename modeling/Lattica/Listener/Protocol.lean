import Lattica.Listener.Representation

/-!
# The event protocol of a FEC set

The events that carry the key of a set are its `Started`, then one
`ShredAccepted` for each shard stored, numbered from 1 on, and with the 32nd of
them one `Reconstructed`. `Announced` ties such a trace to the state of the set;
every exit extends it or leaves it.
-/

namespace Lattica.Listener

open Foundation Shred Reedsol

variable {C : Crates} {P : Profile} {a : FecAssembler} {x : Admitted} {st : FecState}
  {ss : SlotState} {es : List FecEvent}

/-- The set an event is about. -/
def FecEvent.key? : FecEvent → Option FecKey
  | .started key _ => some key
  | .shredAccepted key _ _ => some key
  | .reconstructed key _ _ => some key
  | .slotFinalized .. => none
  | .rejected _ => none

/-- The events of a set, in order. -/
def eventsOf (key : FecKey) (es : List FecEvent) : List FecEvent :=
  es.filter fun e => e.key? = some key

/-- The `ShredAccepted` events of the positions `idxs`, numbered from `n` on. -/
def acceptedFrom (key : FecKey) : ℕ → List ℕ → List FecEvent
  | _, [] => []
  | n, i :: idxs => .shredAccepted key n i :: acceptedFrom key (n + 1) idxs

/-- What a set announces under `root` once the positions `idxs` are stored. -/
def setEvents (key : FecKey) (root : Bytes 32) (idxs : List ℕ) : List FecEvent :=
  .started key root :: acceptedFrom key 1 idxs ++
    if idxs.length = dataShredsThreshold then [.reconstructed key root 1] else []

/-! ## Traces -/

theorem eventsOf_append (key : FecKey) (es es' : List FecEvent) :
    eventsOf key (es ++ es') = eventsOf key es ++ eventsOf key es' :=
  List.filter_append es es'

theorem mem_eventsOf {key : FecKey} {e : FecEvent} :
    e ∈ eventsOf key es ↔ e ∈ es ∧ e.key? = some key := by
  rw [eventsOf, List.mem_filter, decide_eq_true_eq]

theorem acceptedFrom_snoc (key : FecKey) (i : ℕ) : ∀ (n : ℕ) (idxs : List ℕ),
    acceptedFrom key n (idxs ++ [i]) =
      acceptedFrom key n idxs ++ [.shredAccepted key (n + idxs.length) i]
  | n, [] => rfl
  | n, j :: idxs => by
      rw [List.cons_append, acceptedFrom, acceptedFrom_snoc key i (n + 1) idxs, acceptedFrom,
        List.cons_append, List.length_cons, Nat.add_right_comm, Nat.add_assoc]

/-- One more position, below the threshold. -/
theorem setEvents_snoc {key : FecKey} {root : Bytes 32} {idxs : List ℕ} (i : ℕ)
    (h : idxs.length + 1 < 32) : setEvents key root (idxs ++ [i]) =
      setEvents key root idxs ++ [.shredAccepted key (idxs.length + 1) i] := by
  have hnow : idxs.length ≠ 32 := by omega
  have hthen : (idxs ++ [i]).length ≠ 32 := by
    rw [List.length_append, List.length_singleton]
    omega
  rw [setEvents, setEvents, if_neg hnow, if_neg hthen, acceptedFrom_snoc, Nat.add_comm 1]
  simp

/-- The position that reaches the threshold. -/
theorem setEvents_last {key : FecKey} {root : Bytes 32} {idxs : List ℕ} (i : ℕ)
    (h : idxs.length + 1 = 32) : setEvents key root (idxs ++ [i]) =
      setEvents key root idxs ++
        [.shredAccepted key (idxs.length + 1) i, .reconstructed key root 1] := by
  have hnow : idxs.length ≠ 32 := by omega
  have hthen : (idxs ++ [i]).length = 32 := by
    rw [List.length_append, List.length_singleton, h]
  rw [setEvents, setEvents, if_neg hnow, if_pos hthen, acceptedFrom_snoc, Nat.add_comm 1]
  simp

/-- The trace `es` of a set in state `st`, its shards stored at `idxs` in order. -/
structure Announced (key : FecKey) (st : FecState) (es : List FecEvent) (root : Bytes 32)
    (idxs : List ℕ) : Prop where
  rooted : st.merkleRoot = some root
  events : eventsOf key es = setEvents key root idxs
  nodup : idxs.Nodup
  count : idxs.length = st.distinctSeen
  held : ∀ i ∈ idxs, ∃ s, st.shards[i]? = some (some s)

/-- A set nothing was announced for, or one with its trace. -/
def Traced (key : FecKey) (st : FecState) (es : List FecEvent) : Prop :=
  (st = FecState.new ∧ eventsOf key es = []) ∨ ∃ root idxs, Announced key st es root idxs

/-- Events of no set leave the traces alone. -/
theorem Traced.append {key : FecKey} {es' : List FecEvent} (h : Traced key st es)
    (hno : eventsOf key es' = []) : Traced key st (es ++ es') := by
  have hsame : eventsOf key (es ++ es') = eventsOf key es := by
    rw [eventsOf_append, hno, List.append_nil]
  rcases h with ⟨hnew, hnil⟩ | ⟨root, idxs, h⟩
  · exact Or.inl ⟨hnew, hsame.trans hnil⟩
  · exact Or.inr ⟨root, idxs, h.rooted, hsame.trans h.events, h.nodup, h.count, h.held⟩

/-! ## The events of one call -/

theorem Close.eventsOf_nil {b : FecAssembler} {slot : UInt64} {ss ss' : SlotState}
    (h : Close C b slot ss ss' es) (key : FecKey) : eventsOf key es = [] :=
  h.events fun _ _ _ _ _ => rfl

/-- A call announces nothing for other sets. -/
theorem Exit.eventsOf_ne (hexit : Exit C a x st ss es) {key : FecKey} (hne : key ≠ x.key) :
    eventsOf key es = [] := by
  have hstart : eventsOf key (startEvents a x) = [] := by
    rw [startEvents]
    cases (a.stateOf x.key).merkleRoot with
    | none => simp [eventsOf, FecEvent.key?, Ne.symm hne]
    | some r => rfl
  have haccept : eventsOf key (acceptEvents a x) = [] := by
    rw [acceptEvents, eventsOf_append, hstart]
    simp [eventsOf, FecEvent.key?, Ne.symm hne]
  cases hexit with
  | settled _ hc => exact hc.eventsOf_nil key
  | diverges _ _ _ => rfl
  | outOfRange _ _ =>
      rw [eventsOf_append, hstart]
      rfl
  | duplicate _ _ => exact hstart
  | accepted _ _ _ => exact haccept
  | failed _ _ _ _ =>
      rw [eventsOf_append, haccept]
      rfl
  | recovered _ _ _ _ hc =>
      rw [eventsOf_append, eventsOf_append, haccept, hc.eventsOf_nil key]
      simp [eventsOf, FecEvent.key?, Ne.symm hne]

theorem eventsOf_startEvents : eventsOf x.key (startEvents a x) = startEvents a x := by
  rw [eventsOf, List.filter_eq_self]
  intro e he
  rw [(mem_startEvents.mp he).2]
  exact decide_eq_true rfl

theorem eventsOf_acceptEvents : eventsOf x.key (acceptEvents a x) = acceptEvents a x := by
  rw [acceptEvents, eventsOf_append, eventsOf_startEvents]
  congr 1
  simp [eventsOf, FecEvent.key?]

def FecEvent.isShredAccepted : FecEvent → Bool
  | .shredAccepted .. => true
  | _ => false

/-- `ShredAccepted` is emitted by the exits that store the shard, once. -/
theorem Exit.filter_accepted (hexit : Exit C a x st ss es) :
    es.filter FecEvent.isShredAccepted =
      if st.distinctSeen = (a.stateOf x.key).distinctSeen + 1 then
        [.shredAccepted x.key st.distinctSeen x.idx]
      else [] := by
  have hstart : (startEvents a x).filter FecEvent.isShredAccepted = [] := by
    rw [List.filter_eq_nil_iff]
    intro e he
    rw [(mem_startEvents.mp he).2]
    exact Bool.false_ne_true
  have haccept : (acceptEvents a x).filter FecEvent.isShredAccepted =
      [.shredAccepted x.key ((a.stateOf x.key).distinctSeen + 1) x.idx] := by
    rw [acceptEvents, List.filter_append, hstart]
    rfl
  have hsame : ¬ (a.stateOf x.key).distinctSeen = (a.stateOf x.key).distinctSeen + 1 :=
    (Nat.lt_succ_self _).ne
  cases hexit with
  | settled _ hc => rw [hc.events fun _ _ _ _ _ => rfl, if_neg hsame]
  | diverges _ _ _ =>
      rw [if_neg hsame]
      rfl
  | outOfRange _ _ =>
      rw [List.filter_append, hstart]
      exact (if_neg hsame).symm
  | duplicate _ _ =>
      rw [hstart]
      exact (if_neg hsame).symm
  | accepted _ _ _ => rw [haccept, stored, if_pos rfl]
  | failed _ _ _ _ =>
      rw [List.filter_append, haccept, stored, if_pos rfl]
      rfl
  | recovered _ _ _ _ hc =>
      rw [List.filter_append, List.filter_append, haccept, hc.events fun _ _ _ _ _ => rfl,
        finished, stored, if_pos rfl]
      rfl

/-- The exit that announces a shard stores it, in an open set. -/
theorem Exit.reports_accepted (hexit : Exit C a x st ss es) {key : FecKey} {n i : ℕ} :
    .shredAccepted key n i ∈ es ↔ key = x.key ∧ n = st.distinctSeen ∧ i = x.idx ∧
      st.distinctSeen = (a.stateOf x.key).distinctSeen + 1 := by
  have hmem : .shredAccepted key n i ∈ es ↔
      .shredAccepted key n i ∈ es.filter FecEvent.isShredAccepted := by
    rw [List.mem_filter]
    exact (and_iff_left rfl).symm
  rw [hmem, hexit.filter_accepted]
  by_cases h : st.distinctSeen = (a.stateOf x.key).distinctSeen + 1
  · rw [if_pos h, List.mem_singleton, FecEvent.shredAccepted.injEq]
    exact ⟨fun ⟨hk, hn, hi⟩ => ⟨hk, hn, hi, h⟩, fun ⟨hk, hn, hi, _⟩ => ⟨hk, hn, hi⟩⟩
  · rw [if_neg h]
    exact ⟨fun hm => absurd hm List.not_mem_nil, fun ⟨_, _, _, hd⟩ => absurd hd h⟩

/-! ## What a call does to the trace of its set -/

section Step

variable (htr : Traced x.key (a.stateOf x.key) es) (hopen : Open a x)

include htr hopen

/-- The root is announced, unless it was. -/
theorem Traced.start :
    ∃ idxs, Announced x.key (rooted a x) (es ++ startEvents a x) x.root idxs := by
  rcases htr with ⟨hnew, hnil⟩ | ⟨root, idxs, h⟩
  · refine ⟨[], rfl, ?_, List.nodup_nil, ?_, ?_⟩
    · rw [eventsOf_append, hnil, eventsOf_startEvents, startEvents, hnew]
      rfl
    · rw [rooted, hnew]
      rfl
    · intro i hi
      cases hi
  · have hroot : root = x.root := hopen.root root h.rooted
    subst hroot
    refine ⟨idxs, rfl, ?_, h.nodup, h.count, h.held⟩
    rw [eventsOf_append, h.events, eventsOf_startEvents, startEvents, h.rooted, List.append_nil]

variable (hfree : Free a x)

include hfree

/-- One more shard is announced; with the 32nd the set is. -/
theorem Traced.store {es' : List FecEvent} (hst : st.merkleRoot = some x.root)
    (hdist : st.distinctSeen = (a.stateOf x.key).distinctSeen + 1)
    (hset : st.shards = (a.stateOf x.key).shards.set x.idx (some x.bytes))
    (hevents : eventsOf x.key es' = acceptEvents a x ++
      if (a.stateOf x.key).distinctSeen + 1 = 32 then [.reconstructed x.key x.root 1] else [])
    (hle : (a.stateOf x.key).distinctSeen + 1 ≤ 32) :
    ∃ idxs, Announced x.key st (es ++ es') x.root idxs := by
  obtain ⟨idxs, h⟩ := Traced.start htr hopen
  have hcount : idxs.length = (a.stateOf x.key).distinctSeen := h.count
  have hnew : x.idx ∉ idxs := by
    intro hi
    obtain ⟨s, hs⟩ := h.held _ hi
    exact absurd (hfree.symm.trans hs) (by simp)
  refine ⟨idxs ++ [x.idx], hst, ?_, ?_, ?_, ?_⟩
  · have hstart : eventsOf x.key es ++ startEvents a x = setEvents x.key x.root idxs := by
      rw [← h.events, eventsOf_append, eventsOf_startEvents]
    rw [eventsOf_append, hevents, acceptEvents, List.append_assoc, ← List.append_assoc, hstart,
      ← hcount]
    by_cases hlast : idxs.length + 1 = 32
    · rw [if_pos hlast, setEvents_last _ hlast]
      rfl
    · rw [if_neg hlast, setEvents_snoc _ (by omega)]
      rfl
  · rw [List.nodup_append]
    refine ⟨h.nodup, List.nodup_singleton _, ?_⟩
    intro i hi j hj heq
    rw [List.mem_singleton.mp hj] at heq
    exact hnew (heq ▸ hi)
  · rw [List.length_append, List.length_singleton, hcount, hdist]
  · intro i hi
    rw [hset, List.getElem?_set]
    by_cases heq : x.idx = i
    · rw [if_pos heq, if_pos (List.getElem?_eq_some_iff.mp hfree).1]
      exact ⟨_, rfl⟩
    · rw [if_neg heq]
      rw [List.mem_append, List.mem_singleton] at hi
      rcases hi with hi | hi
      · exact h.held i hi
      · exact absurd hi.symm heq

end Step

/-- What a call does to the trace of its set, where the crate does not fail. -/
theorem Traced.step (htr : Traced x.key (a.stateOf x.key) es)
    {es' : List FecEvent} (hexit : Exit C a x st ss es')
    (hfew : (a.stateOf x.key).reconstructed = false → (a.stateOf x.key).distinctSeen < 32)
    (hdone : 32 ≤ st.distinctSeen → st.reconstructed = true) :
    Traced x.key st (es ++ es') := by
  cases hexit with
  | settled _ hc => exact htr.append (hc.eventsOf_nil x.key)
  | diverges _ _ _ => exact htr.append rfl
  | outOfRange hopen _ =>
      rw [← List.append_assoc]
      obtain ⟨idxs, h⟩ := htr.start hopen
      exact Traced.append (Or.inr ⟨_, idxs, h⟩) rfl
  | duplicate hopen _ =>
      obtain ⟨idxs, h⟩ := htr.start hopen
      exact Or.inr ⟨_, idxs, h⟩
  | accepted hopen hfree hlt =>
      have hone : eventsOf x.key (acceptEvents a x) = acceptEvents a x ++
          if (a.stateOf x.key).distinctSeen + 1 = 32 then [.reconstructed x.key x.root 1] else [] :=
        by rw [eventsOf_acceptEvents, if_neg (by omega), List.append_nil]
      have htrace : ∃ idxs, Announced x.key (stored a x) (es ++ acceptEvents a x) x.root idxs :=
        htr.store hopen hfree rfl rfl rfl hone (by omega)
      exact Or.inr ⟨_, htrace⟩
  | failed hopen _ hmany _ =>
      have hrec : (a.stateOf x.key).reconstructed = true := hdone hmany
      rw [hopen.pending] at hrec
      cases hrec
  | @recovered _ _ es₀ hopen hfree hmany _ hc =>
      have hone : (a.stateOf x.key).distinctSeen + 1 = 32 :=
        Nat.le_antisymm (hfew hopen.pending) hmany
      have hevents : eventsOf x.key (acceptEvents a x ++ [.reconstructed x.key x.root 1] ++ es₀) =
          acceptEvents a x ++ [.reconstructed x.key x.root 1] := by
        rw [eventsOf_append, eventsOf_append, eventsOf_acceptEvents, hc.eventsOf_nil,
          List.append_nil]
        simp [eventsOf, FecEvent.key?]
      have htrace : ∃ idxs, Announced x.key (finished a x)
          (es ++ (acceptEvents a x ++ [.reconstructed x.key x.root 1] ++ es₀)) x.root idxs :=
        htr.store hopen hfree rfl rfl rfl (by rw [hevents, if_pos hone]) hone.le
      exact Or.inr ⟨_, htrace⟩

/-- **Every set of every run has its trace.** -/
theorem run_traced (hrs : C.ReconstructsEqualLengths) {calls : List Call}
    (h : ingestAll C P .new calls = .ok (a, es)) (key : FecKey) :
    Traced key (a.stateOf key) es := by
  refine (run_events (Q := fun H a es => Tracks C H a ∧
    ((∀ y ∈ H, y.bytes.length = 987) → ∀ key, Traced key (a.stateOf key) es)) ?_ ?_ ?_ h).2.2
    (fun _ => length_of_mem_admitted) key
  · exact ⟨tracks_new, fun _ key => Or.inl ⟨rfl, rfl⟩⟩
  · rintro H a es reason ⟨ht, htr⟩
    exact ⟨ht, fun hlen key => (htr hlen key).append rfl⟩
  · rintro H a es x st ss es' hwf ⟨ht, htr⟩ hexit
    have ht' := ht.step hwf hexit
    refine ⟨ht', fun hlen key => ?_⟩
    have hold := fun y hy => hlen y (List.mem_append_left [x] hy)
    by_cases heq : key = x.key
    · subst heq
      have hput : (a.put x.key st ss).stateOf x.key = st := FecAssembler.stateOf_put_self a
      rw [hput]
      refine (htr hold x.key).step hexit (ht.few_of_pending hwf hold hrs) fun hmany => ?_
      rw [← hput] at hmany ⊢
      exact ht'.reconstructed_of_many (hexit.wellFormed hwf) hlen hrs hmany
    · rw [FecAssembler.stateOf_put_ne a heq]
      exact (htr hold key).append (hexit.eventsOf_ne heq)

/-! ## The protocol -/

/-- What a run has said about a set. -/
theorem run_trace (hrs : C.ReconstructsEqualLengths) {calls : List Call}
    (h : ingestAll C P .new calls = .ok (a, es)) (key : FecKey) :
    eventsOf key es = [] ∨ ∃ root idxs, eventsOf key es = setEvents key root idxs ∧
      idxs.length ≤ 32 ∧ idxs.Nodup ∧ ∀ i ∈ idxs, i < 64 := by
  rcases run_traced hrs h key with ⟨_, hnil⟩ | ⟨root, idxs, htr⟩
  · exact Or.inl hnil
  · refine Or.inr ⟨root, idxs, htr.events, ?_, htr.nodup, ?_⟩
    · rw [htr.count]
      exact run_distinct_le hrs h key
    · intro i hi
      obtain ⟨s, hs⟩ := htr.held i hi
      have hlt := (List.getElem?_eq_some_iff.mp hs).1
      rwa [(run_wellFormed h).stateOf_length] at hlt

/-- Only an open set grows. -/
theorem Exit.open_of_grows (hexit : Exit C a x st ss es)
    (hgrow : st.distinctSeen = (a.stateOf x.key).distinctSeen + 1) : Open a x := by
  rcases hexit.grows with hsame | ⟨hopen, _⟩
  · exact absurd (hsame.symm.trans hgrow) (Nat.lt_succ_self _).ne
  · exact hopen

section OneCall

variable {pre : List Call} {c : Call} {a₁ a₂ : FecAssembler} {es₁ es₂ : List FecEvent}
  {key : FecKey} (hpre : ingestAll C P .new pre = .ok (a₁, es₁))
  (hc : ingest C P c.leaders a₁ c.raw = .ok (a₂, es₂))

include hpre hc

/-- The set is reconstructed by the call that announces its 32nd shred. -/
theorem reconstructed_with_last (hrs : C.ReconstructsEqualLengths) :
    (∃ root das, .reconstructed key root das ∈ es₂) ↔ ∃ i, .shredAccepted key 32 i ∈ es₂ := by
  have hrun := ingestAll_snoc_eq_ok.mpr ⟨a₁, es₁, es₂, hpre, hc, rfl⟩
  obtain ⟨hwf, ht⟩ := run_tracks hrun
  rcases ingest_cases (run_wellFormed hpre) hc with ⟨_, _, _, rfl⟩ | ⟨x, st, ss, _, rfl, hexit⟩
  · simp
  have hput : (a₁.put x.key st ss).stateOf x.key = st := FecAssembler.stateOf_put_self a₁
  constructor
  · rintro ⟨root, das, hmem⟩
    obtain ⟨rfl, _, _, hrec, _, hgrow⟩ := hexit.reports_reconstructed hmem
    -- 32 shards or more are there, and never more than 32
    have henough := (ht.enough (hput.symm ▸ hrec)).1
    have hle := run_distinct_le hrs hrun x.key
    rw [hput] at henough hle
    exact ⟨x.idx, hexit.reports_accepted.mpr ⟨rfl, henough.antisymm hle, rfl, hgrow⟩⟩
  · rintro ⟨i, hmem⟩
    obtain ⟨rfl, hn, _, hgrow⟩ := hexit.reports_accepted.mp hmem
    have hmany : 32 ≤ ((a₁.put x.key st ss).stateOf x.key).distinctSeen := by
      rw [hput, ← hn]
    have hrec := ht.reconstructed_of_many hwf (fun _ => length_of_mem_admitted) hrs hmany
    rw [hput] at hrec
    have hfilter := hexit.filter_reconstructed
    rw [if_pos ⟨(hexit.open_of_grows hgrow).pending, hrec⟩] at hfilter
    exact ⟨_, _, List.mem_of_mem_filter (hfilter ▸ List.mem_singleton.mpr rfl)⟩

/-- A shred that is announced was accepted under the root of its set. -/
theorem announced_under_root {n i : ℕ} (hmem : .shredAccepted key n i ∈ es₂) :
    ∃ w, c.Accepts C P w ∧ key = ⟨w.slot, w.fecSetIndex⟩ ∧ i = w.erasureShardIndex ∧
      .started key w.merkleRoot ∈ es₁ ++ es₂ := by
  have hrun := ingestAll_snoc_eq_ok.mpr ⟨a₁, es₁, es₂, hpre, hc, rfl⟩
  have hwf := run_wellFormed hpre
  rcases ingest_cases hwf hc with ⟨_, _, _, rfl⟩ | ⟨x, st, ss, hgate, rfl, hexit⟩
  · simp at hmem
  · obtain ⟨rfl, _, rfl, hgrow⟩ := hexit.reports_accepted.mp hmem
    have hroot : st.merkleRoot = some x.root := by
      rw [hexit.root hwf, rooted_getD (hexit.open_of_grows hgrow)]
    refine ⟨x.shred, accepts_of_gate hgate, rfl, rfl, (run_started hrun).mpr ?_⟩
    rw [FecAssembler.stateOf_put_self]
    exact hroot

end OneCall

/-- **The event protocol of a FEC set**, in every run and for every key. -/
theorem set_protocol (C : Crates) (hrs : C.ReconstructsEqualLengths) (P : Profile)
    (calls : List Call) (a : FecAssembler) (es : List FecEvent)
    (h : ingestAll C P .new calls = .ok (a, es)) (key : FecKey) :
    (eventsOf key es = [] ∨ ∃ root idxs, eventsOf key es = setEvents key root idxs ∧
      idxs.length ≤ 32 ∧ idxs.Nodup ∧ ∀ i ∈ idxs, i < 64) ∧
    ∀ pre c post a₁ es₁ a₂ es₂, calls = pre ++ c :: post →
      ingestAll C P .new pre = .ok (a₁, es₁) → ingest C P c.leaders a₁ c.raw = .ok (a₂, es₂) →
      ((∃ root das, .reconstructed key root das ∈ es₂) ↔ ∃ i, .shredAccepted key 32 i ∈ es₂) ∧
      ∀ n i, .shredAccepted key n i ∈ es₂ → ∃ w, c.Accepts C P w ∧
        key = ⟨w.slot, w.fecSetIndex⟩ ∧ i = w.erasureShardIndex ∧
        .started key w.merkleRoot ∈ es₁ ++ es₂ := by
  refine ⟨run_trace hrs h key, ?_⟩
  intro pre c post a₁ es₁ a₂ es₂ _ hpre hc
  exact ⟨reconstructed_with_last hpre hc hrs, fun n i hmem => announced_under_root hpre hc hmem⟩

/-- The set at 64 of a delivered sample has run through its protocol. -/
theorem set_protocol_small : ∃ calls a es root idxs,
    ingestAll (referenceCrates sha256) ⟨true⟩ .new calls = .ok (a, es) ∧
      eventsOf ⟨0, 64⟩ es = setEvents ⟨0, 64⟩ root idxs ∧ idxs.length ≤ 32 := by
  obtain ⟨_, a, es, _, hrun, hrec⟩ := exists_sampleRun 64 0xc0 (by decide)
  obtain ⟨htrace, _⟩ := set_protocol _ referenceCrates_decodesMds.reconstructsEqualLengths ⟨true⟩
    _ a es hrun ⟨0, 64⟩
  rcases htrace with hnil | ⟨root, idxs, hevents, hle, _⟩
  · obtain ⟨r, hr⟩ := (run_wellFormed hrun).root (stateOf_eq_of_reconstructed hrec)
    have hstart := (run_started hrun).mpr hr
    have hmem : .started ⟨0, 64⟩ r ∈ eventsOf ⟨0, 64⟩ es := mem_eventsOf.mpr ⟨hstart, rfl⟩
    rw [hnil] at hmem
    cases hmem
  · exact ⟨_, a, es, root, idxs, hrun, hevents, hle⟩

end Lattica.Listener
