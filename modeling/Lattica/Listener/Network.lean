import Lattica.Listener.Backing
import Lattica.Listener.Recovery
import Lattica.Listener.Udp

/-!
# From the network to the consumer

Peers put datagrams on a network that may lose, repeat and reorder them; the
listener receives some of them, along with errors of the socket, and a consumer
takes its events. What the consumer is told is backed by what was sent, and
follows the event protocol of a set; where all shreds heard of a set have one
root, the consumer is told of its reconstruction exactly where 32 positions came
through. A datagram repeated on the way counts once.
-/

namespace Lattica.Listener.Udp

open Foundation Shred Reedsol Channel

variable {C : Crates} {P : Profile} {S T : Pipeline} {key : FecKey} {root : Bytes 32}

/-- The datagrams put on the network so far, and the listener. -/
structure Network where
  sent : List (List UInt8)
  pipe : Pipeline

def Network.idle : Network := ⟨[], .spawned .new⟩

/-- A datagram that is never delivered is lost, one delivered again repeated,
and any datagram sent may be the next one. -/
inductive NetworkStep (C : Crates) (P : Profile) : Network → Network → Prop where
  | transmit (N : Network) (raw : List UInt8) :
      NetworkStep C P N { N with sent := N.sent ++ [raw] }
  | deliver {N : Network} {leaders : Leaders} {raw : List UInt8} {S : Pipeline}
      (hsent : raw ∈ N.sent)
      (hstep : Step (serve C P) strict N.pipe (.input (.datagram leaders raw)) S) :
      NetworkStep C P N { N with pipe := S }
  /-- A socket error, or a step of the task or its consumer. -/
  | other {N : Network} {m : Action Received} {S : Pipeline}
      (hother : ∀ leaders raw, m ≠ .input (.datagram leaders raw))
      (hstep : Step (serve C P) strict N.pipe m S) : NetworkStep C P N { N with pipe := S }

def NetworkReachable (C : Crates) (P : Profile) : Network → Prop :=
  Relation.ReflTransGen (NetworkStep C P) .idle

/-- The listener handles what was sent, and nothing else. -/
theorem NetworkReachable.pipe {N : Network} (h : NetworkReachable C P N) :
    Reachable C P N.pipe ∧ ∀ c ∈ calls N.pipe.handled, c.raw ∈ N.sent := by
  induction h with
  | refl => exact ⟨⟨[], .refl⟩, fun c hc => absurd hc List.not_mem_nil⟩
  | @tail N _ _ hstep ih =>
      obtain ⟨⟨acts, hruns⟩, hsent⟩ := ih
      cases hstep with
      | transmit raw => exact ⟨⟨acts, hruns⟩, fun c hc => List.mem_append_left _ (hsent c hc)⟩
      | @deliver leaders raw S hraw hstep =>
          refine ⟨⟨_, hruns.snoc hstep⟩, ?_⟩
          cases hstep with
          | handle _ _ =>
              intro c hc
              change c ∈ List.filterMap _ (N.pipe.handled ++ [.datagram leaders raw]) at hc
              rw [List.filterMap_append, List.mem_append] at hc
              rcases hc with hc | hc
              · exact hsent c hc
              · rw [List.mem_singleton.mp hc]
                exact hraw
          | panic _ _ => exact hsent
      | @other m S hother hstep =>
          refine ⟨⟨_, hruns.snoc hstep⟩, ?_⟩
          cases hstep with
          | @handle _ _ _ x _ _ _ =>
              cases x with
              | datagram leaders raw => exact absurd rfl (hother leaders raw)
              | error e =>
                  intro c hc
                  change c ∈ List.filterMap _ (N.pipe.handled ++ [.error e]) at hc
                  rw [List.filterMap_append, List.mem_append] at hc
                  rcases hc with hc | hc
                  · exact hsent c hc
                  · exact absurd hc List.not_mem_nil
          | panic _ _ => exact hsent
          | send _ _ _ => exact hsent
          | stop _ _ => exact hsent
          | skip _ _ => exact hsent
          | take _ _ => exact hsent
          | drop _ => exact hsent

/-! ## Runs of the assembler as runs over the network -/

theorem calls_map (cs : List Call) :
    calls (cs.map fun c => .datagram c.leaders c.raw) = cs := by
  rw [calls, List.filterMap_map]
  exact List.filterMap_some

/-- A run of the assembler, delivered to the last event. -/
theorem exists_delivered {cs : List Call} {a : FecAssembler} {es : List FecEvent}
    (h : ingestAll C P .new cs = .ok (a, es)) : ∃ S : Pipeline, Reachable C P S ∧
      calls S.handled = cs ∧ S.taken = es ∧ S.channel.isSome = true ∧ S.load = 0 := by
  obtain ⟨buf, hserve⟩ := serveAll_of_ingestAll (t := .new) h
  have hroom : 0 < channelCapacity := by decide
  obtain ⟨S, _, hreach, hhandled, htaken, _, hopen, hload⟩ := exists_reachable strict hroom hserve
  exact ⟨S, hreach, by rw [hhandled, calls_map], htaken, hopen, hload⟩

/-- Every run of the listener is one over the network. -/
theorem exists_network (h : Reachable C P S) :
    ∃ N, NetworkReachable C P N ∧ N.pipe = S := by
  obtain ⟨acts, hruns⟩ := h
  induction hruns with
  | refl => exact ⟨.idle, .refl, rfl⟩
  | @snoc acts m T U _ hstep ih =>
      obtain ⟨N, hN, rfl⟩ := ih
      cases m with
      | input x =>
          cases x with
          | datagram leaders raw =>
              have hsent := hN.tail (.transmit N raw)
              refine ⟨_, hsent.tail (.deliver ?_ hstep), rfl⟩
              exact List.mem_append_right _ (List.mem_singleton_self raw)
          | error e =>
              refine ⟨_, hN.tail (.other ?_ hstep), rfl⟩
              intro leaders raw heq
              cases heq
      | send => exact ⟨_, hN.tail (.other (fun _ _ heq => by cases heq) hstep), rfl⟩
      | fail => exact ⟨_, hN.tail (.other (fun _ _ heq => by cases heq) hstep), rfl⟩
      | take => exact ⟨_, hN.tail (.other (fun _ _ heq => by cases heq) hstep), rfl⟩
      | drop => exact ⟨_, hN.tail (.other (fun _ _ heq => by cases heq) hstep), rfl⟩

/-- A listener that was sent the data shreds of a set, and has told its consumer. -/
theorem exists_told : ∃ (B : BuiltSet (referenceCrates sha256) ⟨true⟩) (S : Pipeline)
    (root : Bytes 32) (das : ℚ), Reachable (referenceCrates sha256) ⟨true⟩ S ∧
      calls S.handled = (halfOf 0 0).map B.alone.call ∧ S.channel.isSome = true ∧ S.load = 0 ∧
      .reconstructed B.key root das ∈ S.taken := by
  obtain ⟨B, a, es, hB, hrun, hrec⟩ := exists_sampleRun 64 0xc0 (by decide)
  obtain ⟨S, hreach, hcalls, htaken, hopen, hload⟩ := exists_delivered hrun
  have hkey : B.key = ⟨0, 64⟩ := by
    change (⟨B.params.slot, B.params.fecSetIndex⟩ : FecKey) = _
    rw [hB]
    rfl
  obtain ⟨root, hroot⟩ := (run_wellFormed hrun).root (stateOf_eq_of_reconstructed hrec)
  obtain ⟨das, hmem⟩ := (run_reconstructed hrun).mpr ⟨hrec, hroot⟩
  rw [← hkey, ← htaken] at hmem
  exact ⟨B, S, root, das, hreach, hcalls, hopen, hload, hmem⟩

/-! ## What the consumer is told -/

/-- But for rejections, the consumer has an initial part of the events of the
calls handled. -/
theorem Reachable.tells (h : Reachable C P S) : ∃ a es,
    ingestAll C P .new (calls S.handled) = .ok (a, es) ∧
      ∀ p : FecEvent → Bool, (∀ r, p (.rejected r) = false) →
        S.taken.filter p <+: es.filter p := by
  obtain ⟨t, es, hacc, hrun⟩ := h.hears
  obtain ⟨es', hcalls, _, hfilter⟩ := ingestAll_of_hear hrun
  refine ⟨t.asm, es', hcalls, ?_⟩
  intro p hp
  rw [← hfilter p hp]
  exact hacc.taken_le.filter p

/-- An event the consumer took, but for rejections, is an event of the calls. -/
theorem mem_of_taken {es : List FecEvent} {e : FecEvent} {p : FecEvent → Bool}
    (htold : S.taken.filter p <+: es.filter p) (hp : p e = true) (he : e ∈ S.taken) : e ∈ es :=
  List.mem_of_mem_filter (htold.subset (List.mem_filter.mpr ⟨he, hp⟩))

/-- **What the consumer is told is backed by what was sent.** However the network
loses, repeats and reorders datagrams and whatever garbage is among them, a
reconstruction or a final slot is reported with certainty, and for every set it
names there are 32 different positions, for each of which a datagram was sent and
handled that is accepted, under the leader the resolver gave while it was handled,
as the shred of that set at that position under the reported root. -/
theorem reports_backed_by_network (C : Crates) (P : Profile) (N : Network)
    (h : NetworkReachable C P N) : (∀ c ∈ calls N.pipe.handled, c.raw ∈ N.sent) ∧
      ∀ e ∈ N.pipe.taken, e.Substantiated C P (calls N.pipe.handled) := by
  obtain ⟨hreach, hsent⟩ := h.pipe
  obtain ⟨a, es, hrun, htold⟩ := hreach.tells
  refine ⟨hsent, ?_⟩
  intro e he
  cases e with
  | started key root => trivial
  | shredAccepted key n i => trivial
  | rejected reason => trivial
  | reconstructed key root das =>
      have htold := htold FecEvent.isReconstructed fun _ => rfl
      exact run_substantiated hrun _ (mem_of_taken htold rfl he)
  | slotFinalized slot roots slotRoot n conf =>
      have htold := htold FecEvent.isSlotFinalized fun _ => rfl
      exact run_substantiated hrun _ (mem_of_taken htold rfl he)

theorem reports_backed_by_network_told : ∃ (N : Network) (key : FecKey) (root : Bytes 32),
    NetworkReachable (referenceCrates sha256) ⟨true⟩ N ∧
      (∀ c ∈ calls N.pipe.handled, c.raw ∈ N.sent) ∧
      (∃ das, .reconstructed key root das ∈ N.pipe.taken) ∧
      Backed (referenceCrates sha256) ⟨true⟩ (calls N.pipe.handled) key root := by
  obtain ⟨B, S, root, das, hreach, _, _, _, hmem⟩ := exists_told
  obtain ⟨N, hN, rfl⟩ := exists_network hreach
  obtain ⟨hsent, hbacked⟩ := reports_backed_by_network _ _ N hN
  exact ⟨N, B.key, root, hN, hsent, ⟨das, hmem⟩, (hbacked _ hmem).2⟩

/-- **The consumer sees the protocol.** In every state of every interleaving what
it has of a set is an initial part of the set's protocol, so no set is reported
reconstructed twice or before 32 of its shreds, and no slot is final twice. -/
theorem consumer_sees_protocol (C : Crates) (hrs : C.ReconstructsEqualLengths) (P : Profile)
    (S : Pipeline) (h : Reachable C P S) :
    (∀ key, ∃ root idxs, eventsOf key S.taken <+: setEvents key root idxs ∧ idxs.length ≤ 32 ∧
      idxs.Nodup ∧ ∀ i ∈ idxs, i < 64) ∧
    ∀ slot, (S.taken.filter (FecEvent.finalizes slot)).length ≤ 1 := by
  obtain ⟨a, es, hrun, htold⟩ := h.tells
  constructor
  · intro key
    have htold : eventsOf key S.taken <+: eventsOf key es :=
      htold (fun e => e.key? = some key) fun _ => rfl
    rcases run_trace hrs hrun key with hnil | ⟨root, idxs, htrace, hrest⟩
    · rw [hnil, List.prefix_nil] at htold
      refine ⟨Bytes.zero 32, [], ?_, Nat.zero_le _, List.nodup_nil, ?_⟩
      · rw [htold]
        exact List.nil_prefix
      · intro i hi
        exact absurd hi List.not_mem_nil
    · rw [htrace] at htold
      exact ⟨root, idxs, htold, hrest⟩
  · intro slot
    apply (htold (FecEvent.finalizes slot) fun _ => rfl).length_le.trans
    rw [run_finalized_once hrun slot]
    split
    · exact le_rfl
    · exact Nat.zero_le 1

theorem consumer_sees_protocol_told : ∃ (S : Pipeline) (key : FecKey) (root : Bytes 32)
    (idxs : List ℕ), (∃ root das, .reconstructed key root das ∈ S.taken) ∧
      eventsOf key S.taken <+: setEvents key root idxs ∧ idxs.length ≤ 32 := by
  obtain ⟨B, S, root, das, hreach, _, _, _, hmem⟩ := exists_told
  obtain ⟨hsets, _⟩ := consumer_sees_protocol _
    referenceCrates_decodesMds.reconstructsEqualLengths ⟨true⟩ S hreach
  obtain ⟨root', idxs, hprefix, hle, _⟩ := hsets B.key
  exact ⟨S, B.key, root', idxs, ⟨root, das, hmem⟩, hprefix, hle⟩

/-- **What comes through is enough.** Take a set whose datagrams, among those
handled, are all accepted under one root. Once nothing is on its way any more, the
consumer has been told that the set is reconstructed exactly where they cover
32 positions. -/
theorem told_iff_backed (C : Crates) (hrs : C.ReconstructsEqualLengths) (P : Profile)
    (S : Pipeline) (h : Reachable C P S) (hopen : S.channel.isSome = true) (hload : S.load = 0)
    (key : FecKey) (root : Bytes 32)
    (hone : ∀ root' i, AcceptedAt C P (calls S.handled) key root' i → root' = root) :
    (∃ das, .reconstructed key root das ∈ S.taken) ↔
      Backed C P (calls S.handled) key root := by
  obtain ⟨t, es, hacc, hrun⟩ := h.hears
  obtain ⟨es', hcalls, _, hfilter⟩ := ingestAll_of_hear hrun
  have hsame := hfilter FecEvent.isReconstructed fun _ => rfl
  rw [hacc.delivered hopen hload, ← reconstructed_iff_backed hrs hcalls hone]
  have hmem : ∀ das, .reconstructed key root das ∈ es ↔ .reconstructed key root das ∈ es' := by
    intro das
    have hin : ∀ xs : List FecEvent, .reconstructed key root das ∈ xs ↔
        .reconstructed key root das ∈ xs.filter FecEvent.isReconstructed := by
      intro xs
      rw [List.mem_filter]
      exact (and_iff_left rfl).symm
    rw [hin es, hin es', hsame]
  exact exists_congr hmem

theorem told_iff_backed_told : ∃ (S : Pipeline) (key : FecKey) (root : Bytes 32),
    (∃ das, .reconstructed key root das ∈ S.taken) ∧
      Backed (referenceCrates sha256) ⟨true⟩ (calls S.handled) key root := by
  obtain ⟨B, S, root, das, hreach, hcalls, hopen, hload, hmem⟩ := exists_told
  have hroots : ∀ root' i, AcceptedAt (referenceCrates sha256) ⟨true⟩ (calls S.handled) B.key
      root' i → root' = B.set.merkleRoot := by
    intro root' i hacc
    obtain ⟨x, hx, hkey, rfl, _⟩ := hacc.admitted
    rw [hcalls, B.alone.admitted_calls referenceCrates_acceptsHonestSignatures] at hx
    exact B.alone.root_of_key (k := 0) x hx hkey
  have hroot : root = B.set.merkleRoot := by
    obtain ⟨a, es, hrun, htold⟩ := hreach.tells
    have hes := mem_of_taken (htold FecEvent.isReconstructed fun _ => rfl) rfl hmem
    obtain ⟨_, s, hcard, hall⟩ := run_substantiated hrun _ hes
    obtain ⟨i, hi⟩ := Finset.card_pos.mp (Nat.lt_of_lt_of_le (by decide) hcard)
    exact hroots root i.1 (hall i hi)
  subst hroot
  exact ⟨S, B.key, B.set.merkleRoot, ⟨das, hmem⟩, (told_iff_backed _
    referenceCrates_decodesMds.reconstructsEqualLengths ⟨true⟩ S hreach hopen hload B.key
    B.set.merkleRoot hroots).mp ⟨das, hmem⟩⟩

end Lattica.Listener.Udp
