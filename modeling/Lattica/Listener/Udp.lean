import Lattica.Foundation.Channel
import Lattica.Listener.Footprint
import Lattica.Listener.Protocol
import Lattica.Listener.Safety

/-!
# The UDP listener

`run_listener_with_resolver` of `crates/listener/src/udp.rs`: a task that
receives datagrams into one buffer of 2048 bytes, hands each to the assembler
and sends its events, one at a time, into a channel of 1024 places. `serve` is
one turn of the loop as the code makes it, `hear` the same without the buffer.
A datagram that does not fit the buffer is cut, which no shred notices
(`ingest_take`), so the two agree and every interleaving of the task with its
consumer delivers what the assembler yields for the datagrams as they were sent.
-/

namespace Lattica.Listener

open Foundation Shred Reedsol

variable {C : Crates} {P : Profile} {a a' : FecAssembler} {leaders : Leaders} {raw : List UInt8}
  {es : List FecEvent}

/-! ## Cut datagrams -/

/-- A buffer with an unknown variant byte is refused for that byte alone. -/
theorem parseShred_undecodable {e : ShredError} (hlen : 83 ≤ raw.length)
    (hv : ShredVariant.decode (raw.getD 64 0) = .error e) : parseShred P raw = .err e := by
  have hsig : (cut raw 0 64).length = 64 := by
    rw [length_cut (by omega)]
  rw [parseShred, if_neg (by simpa using hlen), slice_eq (by omega) (by simp; omega), Exec.ok_bind,
    toArray_eq_asArray hsig, Exec.ok_bind, getByte_eq (by omega), Exec.ok_bind, hv]
  rfl

/-- A cut behind the longest shred is not noticed. -/
theorem ingest_take {n : ℕ} (hn : 1228 ≤ n) (a : FecAssembler) (raw : List UInt8) :
    ingest C P leaders a (raw.take n) = ingest C P leaders a raw := by
  by_cases hshort : raw.length ≤ n
  · rw [List.take_of_length_le hshort]
  · have hlen : (raw.take n).length = n := by
      rw [List.length_take]
      omega
    have hbyte : (raw.take n).getD 64 0 = raw.getD 64 0 :=
      getD_of_take_eq (n := n) (by rw [List.take_take, Nat.min_self]) (by omega)
    cases hv : ShredVariant.decode (raw.getD 64 0) with
    | error e =>
        have hcut : parseShred P (raw.take n) = .err e :=
          parseShred_undecodable (by omega) (by rw [hbyte, hv])
        rw [ingest, ingest, hcut, parseShred_undecodable (by omega) hv]
        rfl
    | ok v =>
        obtain ⟨_, _, hend⟩ := ShredVariant.fixed_le hv
        have hfull := v.expectedLen_le
        apply ingest_of_agree hv (by omega) (by omega)
        rw [List.take_take, Nat.min_eq_left (by omega)]

/-! ## Events of one call -/

theorem Close.length_le {slot : UInt64} {ss ss' : SlotState} (h : Close C a slot ss ss' es) :
    es.length ≤ 1 := by
  cases h with
  | final _ => exact le_rfl
  | waiting _ => exact Nat.zero_le 1

/-- A call yields at most `Started`, `ShredAccepted`, `Reconstructed` and `SlotFinalized`. -/
theorem Exit.length_le {x : Admitted} {st : FecState} {ss : SlotState}
    (h : Exit C a x st ss es) : es.length ≤ 4 := by
  have hstart : (startEvents a x).length ≤ 1 := by
    unfold startEvents
    split
    · exact le_rfl
    · exact Nat.zero_le 1
  have haccept : (acceptEvents a x).length ≤ 2 := by
    unfold acceptEvents
    rw [List.length_append]
    exact Nat.add_le_add_right hstart 1
  cases h with
  | settled _ hclose => exact hclose.length_le.trans (by decide)
  | diverges _ _ _ => exact (by decide : 1 ≤ 4)
  | outOfRange _ _ =>
      rw [List.length_append]
      exact (Nat.add_le_add_right hstart 1).trans (by decide)
  | duplicate _ _ => exact hstart.trans (by decide)
  | accepted _ _ _ => exact haccept.trans (by decide)
  | failed _ _ _ _ =>
      rw [List.length_append]
      exact (Nat.add_le_add_right haccept 1).trans (by decide)
  | recovered _ _ _ _ hclose =>
      rw [List.length_append, List.length_append]
      exact Nat.add_le_add (Nat.add_le_add_right haccept 1) hclose.length_le

namespace Udp

open Channel

/-- `RECV_BUF`. -/
def recvBuf : ℕ := 2048

/-- `mpsc::channel(1024)`. -/
def channelCapacity : ℕ := 1024

/-- What `recv_from` returns: the datagram a peer sent, along with what the
resolver answers while it is handled, or an error text. -/
inductive Received where
  | datagram (leaders : Leaders) (payload : List UInt8)
  | error (e : String)

/-- The locals of the spawned task. -/
structure Locals where
  asm : FecAssembler
  buf : Bytes recvBuf

def Locals.new : Locals := ⟨.new, Bytes.zero recvBuf⟩

/-- `socket.recv_from(&mut buf)`: the datagram is written over the start of the
buffer, what does not fit is discarded, and the count of bytes written returned. -/
def recvFrom (buf : Bytes recvBuf) (payload : List UInt8) : Bytes recvBuf × ℕ :=
  (⟨splice buf.1 0 (payload.take recvBuf), by
    rw [length_splice (by rw [Nat.zero_add, buf.2]; exact List.length_take_le _ _), buf.2]⟩,
    min payload.length recvBuf)

/-- What of a `FecEvent::Rejected` is the listener's own. -/
def socketError (e : String) : FecEvent := .rejected s!"recv_from: {e}"

variable (C P) in
/-- One turn of the loop. -/
def serve (t : Locals) : Received → Exec Empty (Locals × List FecEvent)
  | .datagram leaders payload => do
      let (buf, n) := recvFrom t.buf payload
      let raw ← slice buf.1 0 n
      let (asm, events) ← ingest C P leaders t.asm raw
      return (⟨asm, buf⟩, events)
  | .error e => return (t, [socketError e])

/-- Only events of a datagram are sent with the check for a dropped consumer. -/
def strict : Received → Bool
  | .datagram .. => true
  | .error _ => false

variable (C P) in
/-- One turn of the loop, on the datagram as it was sent. -/
def hear (a : FecAssembler) : Received → Exec Empty (FecAssembler × List FecEvent)
  | .datagram leaders payload => ingest C P leaders a payload
  | .error e => .ok (a, [socketError e])

abbrev Pipeline : Type := System channelCapacity Locals Received FecEvent

variable (C P) in
def Reachable (S : Pipeline) : Prop := Channel.Reachable (serve C P) strict .new S

/-- Stale bytes of an earlier datagram are not read. -/
theorem slice_recvFrom (buf : Bytes recvBuf) (payload : List UInt8) :
    (slice (recvFrom buf payload).1.1 0 (recvFrom buf payload).2 : Exec Empty _) =
      .ok (payload.take recvBuf) := by
  have hlen : (payload.take recvBuf).length = min payload.length recvBuf := by
    rw [List.length_take, Nat.min_comm]
  have hfit : 0 + (payload.take recvBuf).length ≤ buf.1.length := by
    rw [Nat.zero_add, buf.2]
    exact List.length_take_le _ _
  show slice (splice buf.1 0 (payload.take recvBuf)) 0 (min payload.length recvBuf) = _
  rw [slice_eq (Nat.zero_le _)]
  · rw [cut_splice_self hfit (by rw [hlen, Nat.zero_add])]
  · rw [length_splice hfit, buf.2]
    exact Nat.min_le_right _ _

theorem serve_datagram (t : Locals) (leaders : Leaders) (payload : List UInt8) :
    serve C P t (.datagram leaders payload) = ingest C P leaders t.asm payload >>= fun r =>
      .ok (⟨r.1, (recvFrom t.buf payload).1⟩, r.2) := by
  show (slice (recvFrom t.buf payload).1.1 0 (recvFrom t.buf payload).2 >>= _) = _
  rw [slice_recvFrom, Exec.ok_bind, ingest_take (by decide)]
  rfl

/-- **The buffer changes nothing.** -/
theorem hear_of_serve {t t' : Locals} {x : Received} (h : serve C P t x = .ok (t', es)) :
    hear C P t.asm x = .ok (t'.asm, es) := by
  cases x with
  | datagram leaders payload =>
      rw [serve_datagram] at h
      obtain ⟨⟨asm, events⟩, hi, h⟩ := Exec.bind_eq_ok.mp h
      cases h
      exact hi
  | error e =>
      cases h
      rfl

/-- The datagrams received, as calls of the assembler. -/
def calls (xs : List Received) : List Call :=
  xs.filterMap fun
    | .datagram leaders payload => some ⟨leaders, payload⟩
    | .error _ => none

/-- Receive errors leave the assembler alone: without them the run is the same,
and every event but rejections is. -/
theorem ingestAll_of_hear : ∀ {xs : List Received} {a a' : FecAssembler} {es : List FecEvent},
    handleAll (hear C P) a xs = .ok (a', es) →
    ∃ es', ingestAll C P a (calls xs) = .ok (a', es') ∧ es'.Sublist es ∧
      ∀ p : FecEvent → Bool, (∀ r, p (.rejected r) = false) → es.filter p = es'.filter p := by
  intro xs
  induction xs with
  | nil =>
      intro a a' es h
      cases h
      exact ⟨[], rfl, List.Sublist.refl [], fun _ _ => rfl⟩
  | cons x xs ih =>
      intro a a' es h
      obtain ⟨⟨a₁, es₁⟩, hx, h⟩ := Exec.bind_eq_ok.mp h
      obtain ⟨⟨a₂, es₂⟩, hxs, h⟩ := Exec.bind_eq_ok.mp h
      cases h
      obtain ⟨es', hrun, hsub, hfilter⟩ := ih hxs
      cases x with
      | datagram leaders payload =>
          refine ⟨es₁ ++ es', ?_, (List.Sublist.refl es₁).append hsub, ?_⟩
          · show (ingest C P leaders a payload >>= _) = _
            rw [show ingest C P leaders a payload = .ok (a₁, es₁) from hx, Exec.ok_bind]
            show (ingestAll C P a₁ (calls xs) >>= _) = _
            rw [hrun]
            rfl
          · intro p hp
            rw [List.filter_append, List.filter_append, hfilter p hp]
      | error e =>
          cases hx
          refine ⟨es', hrun, hsub.trans (List.sublist_append_right _ _), ?_⟩
          intro p hp
          have hnone : [socketError e].filter p = [] := by
            rw [List.filter_singleton, socketError, hp]
            rfl
          rw [List.filter_append, hnone, List.nil_append, hfilter p hp]

/-! ## Every interleaving -/

variable {S T : Pipeline}

/-- A reachable pipeline holds the events of the datagrams handled so far. -/
theorem Reachable.hears (h : Reachable C P S) : ∃ t es, Accounts (serve C P) .new S t es ∧
    handleAll (hear C P) .new S.handled = .ok (t.asm, es) := by
  obtain ⟨t, es, hacc⟩ := h.accounts
  exact ⟨t, es, hacc, handleAll_simulates Locals.asm (fun _ _ _ _ => hear_of_serve) hacc.run⟩

theorem wellFormed_of_hears {xs : List Received}
    (h : handleAll (hear C P) .new xs = .ok (a, es)) : WellFormed a := by
  obtain ⟨es', hrun, _, _⟩ := ingestAll_of_hear h
  exact run_wellFormed hrun

/-- A turn of the loop panics on underflowing datagrams, where overflow is checked. -/
theorem serve_panic_iff {t : Locals} (hwf : WellFormed t.asm) {x : Received} :
    (serve C P t x).IsPanic ↔ P.overflowChecks = true ∧
      ∃ leaders raw, x = .datagram leaders raw ∧ IndexUnderflow raw := by
  cases x with
  | error e =>
      constructor
      · rintro ⟨p, hp⟩
        cases hp
      · rintro ⟨_, leaders, raw, heq, _⟩
        cases heq
  | datagram leaders raw =>
      have hpanic : (serve C P t (.datagram leaders raw)).IsPanic ↔
          (ingest C P leaders t.asm raw).IsPanic := by
        rw [serve_datagram]
        cases ingest C P leaders t.asm raw with
        | ok r => simp
        | err e => exact e.elim
        | panic p => simp
      rw [hpanic, ingest_isPanic_iff hwf, parseShred_isPanic_iff]
      constructor
      · rintro ⟨hund, hP⟩
        exact ⟨hP, leaders, raw, rfl, hund⟩
      · rintro ⟨hP, _, _, heq, hund⟩
        cases heq
        exact ⟨hund, hP⟩

/-- A turn yields at most four events. -/
theorem length_events_le {t t' : Locals} (hwf : WellFormed t.asm) {x : Received}
    (h : serve C P t x = .ok (t', es)) : es.length ≤ 4 := by
  cases x with
  | error e =>
      cases h
      exact (by decide : 1 ≤ 4)
  | datagram leaders raw =>
      have h := hear_of_serve h
      rcases ingest_cases hwf h with ⟨_, _, _, rfl⟩ | ⟨_, _, _, _, _, hexit⟩
      · exact (by decide : 1 ≤ 4)
      · exact hexit.length_le

theorem unsent_le_four {acts : List (Action Received)}
    (h : Runs (serve C P) strict (.spawned .new) acts S) : S.task.unsent.length ≤ 4 := by
  refine unsent_le ?_ h
  intro t t' x out T b hreach hready hturn
  obtain ⟨_, _, hacc, hrun⟩ := Reachable.hears hreach
  cases hacc.state hready
  exact length_events_le (wellFormed_of_hears hrun) hturn

/-- **Every interleaving delivers the run.** Whatever the order in which task
and consumer take their turns, what the consumer took, what waits in the
channel and what is unsent are together the events of the datagrams handled, in
order, cut or not. A dropped consumer has seen an initial part of them. At most
four events wait outside the channel, and the task has panicked on nothing but
an underflowing datagram under overflow checks. -/
theorem every_interleaving_delivers (C : Crates) (P : Profile) (S : Pipeline)
    (h : Reachable C P S) : ∃ a es, handleAll (hear C P) .new S.handled = .ok (a, es) ∧
      S.taken <+: es ∧
      (∀ q, S.channel = some q → es = S.taken ++ q.elems ++ S.task.unsent ∧
        q.elems.length ≤ 1024) ∧
      S.task.unsent.length ≤ 4 ∧
      ∀ x p, S.task = .panicked x p → P.overflowChecks = true ∧
        ∃ leaders raw, x = .datagram leaders raw ∧ IndexUnderflow raw := by
  obtain ⟨t, es, hacc, hrun⟩ := h.hears
  refine ⟨t.asm, es, hrun, hacc.taken_le, ?_, ?_, ?_⟩
  · intro q hq
    exact ⟨hacc.sent hq, q.le_cap⟩
  · obtain ⟨acts, hruns⟩ := h
    exact unsent_le_four hruns
  · intro x p hx
    exact (serve_panic_iff (wellFormed_of_hears hrun)).mp ⟨p, hacc.crash hx⟩

/-- A listener that refused an empty datagram, reported it, and was ended by an
underflowing one. -/
theorem exists_ended : ∃ (S : Pipeline) (T : Pipeline) (t : Locals) (b : Bool),
    Reachable (referenceCrates sha256) ⟨true⟩ S ∧ S.channel.isSome = true ∧
      S.task = .running t [] b ∧ S.taken = [.rejected "parse: payload too small: 0 bytes"] ∧
      Reachable (referenceCrates sha256) ⟨true⟩ T ∧
      ∃ p, T.task = .panicked (.datagram (fun _ => none) underflowing) p := by
  have hturn : serve (referenceCrates sha256) ⟨true⟩ .new (.datagram (fun _ => none) []) =
      .ok (⟨.new, (recvFrom (Bytes.zero recvBuf) []).1⟩,
        [.rejected "parse: payload too small: 0 bytes"]) := by
    rw [serve_datagram]
    rfl
  have hstart : Runs (serve (referenceCrates sha256) ⟨true⟩) strict (.spawned .new : Pipeline) []
      (.spawned .new) := .refl
  have hruns := (hstart.snoc (Step.handle rfl hturn)).snoc (Step.send rfl rfl (by decide))
  have htaken := hruns.snoc (Step.take rfl rfl)
  obtain ⟨p, hcrash⟩ := (serve_panic_iff (C := referenceCrates sha256) (P := ⟨true⟩)
    (t := ⟨.new, (recvFrom (Bytes.zero recvBuf) []).1⟩) wellFormed_new).mpr
      ⟨rfl, fun _ => none, underflowing, rfl, indexUnderflow_underflowing⟩
  exact ⟨_, _, _, _, ⟨_, htaken⟩, rfl, rfl, rfl, ⟨_, htaken.snoc (Step.panic rfl hcrash)⟩, p, rfl⟩

theorem every_interleaving_delivers_ended : ∃ (S : Pipeline) (a : FecAssembler)
    (es : List FecEvent), (∃ x p, S.task = .panicked x p) ∧
      handleAll (hear (referenceCrates sha256) ⟨true⟩) .new S.handled = .ok (a, es) ∧
      S.taken <+: es := by
  obtain ⟨_, T, _, _, _, _, _, _, hreach, p, hp⟩ := exists_ended
  obtain ⟨a, es, hrun, htaken, _⟩ := every_interleaving_delivers _ _ T hreach
  exact ⟨T, a, es, ⟨_, p, hp⟩, hrun, htaken⟩

/-! ## Runs of the assembler as runs of the listener -/

theorem serve_of_hear {t : Locals} {x : Received} {a : FecAssembler} {es : List FecEvent}
    (h : hear C P t.asm x = .ok (a, es)) : ∃ buf, serve C P t x = .ok (⟨a, buf⟩, es) := by
  cases x with
  | datagram leaders raw =>
      change ingest C P leaders t.asm raw = .ok (a, es) at h
      rw [serve_datagram, h]
      exact ⟨_, rfl⟩
  | error e =>
      cases h
      exact ⟨t.buf, rfl⟩

theorem serveAll_of_ingestAll : ∀ {cs : List Call} {t : Locals} {a : FecAssembler}
    {es : List FecEvent}, ingestAll C P t.asm cs = .ok (a, es) →
    ∃ buf, handleAll (serve C P) t (cs.map fun c => .datagram c.leaders c.raw) =
      .ok (⟨a, buf⟩, es) := by
  intro cs
  induction cs with
  | nil =>
      intro t a es h
      cases h
      exact ⟨t.buf, rfl⟩
  | cons c cs ih =>
      intro t a es h
      obtain ⟨⟨a₁, es₁⟩, hc, h⟩ := Exec.bind_eq_ok.mp h
      obtain ⟨⟨a₂, es₂⟩, hcs, h⟩ := Exec.bind_eq_ok.mp h
      cases h
      obtain ⟨buf₁, hserve⟩ := serve_of_hear (x := .datagram c.leaders c.raw) hc
      obtain ⟨buf, hrest⟩ := ih (t := ⟨a₁, buf₁⟩) hcs
      refine ⟨buf, ?_⟩
      show (serve C P t (.datagram c.leaders c.raw) >>= _) = _
      rw [hserve, Exec.ok_bind]
      show (handleAll (serve C P) ⟨a₁, buf₁⟩ _ >>= _) = _
      rw [hrest]
      rfl

/-- A listener that has handled the shred that completes a set, and sent nothing of it. -/
theorem exists_unsent : ∃ (S : Pipeline) (key : FecKey) (root : Bytes 32) (das : ℚ),
    Reachable (referenceCrates sha256) ⟨true⟩ S ∧ S.channel.isSome = true ∧
      .reconstructed key root das ∈ S.task.unsent := by
  obtain ⟨B, _⟩ := exists_sampleSet 64 0xc0 (by decide)
  let pre : List (Fin 64) := (List.finRange 31).map (Fin.castLE (by decide))
  obtain ⟨a₁, es₁, a₂, es₂, hpre, hstep, hiff, _⟩ := B.deliver_step
    referenceCrates_acceptsHonestSignatures referenceCrates_encodesMds referenceCrates_decodesMds
    pre 31
  obtain ⟨key, root, das, hmem⟩ := hiff.mpr (by decide)
  obtain ⟨buf, hserve⟩ := serveAll_of_ingestAll (t := .new) hpre
  obtain ⟨S, b, ⟨acts, hruns⟩, _, _, hready, hopen, _⟩ := exists_reachable strict
    (by decide : 0 < channelCapacity) hserve
  obtain ⟨buf', hlast⟩ := serve_of_hear (P := ⟨true⟩) (t := ⟨a₁, buf⟩)
    (x := .datagram (staticLeader B.set.leaderPubkey) (B.shred 31)) hstep
  exact ⟨_, key, root, das, ⟨_, hruns.snoc (Step.handle hready hlast)⟩, hopen, hmem⟩

/-- **Nothing is stuck.** While the consumer is there, at most 1032 sends and
takes are left, in any order, and when none is possible any more the consumer
has every event of the datagrams handled. -/
theorem consumer_gets_everything (C : Crates) (P : Profile) (S : Pipeline) (h : Reachable C P S)
    (hopen : S.channel.isSome = true) :
    ∃ a es, handleAll (hear C P) .new S.handled = .ok (a, es) ∧
      (∀ acts T, Runs (serve C P) strict S acts T → (∀ m ∈ acts, m.Moves) →
        acts.length ≤ 1032 ∧
          ((∀ m U, Step (serve C P) strict T m U → ¬ m.Moves) → T.taken = es)) ∧
      ∃ acts T, Runs (serve C P) strict S acts T ∧ (∀ m ∈ acts, m.Moves) ∧ T.taken = es := by
  obtain ⟨q, hq⟩ := Option.isSome_iff_exists.mp hopen
  obtain ⟨t, es, hacc, hrun⟩ := h.hears
  obtain ⟨acts₀, hreach⟩ := h
  have hload : S.load ≤ 1032 := by
    have hunsent := unsent_le_four hreach
    have hqueue := q.le_cap
    unfold System.load
    rw [hq]
    show 2 * S.task.unsent.length + q.elems.length ≤ 1032
    unfold channelCapacity at hqueue
    omega
  -- what is still to come is fixed by the datagrams handled, which moves do not change
  have hsame : ∀ {acts : List (Action Received)} {T : Pipeline},
      Runs (serve C P) strict S acts T → (∀ m ∈ acts, m.Moves) → T.channel.isSome = true →
      T.load = 0 → T.taken = es := by
    intro acts T hruns hmoves hsome hzero
    obtain ⟨_, es', haccT, hrunT⟩ := Reachable.hears (C := C) (P := P) ⟨_, hreach.trans hruns⟩
    rw [(hruns.moves_le hmoves).2, hrun] at hrunT
    have hes : es = es' := congrArg Prod.snd (Exec.ok.inj hrunT)
    rw [hes]
    exact haccT.delivered hsome hzero
  refine ⟨t.asm, es, hrun, ?_, ?_⟩
  · intro acts T hruns hmoves
    obtain ⟨hcount, _⟩ := hruns.moves_le hmoves
    refine ⟨by omega, ?_⟩
    intro hstuck
    obtain ⟨q', hq'⟩ := hruns.moves_open hmoves ⟨q, hq⟩
    apply hsame hruns hmoves
    · rw [hq']
      rfl
    · by_contra hne
      obtain ⟨m, U, hstep, hm⟩ := exists_move (serve C P) strict (by decide) hq' hne
      exact hstuck m U hstep hm
  · obtain ⟨acts, T, hruns, hmoves, hzero, hsome⟩ := drains (serve C P) strict
      (by decide) S.load hq rfl
    exact ⟨acts, T, hruns, hmoves, hsame hruns hmoves hsome hzero⟩

theorem consumer_gets_everything_unsent : ∃ (S : Pipeline) (a : FecAssembler)
    (es : List FecEvent), S.channel.isSome = true ∧
      (∃ key root das, .reconstructed key root das ∈ S.task.unsent) ∧
      handleAll (hear (referenceCrates sha256) ⟨true⟩) .new S.handled = .ok (a, es) ∧
      ∃ acts T, Runs (serve (referenceCrates sha256) ⟨true⟩) strict S acts T ∧
        (∀ m ∈ acts, m.Moves) ∧ T.taken = es := by
  obtain ⟨S, key, root, das, hreach, hopen, hmem⟩ := exists_unsent
  obtain ⟨a, es, hrun, _, hdrained⟩ := consumer_gets_everything _ _ S hreach hopen
  exact ⟨S, a, es, hopen, ⟨key, root, das, hmem⟩, hrun, hdrained⟩

/-- In no later state has another datagram been handled. -/
def Over (C : Crates) (P : Profile) (S : Pipeline) : Prop :=
  ∀ acts T, Runs (serve C P) strict S acts T → T.handled = S.handled

/-- **What ends the listener.** A datagram, from whomever, signed by whomever and
whatever the resolver answers, ends a listener whose consumer is there exactly
where it underflows the index and overflow is checked. -/
theorem ends_listener_iff (C : Crates) (P : Profile) (S : Pipeline) (h : Reachable C P S)
    (hopen : S.channel.isSome = true) (t : Locals) (b : Bool)
    (hready : S.task = .running t [] b) (leaders : Leaders) (raw : List UInt8) :
    (∃ T, Step (serve C P) strict S (.input (.datagram leaders raw)) T ∧ Over C P T) ↔
      P.overflowChecks = true ∧ IndexUnderflow raw := by
  obtain ⟨t', es, hacc, hrun⟩ := h.hears
  cases hacc.state hready
  have hpanic := serve_panic_iff (C := C) (P := P) (t := t) (wellFormed_of_hears hrun)
    (x := .datagram leaders raw)
  constructor
  · rintro ⟨T, hstep, hover⟩
    cases hstep with
    | panic hready' hcrash =>
        rw [hready] at hready'
        cases hready'
        obtain ⟨hP, _, _, heq, hund⟩ := hpanic.mp ⟨_, hcrash⟩
        cases heq
        exact ⟨hP, hund⟩
    | @handle _ t' b' _ out hready' hturn =>
        -- a living task gets round to the next input once its events are sent
        exfalso
        obtain ⟨q, hq⟩ := Option.isSome_iff_exists.mp hopen
        have hT : ({ S with
            task := .running t' out (strict (.datagram leaders raw))
            handled := S.handled ++ [.datagram leaders raw] } : Pipeline).channel = some q := hq
        obtain ⟨acts, U, hruns, hmoves, hzero, hsome⟩ := drains (serve C P) strict
          (by decide) _ hT rfl
        obtain ⟨unsent, hU⟩ := hruns.moves_running hmoves ⟨out, rfl⟩
        have hnil := unsent_of_load hzero
        rw [hU] at hnil
        change unsent = [] at hnil
        subst hnil
        have hnext := hover _ _ (hruns.snoc (Step.handle (x := .error "") hU rfl))
        rw [(hruns.moves_le hmoves).2] at hnext
        have hlength := congrArg List.length hnext
        simp at hlength
  · rintro ⟨hP, hund⟩
    obtain ⟨p, hcrash⟩ := hpanic.mpr ⟨hP, leaders, raw, rfl, hund⟩
    refine ⟨_, Step.panic hready hcrash, ?_⟩
    intro acts T hruns
    exact (hruns.panicked rfl).2

theorem ends_listener_iff_underflowing : ∃ S T : Pipeline, ∃ raw : List UInt8,
    Step (serve (referenceCrates sha256) ⟨true⟩) strict S
        (.input (.datagram (fun _ => none) raw)) T ∧
      Over (referenceCrates sha256) ⟨true⟩ T := by
  obtain ⟨S, _, t, b, hreach, hopen, hready, _⟩ := exists_ended
  obtain ⟨T, hstep, hover⟩ := (ends_listener_iff _ _ S hreach hopen t b hready (fun _ => none)
    underflowing).mpr ⟨rfl, indexUnderflow_underflowing⟩
  exact ⟨S, T, underflowing, hstep, hover⟩

end Udp

end Lattica.Listener
