import Lattica.Listener.SharedRuns
import Mathlib.Algebra.Order.BigOperators.Group.Finset
import Mathlib.Data.Fintype.BigOperators

/-!
# Poisoned locks, and calls that come to an end

A window that runs past the last `u64` slot makes the thread that writes it
panic with both guards held. That is the one way the resolver can break, and no
later call is answered. Short of it every call is answered: no access waits for
anything but the lock, and whoever has the lock can go on.
-/

namespace Lattica.Listener.HeliusLeaderResolver

open Foundation Eviction Linearizability

attribute [local instance] slotOrder

variable {θ : Type} [DecidableEq θ] {P : Profile} {rpc : Rpc} {s s' : Shared θ}

/-! ## What poisons the locks -/

theorem insertFrom_unchecked (hP : P.overflowChecks = false) {start : UInt64} :
    ∀ {leaders : List (Bytes 32)} {i : ℕ} {cache : Cache},
      ¬ (insertFrom P start i leaders cache).IsPanic := by
  intro leaders
  induction leaders with
  | nil =>
      intro i cache
      exact Exec.not_isPanic_ok cache
  | cons pk leaders ih =>
      intro i cache
      unfold insertFrom addU arith
      split
      · exact ih
      · rw [if_neg (by simp [hP])]
        exact ih

theorem insertFrom_checked (hP : P.overflowChecks = true) {start : UInt64} :
    ∀ {leaders : List (Bytes 32)} {i : ℕ} {cache : Cache}, start.toNat + i ≤ 2 ^ 64 →
      ((insertFrom P start i leaders cache).IsPanic ↔
        2 ^ 64 < start.toNat + i + leaders.length) := by
  intro leaders
  induction leaders with
  | nil =>
      intro i cache hle
      constructor
      · intro hpanic
        exact absurd hpanic (Exec.not_isPanic_ok cache)
      · intro hlt
        exact absurd hle (not_le.mpr hlt)
  | cons pk leaders ih =>
      intro i cache hle
      rw [List.length_cons]
      unfold insertFrom
      rcases Nat.lt_or_ge (start.toNat + i) (2 ^ 64) with hlt | hge
      · rw [addU_eq hlt, Exec.ok_bind, ih hlt]
        constructor
        · intro h
          omega
        · intro h
          omega
      · have hout : ¬ (0 ≤ ((start.toNat : ℤ) + i) ∧ ((start.toNat : ℤ) + i) < 2 ^ 64) := by
          rintro ⟨_, hlt⟩
          exact absurd hge (not_le.mpr (by exact_mod_cast hlt))
        rw [addU, arith_checked hP hout, Exec.panic_bind]
        constructor
        · intro _
          omega
        · intro _
          exact Exec.isPanic_panic _

/-- A window is written past the last slot exactly where overflow is checked. -/
theorem insertFrom_isPanic_iff {start : UInt64} {leaders : List (Bytes 32)} {cache : Cache} :
    (insertFrom P start 0 leaders cache).IsPanic ↔
      P.overflowChecks = true ∧ 2 ^ 64 < start.toNat + leaders.length := by
  cases hP : P.overflowChecks with
  | false =>
      constructor
      · intro hpanic
        exact absurd hpanic (insertFrom_unchecked hP)
      · rintro ⟨h, _⟩
        cases h
  | true =>
      rw [insertFrom_checked hP (Nat.add_zero _ ▸ start.toNat_lt.le), Nat.add_zero]
      exact ⟨fun h => ⟨rfl, h⟩, fun h => h.2⟩

theorem of_leaderForSlot_panic {fetchWindow : FetchWindow} {slot : UInt64} {cache : Cache}
    {p : Panic} (h : leaderForSlot P fetchWindow slot cache = .panic p) :
    cache.lookup slot = none ∧ ∃ leaders, fetchWindow slot batchSize = .ok leaders ∧
      (insertFrom P slot 0 leaders cache).IsPanic := by
  cases hlookup : cache.lookup slot with
  | some pk =>
      rw [leaderForSlot_cached hlookup] at h
      cases h
  | none =>
      cases hfetch : fetchWindow slot batchSize with
      | error e =>
          rw [leaderForSlot_failed hlookup hfetch] at h
          cases h
      | ok leaders =>
          refine ⟨rfl, leaders, rfl, ?_⟩
          cases hrun : insertFrom P slot 0 leaders cache with
          | ok filled =>
              rw [leaderForSlot_filled hlookup hfetch hrun] at h
              cases h
          | err e => cases e
          | panic q => exact Exec.isPanic_panic q

/-- A thread on its own takes a window past the last slot to the end. -/
theorem exists_poisoned (t : θ) {slot : UInt64} {leaders : List (Bytes 32)}
    (hrpc : rpc slot (.ok leaders)) (hP : P.overflowChecks = true)
    (hpast : 2 ^ 64 < slot.toNat + leaders.length) :
    ∃ s : Shared θ, SharedReachable P rpc s ∧ s.poisoned = true ∧ s.inflight = none ∧
      s.next = 1 ∧ ∀ u, u ≠ t → s.pc u = .idle := by
  obtain ⟨p, hp⟩ : (insertFrom P slot 0 leaders ∅).IsPanic :=
    insertFrom_isPanic_iff.mpr ⟨hP, hpast⟩
  have h₀ : SharedReachable P rpc (Shared.new : Shared θ) := .refl
  have h₁ := h₀.tail (.call (t := t) slot rfl)
  have h₂ := h₁.tail (.miss (Shared.goto_pc_self _ t _) rfl)
  have h₃ := h₂.tail (.lock (Shared.goto_pc_self _ t _) rfl rfl)
  have h₄ := h₃.tail (.remiss (Shared.goto_pc_self _ t _) rfl)
  have h₅ := h₄.tail (.fetchedOk (Shared.goto_pc_self _ t _) hrpc)
  have h₆ := h₅.tail (.overflow (Shared.goto_pc_self _ t _) rfl hp)
  refine ⟨_, h₆, rfl, rfl, rfl, ?_⟩
  intro u hne
  show Function.update _ t _ u = _
  simp [Function.update_of_ne hne, Shared.goto, Shared.new]

/-- **What breaks the resolver.** Some run poisons the locks exactly where
overflow is checked and the RPC may return a window past the last slot. -/
theorem poisoned_iff_overflow (θ : Type) [DecidableEq θ] [Nonempty θ] (P : Profile) (rpc : Rpc) :
    (∃ s : Shared θ, SharedReachable P rpc s ∧ s.poisoned = true) ↔
      P.overflowChecks = true ∧ ∃ slot leaders, rpc slot (.ok leaders) ∧
        2 ^ 64 < slot.toNat + leaders.length := by
  constructor
  · rintro ⟨s, hreach, hpoison⟩
    obtain ⟨_, _, cache, q, p, _, _, hq, hpanic, _⟩ :=
      hreach.coherent.effective.broken hpoison
    obtain ⟨hnone, leaders, hfetch, hrun⟩ := of_leaderForSlot_panic hpanic
    obtain ⟨hP, hpast⟩ := insertFrom_isPanic_iff.mp hrun
    exact ⟨hP, q.slot, leaders, hfetch ▸ hq hnone, hpast⟩
  · rintro ⟨hP, slot, leaders, hrpc, hpast⟩
    obtain ⟨t⟩ := ‹Nonempty θ›
    obtain ⟨s, hreach, hpoison, _⟩ := exists_poisoned t hrpc hP hpast
    exact ⟨s, hreach, hpoison⟩

/-- An RPC that answers for the last slot with two leaders, and for no other. -/
def pastTheEnd : Rpc := fun start r =>
  start = 18446744073709551615 ∧ r = .ok [sampleSchedule 0, sampleSchedule 1]

theorem poisoned_iff_overflow_unit : (∃ s : Shared Unit,
    SharedReachable ⟨true⟩ pastTheEnd s ∧ s.poisoned = true) ∧
      ¬ ∃ s : Shared Unit, SharedReachable ⟨false⟩ pastTheEnd s ∧ s.poisoned = true := by
  constructor
  · apply (poisoned_iff_overflow Unit ⟨true⟩ pastTheEnd).mpr
    exact ⟨rfl, _, _, ⟨rfl, rfl⟩, by decide⟩
  · intro h
    have hP := ((poisoned_iff_overflow Unit ⟨false⟩ pastTheEnd).mp h).1
    cases hP

/-! ## After it -/

theorem SharedStep.poisoned (h : SharedStep P rpc s s') (hpoison : s.poisoned = true) :
    s'.poisoned = true ∧ ∀ c ∈ s'.effects, c ∈ s.effects ∨ c.res = none := by
  cases h.touched with
  | kept _ _ hsame heffects =>
      refine ⟨hsame.trans hpoison, ?_⟩
      rcases heffects with heffects | ⟨d, heffects, hd⟩
      · rw [heffects]
        exact fun c hc => Or.inl hc
      · rw [heffects]
        intro c hc
        rcases List.mem_append.mp hc with hc | hc
        · exact Or.inl hc
        · rw [List.mem_singleton.mp hc]
          exact Or.inr (hd hpoison)
  | filled _ hsound _ _ _ _ =>
      rw [hsound] at hpoison
      cases hpoison
  | poisoned _ hsound _ _ _ =>
      rw [hsound] at hpoison
      cases hpoison

/-- **For good.** Once the locks are poisoned no thread is at the RPC ever
again, and every call made from then on is answered `None`, cached or not. -/
theorem poisoned_for_good (P : Profile) (rpc : Rpc) (s s' : Shared θ)
    (h : SharedReachable P rpc s) (hpoison : s.poisoned = true)
    (hlater : Relation.ReflTransGen (SharedStep P rpc) s s') :
    s'.poisoned = true ∧ (∀ t, (s'.pc t).holds = false) ∧
      ∀ n res, s.next ≤ n → .respond n res ∈ s'.history → res = none := by
  have hco' : Coherent P rpc s' := SharedReachable.coherent (h.trans hlater)
  have hlasts : s'.poisoned = true ∧ ∀ c ∈ s'.effects, c ∈ s.effects ∨ c.res = none := by
    clear hco'
    induction hlater with
    | refl => exact ⟨hpoison, fun c hc => Or.inl hc⟩
    | tail _ hstep ih =>
        obtain ⟨hp, hnew⟩ := hstep.poisoned ih.1
        refine ⟨hp, ?_⟩
        intro c hc
        rcases hnew c hc with hc | hc
        · exact ih.2 c hc
        · exact Or.inr hc
  refine ⟨hlasts.1, hco'.exclusive.not_holds hlasts.1, ?_⟩
  intro n res hn hmem
  obtain ⟨c, hc, rfl, rfl⟩ := hco'.effective.committed.answered n res hmem
  rcases hlasts.2 c hc with hold | hnone
  · -- an effect before the panic belongs to a call made before it
    have hco := h.coherent
    have hmade := hco.numbered.seen _ (hco.effective.committed.invoked c hold)
    exact absurd hmade (not_lt.mpr hn)
  · exact hnone

theorem poisoned_for_good_refused : ∃ s s' : Shared Bool, s.poisoned = true ∧ s.next = 1 ∧
    .respond 1 none ∈ s'.history ∧
      ∀ n res, 1 ≤ n → .respond n res ∈ s'.history → res = none := by
  have hrpc : pastTheEnd 18446744073709551615 (.ok [sampleSchedule 0, sampleSchedule 1]) :=
    ⟨rfl, rfl⟩
  obtain ⟨s, hreach, hpoison, hfree, hnext, hidle⟩ :=
    exists_poisoned (P := ⟨true⟩) false hrpc rfl (by decide)
  have h₀ : Relation.ReflTransGen (SharedStep ⟨true⟩ pastTheEnd) s s := .refl
  have h₁ := h₀.tail (.call 7 (hidle true (by decide)))
  have h₂ := h₁.tail (.miss (t := true) rfl (if_pos hpoison))
  have h₃ := h₂.tail (.refused (t := true) rfl hfree hpoison)
  have h₄ := h₃.tail (.respond (t := true) rfl)
  obtain ⟨_, _, hnone⟩ := poisoned_for_good _ _ s _ hreach hpoison h₄
  rw [hnext] at hnone
  refine ⟨s, _, hpoison, hnext, ?_, hnone⟩
  rw [← hnext]
  exact List.mem_append_right _ (List.mem_singleton_self _)

/-! ## Every call comes to an end -/

/-- An access of a call under way. -/
def Quiet (P : Profile) (rpc : Rpc) (s s' : Shared θ) : Prop :=
  SharedStep P rpc s s' ∧ s'.next = s.next

/-- A run of such accesses, with the threads that make them. -/
inductive QuietRun (P : Profile) (rpc : Rpc) (s : Shared θ) : List θ → Shared θ → Prop where
  | refl : QuietRun P rpc s [] s
  | snoc {ts : List θ} {t : θ} {s' s'' : Shared θ} (hrun : QuietRun P rpc s ts s')
      (hstep : Quiet P rpc s' s'') (hmoved : MovedBy t s' s'') :
      QuietRun P rpc s (ts ++ [t]) s''

theorem exists_quietRun (h : Relation.ReflTransGen (Quiet P rpc) s s') :
    ∃ ts, QuietRun P rpc s ts s' := by
  induction h with
  | refl => exact ⟨[], .refl⟩
  | tail _ hstep ih =>
      obtain ⟨ts, hrun⟩ := ih
      obtain ⟨t, hmoved⟩ := hstep.1.moved
      exact ⟨ts ++ [t], hrun.snoc hstep hmoved.movedBy⟩

theorem Pc.rank_le (pc : Pc) : pc.rank ≤ 8 := by
  cases pc with
  | _ => simp [Pc.rank]

/-- An access of a thread lowers its rank, and leaves the ranks of all others alone. -/
theorem Quiet.rank (h : Quiet P rpc s s') {t : θ} (hmoved : MovedBy t s s') :
    (s'.pc t).rank < (s.pc t).rank ∧ ∀ u, u ≠ t → s'.pc u = s.pc u := by
  obtain ⟨t', hmoved'⟩ := h.1.moved
  have ht : t = t' := by
    by_contra hne
    exact hmoved.1 (hmoved'.movedBy.2 t hne)
  rw [ht]
  exact ⟨hmoved'.rank_lt h.2, hmoved'.movedBy.2⟩

/-- Each access of a thread has been paid for by its rank. -/
theorem QuietRun.count_le {ts : List θ} (h : QuietRun P rpc s ts s') (t : θ) :
    ts.count t + (s'.pc t).rank ≤ (s.pc t).rank := by
  induction h with
  | refl => exact (Nat.zero_add _).le
  | @snoc ts u s' s'' _ hstep hmoved ih =>
      obtain ⟨hlt, hothers⟩ := hstep.rank hmoved
      rw [List.count_append]
      by_cases hut : t = u
      · rw [← hut] at hlt ⊢
        rw [List.count_singleton_self]
        omega
      · rw [List.count_singleton, if_neg (by simpa using Ne.symm hut), hothers t hut]
        exact ih

/-- So all threads together make no more than eight each. -/
theorem QuietRun.length_le [Fintype θ] {ts : List θ} (h : QuietRun P rpc s ts s') :
    ts.length ≤ 8 * Fintype.card θ := by
  have hsum : ∑ t, (ts : Multiset θ).count t = ts.length :=
    Multiset.sum_count_eq_card fun t _ => Finset.mem_univ t
  simp only [Multiset.coe_count] at hsum
  calc ts.length = ∑ t, ts.count t := hsum.symm
    _ ≤ ∑ _t : θ, 8 := Finset.sum_le_sum fun t _ =>
        (Nat.le_of_add_right_le (h.count_le t)).trans (s.pc t).rank_le
    _ = 8 * Fintype.card θ := by rw [Finset.sum_const, Finset.card_univ, mul_comm, nsmul_eq_mul,
          Nat.cast_id]

/-- Whoever has the lock can go on. -/
theorem exists_quiet_of_holds (hrpc : ∀ slot, ∃ r, rpc slot r) (hex : Exclusive s) {t : θ}
    (ht : (s.pc t).holds = true) : ∃ s', Quiet P rpc s s' := by
  have hsound := hex.sound ht
  cases hpc : s.pc t with
  | locked n slot =>
      cases hread : s.read slot with
      | some pk => exact ⟨_, .rehit hpc hread, rfl⟩
      | none => exact ⟨_, .remiss hpc hread, rfl⟩
  | fetching n slot =>
      obtain ⟨r, hr⟩ := hrpc slot
      cases r with
      | error e => exact ⟨_, .fetchFailed hpc hr, rfl⟩
      | ok leaders => exact ⟨_, .fetchedOk hpc hr, rfl⟩
  | fetched n slot leaders =>
      cases hrun : insertFrom P slot 0 leaders s.cache with
      | ok filled => exact ⟨_, .fill hpc hsound hrun, rfl⟩
      | err e => cases e
      | panic p => exact ⟨_, .overflow hpc hsound hrun, rfl⟩
  | filled n slot => exact ⟨_, .look hpc, rfl⟩
  | leaving n answer => exact ⟨_, .release hpc, rfl⟩
  | _ =>
      rw [hpc] at ht
      cases ht

/-- No deadlock: a thread in a call can go on, or waits for one that can. -/
theorem exists_quiet (hrpc : ∀ slot, ∃ r, rpc slot r) (hex : Exclusive s) {t : θ} {n : ℕ}
    (ht : (s.pc t).call? = some n) (hlive : s.pc t ≠ .panicked n) : ∃ s', Quiet P rpc s s' := by
  cases hinflight : s.inflight with
  | some u => exact exists_quiet_of_holds hrpc hex ((hex.holder u).mpr hinflight)
  | none =>
      cases hpc : s.pc t with
      | called m slot =>
          cases hread : s.read slot with
          | some pk => exact ⟨_, .hit hpc hread, rfl⟩
          | none => exact ⟨_, .miss hpc hread, rfl⟩
      | missed m slot =>
          cases hpoison : s.poisoned with
          | true => exact ⟨_, .refused hpc hinflight hpoison, rfl⟩
          | false => exact ⟨_, .lock hpc hinflight hpoison, rfl⟩
      | answered m answer => exact ⟨_, .respond hpc, rfl⟩
      | idle =>
          rw [hpc] at ht
          cases ht
      | panicked m =>
          rw [hpc] at ht hlive
          cases ht
          exact absurd rfl hlive
      | _ =>
          -- all others hold the lock
          have hholds := hex.holder t
          rw [hpc, hinflight] at hholds
          cases hholds.mp rfl

/-- **Every call comes to an end.** If the RPC always returns, every run of
accesses of threads that make no new call has at most eight of each thread, in
whatever order, and when no such access is left every call made has been answered
or its thread has panicked in it. -/
theorem calls_come_to_an_end [Fintype θ] (P : Profile) (rpc : Rpc)
    (hrpc : ∀ slot, ∃ r, rpc slot r) (s : Shared θ) (h : SharedReachable P rpc s) :
    (∀ ts s', QuietRun P rpc s ts s' →
      (∀ t, ts.count t ≤ 8) ∧ ts.length ≤ 8 * Fintype.card θ) ∧
      ∀ s', Relation.ReflTransGen (Quiet P rpc) s s' → (∃ ts, QuietRun P rpc s ts s') ∧
        ((∀ s'', ¬ Quiet P rpc s' s'') → ∀ n slot, .invoke n slot ∈ s'.history →
          (∃ res, .respond n res ∈ s'.history) ∨ ∃ t, s'.pc t = .panicked n) := by
  constructor
  · intro ts s' hrun
    refine ⟨fun t => ?_, hrun.length_le⟩
    exact (Nat.le_of_add_right_le (hrun.count_le t)).trans (s.pc t).rank_le
  · intro s' hquiet
    refine ⟨exists_quietRun hquiet, ?_⟩
    intro hdone n slot hmem
    have hreach : SharedReachable P rpc s' :=
      h.trans (hquiet.lift id fun _ _ hstep => hstep.1)
    have hco := hreach.coherent
    rcases hco.attended n slot hmem with hres | ⟨t, ht⟩
    · exact Or.inl hres
    · refine Or.inr ⟨t, ?_⟩
      by_contra hlive
      obtain ⟨s'', hstep⟩ := exists_quiet hrpc hco.exclusive ht hlive
      exact hdone s'' hstep

/-- With two calls open, one thread about to write and one about to lock. -/
theorem calls_come_to_an_end_open : ∃ s : Shared Bool,
    s.pc false = .fetched 0 7 [sampleSchedule 7] ∧ s.pc true = .missed 1 7 ∧
      (∃ t s', QuietRun ⟨true⟩ oneLeader s [t] s') ∧
      ∀ ts s', QuietRun ⟨true⟩ oneLeader s ts s' → ∀ t, ts.count t ≤ 8 := by
  obtain ⟨s, hreach, hfetched, hmissed, _, _⟩ := exists_fetched
  have hrpc : ∀ slot, ∃ r, oneLeader slot r := fun slot => ⟨_, rfl⟩
  obtain ⟨hcount, _⟩ := calls_come_to_an_end ⟨true⟩ oneLeader hrpc s hreach
  obtain ⟨s', hstep⟩ := exists_quiet (P := ⟨true⟩) (t := false) (n := 0) hrpc
    hreach.coherent.exclusive (by rw [hfetched]; rfl) (by rw [hfetched]; simp)
  obtain ⟨t, hmoved⟩ := hstep.1.moved
  exact ⟨s, hfetched, hmissed, ⟨t, s', QuietRun.refl.snoc hstep hmoved.movedBy⟩,
    fun ts s' hrun => (hcount ts s' hrun).1⟩

end Lattica.Listener.HeliusLeaderResolver
