import Lattica.Listener.SharedEffects
import Mathlib.Data.Fintype.Card

/-!
# Runs of the shared resolver

What callers on any number of threads can rely on, whatever the order of their
accesses: their answers are linearizable, no slot is fetched by two of them,
an RPC that follows the schedule leaves nothing but the schedule in the cache,
and every call comes to an end. A window that runs past the last slot is the one
thing that poisons the resolver, and then for good.
-/

namespace Lattica.Listener.HeliusLeaderResolver

open Foundation Eviction Linearizability

attribute [local instance] slotOrder

/-- How many accesses a thread has left in its call, at most. -/
def Pc.rank : Pc → ℕ
  | .idle => 0
  | .called .. => 8
  | .missed .. => 7
  | .locked .. => 6
  | .fetching .. => 5
  | .fetched .. => 4
  | .filled .. => 3
  | .leaving .. => 2
  | .answered .. => 1
  | .panicked _ => 0

variable {θ : Type} [DecidableEq θ] {P : Profile} {rpc : Rpc} {s s' : Shared θ}

/-- `t` is the thread that made the access: it moved, and no other thread did. -/
def MovedBy (t : θ) (s s' : Shared θ) : Prop :=
  s'.pc t ≠ s.pc t ∧ ∀ u, u ≠ t → s'.pc u = s.pc u

theorem movedBy_goto {t : θ} {pc pc' : Pc} (hpc : s.pc t = pc)
    (hpc' : s'.pc = (s.goto t pc').pc) (hne : pc' ≠ pc) : MovedBy t s s' := by
  constructor
  · rw [hpc', Shared.goto_pc_self, hpc]
    exact hne
  · intro u hu
    rw [hpc', s.goto_pc_ne pc' hu]

/-- An access takes its thread closer to the end of its call, unless it makes one. -/
structure Moved (s s' : Shared θ) (t : θ) : Prop where
  movedBy : MovedBy t s s'
  rank_lt : s'.next = s.next → (s'.pc t).rank < (s.pc t).rank

/-- An access that makes no call. -/
theorem moved_quiet {t : θ} {pc pc' : Pc} (hpc : s.pc t = pc) (hpc' : s'.pc = (s.goto t pc').pc)
    (hrank : pc'.rank < pc.rank) : Moved s s' t where
  movedBy := by
    apply movedBy_goto hpc hpc'
    rintro rfl
    exact absurd hrank (Nat.lt_irrefl _)
  rank_lt _ := by
    rw [hpc, hpc', Shared.goto_pc_self]
    exact hrank

theorem SharedStep.moved (h : SharedStep P rpc s s') : ∃ t, Moved s s' t := by
  cases h with
  | @call t slot hpc =>
      refine ⟨t, movedBy_goto hpc (rfl : _ = (s.goto t (.called s.next slot)).pc) ?_, ?_⟩
      · intro heq
        cases heq
      · intro hsame
        exact absurd hsame (Nat.succ_ne_self _)
  | hit hpc _ => exact ⟨_, moved_quiet hpc rfl (by simp [Pc.rank])⟩
  | miss hpc _ => exact ⟨_, moved_quiet hpc rfl (by simp [Pc.rank])⟩
  | lock hpc _ _ => exact ⟨_, moved_quiet hpc rfl (by simp [Pc.rank])⟩
  | refused hpc _ _ => exact ⟨_, moved_quiet hpc rfl (by simp [Pc.rank])⟩
  | rehit hpc _ => exact ⟨_, moved_quiet hpc rfl (by simp [Pc.rank])⟩
  | remiss hpc _ => exact ⟨_, moved_quiet hpc rfl (by simp [Pc.rank])⟩
  | fetchFailed hpc _ => exact ⟨_, moved_quiet hpc rfl (by simp [Pc.rank])⟩
  | fetchedOk hpc _ => exact ⟨_, moved_quiet hpc rfl (by simp [Pc.rank])⟩
  | fill hpc _ _ => exact ⟨_, moved_quiet hpc rfl (by simp [Pc.rank])⟩
  | overflow hpc _ _ => exact ⟨_, moved_quiet hpc rfl (by simp [Pc.rank])⟩
  | unwritable hpc _ => exact ⟨_, moved_quiet hpc rfl (by simp [Pc.rank])⟩
  | look hpc => exact ⟨_, moved_quiet hpc rfl (by simp [Pc.rank])⟩
  | release hpc => exact ⟨_, moved_quiet hpc rfl (by simp [Pc.rank])⟩
  | respond hpc => exact ⟨_, moved_quiet hpc rfl (by simp [Pc.rank])⟩

/-- What an access does to the cache and its lock: nothing, or it writes a
window, or it panics while it writes one. -/
inductive Touched (P : Profile) (s s' : Shared θ) : Prop where
  | kept (hcache : s'.cache = s.cache) (hwritten : s'.written = s.written)
      (hpoison : s'.poisoned = s.poisoned)
      (heffects : s'.effects = s.effects ∨ ∃ c : LeaderCommit, s'.effects = s.effects ++ [c] ∧
        (s.poisoned = true → c.res = none))
  | filled {t : θ} {n : ℕ} {slot : UInt64} {leaders : List (Bytes 32)} {filled : Cache}
      (hpc : s.pc t = .fetched n slot leaders) (hsound : s.poisoned = false)
      (hrun : insertFrom P slot 0 leaders s.cache = .ok filled)
      (hcache : s'.cache = evict maxCacheEntries filled)
      (hwritten : s'.written = s.written ++ [slot]) (hpoison : s'.poisoned = false)
  | poisoned {t : θ} {n : ℕ} {slot : UInt64} {leaders : List (Bytes 32)} {p : Panic}
      (hpc : s.pc t = .fetched n slot leaders) (hsound : s.poisoned = false)
      (hrun : insertFrom P slot 0 leaders s.cache = .panic p) (hwritten : s'.written = s.written)
      (hpoison : s'.poisoned = true)

theorem SharedStep.touched (h : SharedStep P rpc s s') : Touched P s s' := by
  cases h with
  | call slot hpc => exact .kept rfl rfl rfl (Or.inl rfl)
  | hit hpc hread =>
      refine .kept rfl rfl rfl (Or.inr ⟨_, rfl, ?_⟩)
      intro hpoison
      rw [Shared.sound_of_read hread] at hpoison
      cases hpoison
  | miss hpc _ => exact .kept rfl rfl rfl (Or.inl rfl)
  | lock hpc _ _ => exact .kept rfl rfl rfl (Or.inl rfl)
  | refused hpc _ _ => exact .kept rfl rfl rfl (Or.inr ⟨_, rfl, fun _ => rfl⟩)
  | rehit hpc hread =>
      refine .kept rfl rfl rfl (Or.inr ⟨_, rfl, ?_⟩)
      intro hpoison
      rw [Shared.sound_of_read hread] at hpoison
      cases hpoison
  | remiss hpc _ => exact .kept rfl rfl rfl (Or.inl rfl)
  | fetchFailed hpc _ => exact .kept rfl rfl rfl (Or.inr ⟨_, rfl, fun _ => rfl⟩)
  | fetchedOk hpc _ => exact .kept rfl rfl rfl (Or.inl rfl)
  | fill hpc hsound hrun => exact .filled hpc hsound hrun rfl rfl hsound
  | overflow hpc hsound hrun => exact .poisoned hpc hsound hrun rfl rfl
  | unwritable hpc _ => exact .kept rfl rfl rfl (Or.inl rfl)
  | look hpc => exact .kept rfl rfl rfl (Or.inl rfl)
  | release hpc => exact .kept rfl rfl rfl (Or.inl rfl)
  | respond hpc => exact .kept rfl rfl rfl (Or.inl rfl)

/-- Only the thread that holds a fetched window changes the cache. -/
theorem SharedStep.writer (h : SharedStep P rpc s s') (hne : s'.cache ≠ s.cache) :
    ∃ t n slot leaders, s.pc t = .fetched n slot leaders ∧ MovedBy t s s' := by
  cases h with
  | fill hpc _ _ =>
      refine ⟨_, _, _, _, hpc, movedBy_goto hpc rfl ?_⟩
      intro heq
      cases heq
  | overflow hpc _ _ =>
      refine ⟨_, _, _, _, hpc, movedBy_goto hpc rfl ?_⟩
      intro heq
      cases heq
  | _ => exact absurd rfl hne

/-- A call made is answered, or some thread is in it. -/
def Attended (s : Shared θ) : Prop :=
  ∀ n slot, .invoke n slot ∈ s.history →
    (∃ res, .respond n res ∈ s.history) ∨ ∃ t, (s.pc t).call? = some n

/-- A thread that goes on with its call. -/
theorem Attended.goto (h : Attended s) (t : θ) (pc : Pc) (hcall : pc.call? = (s.pc t).call?)
    (hpc : s'.pc = (s.goto t pc).pc) (hhistory : s'.history = s.history) : Attended s' := by
  intro n slot hmem
  rw [hhistory] at hmem ⊢
  rcases h n slot hmem with hres | ⟨u, hu⟩
  · exact Or.inl hres
  · refine Or.inr ⟨u, ?_⟩
    rw [hpc]
    by_cases hut : u = t
    · rw [hut, Shared.goto_pc_self, hcall, ← hut]
      exact hu
    · rw [s.goto_pc_ne pc hut]
      exact hu

theorem Attended.step (h : Attended s) (hstep : SharedStep P rpc s s') : Attended s' := by
  cases hstep with
  | @call t slot hpc =>
      intro n slot' hmem
      rcases List.mem_append.mp hmem with hmem | hmem
      · rcases h n slot' hmem with ⟨res, hres⟩ | ⟨u, hu⟩
        · exact Or.inl ⟨res, List.mem_append_left _ hres⟩
        · refine Or.inr ⟨u, ?_⟩
          have hut : u ≠ t := by
            rintro rfl
            rw [hpc] at hu
            cases hu
          show ((s.goto t _).pc u).call? = some n
          rw [s.goto_pc_ne _ hut]
          exact hu
      · cases List.mem_singleton.mp hmem
        refine Or.inr ⟨t, ?_⟩
        show ((s.goto t _).pc t).call? = _
        rw [Shared.goto_pc_self]
        rfl
  | hit hpc _ => exact h.goto _ _ (by rw [hpc]; rfl) rfl rfl
  | miss hpc _ => exact h.goto _ _ (by rw [hpc]; rfl) rfl rfl
  | lock hpc _ _ => exact h.goto _ _ (by rw [hpc]; rfl) rfl rfl
  | refused hpc _ _ => exact h.goto _ _ (by rw [hpc]; rfl) rfl rfl
  | rehit hpc _ => exact h.goto _ _ (by rw [hpc]; rfl) rfl rfl
  | remiss hpc _ => exact h.goto _ _ (by rw [hpc]; rfl) rfl rfl
  | fetchFailed hpc _ => exact h.goto _ _ (by rw [hpc]; rfl) rfl rfl
  | fetchedOk hpc _ => exact h.goto _ _ (by rw [hpc]; rfl) rfl rfl
  | fill hpc _ _ => exact h.goto _ _ (by rw [hpc]; rfl) rfl rfl
  | overflow hpc _ _ => exact h.goto _ _ (by rw [hpc]; rfl) rfl rfl
  | unwritable hpc _ => exact h.goto _ _ (by rw [hpc]; rfl) rfl rfl
  | look hpc => exact h.goto _ _ (by rw [hpc]; rfl) rfl rfl
  | release hpc => exact h.goto _ _ (by rw [hpc]; rfl) rfl rfl
  | @respond t n answer hpc =>
      intro m slot hmem
      rcases List.mem_append.mp hmem with hmem | hmem
      · rcases h m slot hmem with ⟨res, hres⟩ | ⟨u, hu⟩
        · exact Or.inl ⟨res, List.mem_append_left _ hres⟩
        · by_cases hut : u = t
          · rw [hut, hpc] at hu
            cases hu
            exact Or.inl ⟨answer, List.mem_append_right _ (List.mem_singleton_self _)⟩
          · refine Or.inr ⟨u, ?_⟩
            show ((s.goto t _).pc u).call? = some m
            rw [s.goto_pc_ne _ hut]
            exact hu
      · cases List.mem_singleton.mp hmem

/-- What every run keeps. -/
structure Coherent (P : Profile) (rpc : Rpc) (s : Shared θ) : Prop where
  exclusive : Exclusive s
  numbered : Numbered s
  effective : Effective P rpc s
  attended : Attended s

theorem SharedReachable.coherent (h : SharedReachable P rpc s) : Coherent P rpc s := by
  induction h with
  | refl =>
      refine ⟨exclusive_new, numbered_new, effective_new, ?_⟩
      intro n slot hmem
      cases hmem
  | tail _ hstep ih =>
      exact ⟨ih.exclusive.step hstep, ih.numbered.step hstep,
        ih.effective.step ih.exclusive ih.numbered hstep, ih.attended.step hstep⟩

/-! ## A run of two threads -/

/-- An RPC that knows one slot at a time. -/
def oneLeader : Rpc := fun start r => r = .ok [sampleSchedule start]

/-- The cache with the leader of slot 7. -/
def oneCached : Cache := (∅ : Cache).insert 7 (sampleSchedule 7)

/-- Both threads miss slot 7; one fetches it, the other finds it fetched. -/
theorem exists_stampede : ∃ s : Shared Bool, SharedReachable ⟨true⟩ oneLeader s ∧
    s.poisoned = false ∧ s.written = [7] ∧ s.next = 2 ∧
    s.history = [.invoke 0 7, .invoke 1 7, .respond 0 (some (sampleSchedule 7)),
      .respond 1 (some (sampleSchedule 7))] := by
  have hrun : insertFrom ⟨true⟩ 7 0 [sampleSchedule 7] ∅ = .ok oneCached := by
    rw [insertFrom, addU_eq (by decide)]
    rfl
  have hsmall : evict maxCacheEntries oneCached = oneCached := by
    apply evict_of_card_le
    show (insert (7 : UInt64) (∅ : Finset UInt64)).card ≤ _
    decide
  have hfound : oneCached.lookup 7 = some (sampleSchedule 7) := Finmap.lookup_insert _
  have h₀ : SharedReachable ⟨true⟩ oneLeader (Shared.new : Shared Bool) := .refl
  have h₁ := h₀.tail (.call (t := false) 7 rfl)
  have h₂ := h₁.tail (.call (t := true) 7 rfl)
  have h₃ := h₂.tail (.miss (t := false) rfl rfl)
  have h₄ := h₃.tail (.miss (t := true) rfl rfl)
  have h₅ := h₄.tail (.lock (t := false) rfl rfl rfl)
  have h₆ := h₅.tail (.remiss (t := false) rfl rfl)
  have h₇ := h₆.tail (.fetchedOk (t := false) rfl rfl)
  have h₈ := h₇.tail (.fill (t := false) rfl rfl hrun)
  rw [hsmall] at h₈
  have h₉ := h₈.tail (.look (t := false) rfl)
  have h₁₀ := h₉.tail (.release (t := false) rfl)
  have h₁₁ := h₁₀.tail (.respond (t := false) rfl)
  have h₁₂ := h₁₁.tail (.lock (t := true) rfl rfl rfl)
  have h₁₃ := h₁₂.tail (.rehit (t := true) rfl hfound)
  have h₁₄ := h₁₃.tail (.release (t := true) rfl)
  have h₁₅ := h₁₄.tail (.respond (t := true) rfl)
  exact ⟨_, h₁₅, rfl, rfl, rfl, rfl⟩

/-- One thread has the leaders of slot 7, the other waits for the lock. -/
theorem exists_fetched : ∃ s : Shared Bool, SharedReachable ⟨true⟩ oneLeader s ∧
    s.pc false = .fetched 0 7 [sampleSchedule 7] ∧ s.pc true = .missed 1 7 ∧
    s.poisoned = false ∧ s.cache = ∅ := by
  have h₀ : SharedReachable ⟨true⟩ oneLeader (Shared.new : Shared Bool) := .refl
  have h₁ := h₀.tail (.call (t := false) 7 rfl)
  have h₂ := h₁.tail (.call (t := true) 7 rfl)
  have h₃ := h₂.tail (.miss (t := false) rfl rfl)
  have h₄ := h₃.tail (.miss (t := true) rfl rfl)
  have h₅ := h₄.tail (.lock (t := false) rfl rfl rfl)
  have h₆ := h₅.tail (.remiss (t := false) rfl rfl)
  have h₇ := h₆.tail (.fetchedOk (t := false) rfl rfl)
  exact ⟨_, h₇, rfl, rfl, rfl, rfl⟩

/-! ## What callers see -/

/-- A window written adds at most its leaders, and drops nothing. -/
theorem keys_insertFrom {start : UInt64} : ∀ {leaders : List (Bytes 32)} {i : ℕ}
    {cache filled : Cache}, insertFrom P start i leaders cache = .ok filled →
      cache.keys ⊆ filled.keys ∧ filled.keys.card ≤ cache.keys.card + leaders.length := by
  intro leaders
  induction leaders with
  | nil =>
      intro i cache filled h
      cases h
      exact ⟨Finset.Subset.refl _, le_rfl⟩
  | cons pk leaders ih =>
      intro i cache filled h
      obtain ⟨slot, _, h⟩ := Exec.bind_eq_ok.mp h
      obtain ⟨hsub, hcard⟩ := ih h
      have hkeys : (cache.insert (.ofNat slot) pk).keys = insert (.ofNat slot) cache.keys := by
        ext k
        rw [Finset.mem_insert, Finmap.mem_keys, Finmap.mem_keys, Finmap.mem_insert]
      rw [hkeys] at hsub hcard
      refine ⟨(Finset.subset_insert _ _).trans hsub, ?_⟩
      have hone := Finset.card_insert_le (UInt64.ofNat slot) cache.keys
      rw [List.length_cons]
      omega

/-- The slot fetched for is among those written. -/
theorem mem_keys_insertFrom {start : UInt64} {leaders : List (Bytes 32)} {cache filled : Cache}
    (h : insertFrom P start 0 leaders cache = .ok filled) (hne : leaders ≠ []) :
    start ∈ filled.keys := by
  cases leaders with
  | nil => exact absurd rfl hne
  | cons pk leaders =>
      obtain ⟨slot, hslot, h⟩ := Exec.bind_eq_ok.mp h
      rw [addU_eq (Nat.add_zero _ ▸ start.toNat_lt)] at hslot
      cases hslot
      apply (keys_insertFrom h).1
      rw [Nat.add_zero, UInt64.ofNat_toNat, Finmap.mem_keys, Finmap.mem_insert]
      exact Or.inl rfl

/-- The RPC answers with at least one leader and no more than it is asked for. -/
def Rpc.Bounded (rpc : Rpc) : Prop :=
  ∀ start leaders, rpc start (.ok leaders) → leaders ≠ [] ∧ leaders.length ≤ batchSize.toNat

theorem oneLeader_bounded : oneLeader.Bounded := by
  intro start leaders h
  cases h
  refine ⟨List.cons_ne_nil _ _, ?_⟩
  show 1 ≤ 1000
  decide

/-- Until the cache is full, windows written stay in it, and no two start at one slot. -/
structure Undropped (s : Shared θ) : Prop where
  nodup : s.written.length ≤ 100 → s.written.Nodup
  card_le : s.poisoned = false → s.written.length ≤ 100 →
    s.cache.keys.card ≤ 1000 * s.written.length
  cached : s.poisoned = false → s.written.length ≤ 100 → ∀ slot ∈ s.written, slot ∈ s.cache.keys

theorem Undropped.step (h : Undropped s) (hco : Coherent P rpc s) (hrpc : rpc.Bounded)
    (hstep : SharedStep P rpc s s') : Undropped s' := by
  cases hstep.touched with
  | kept hcache hwritten hpoison _ =>
      constructor
      · rw [hwritten]
        exact h.nodup
      · rw [hcache, hwritten, hpoison]
        exact h.card_le
      · rw [hcache, hwritten, hpoison]
        exact h.cached
  | @filled t n slot leaders filled hpc hsound hrun hcache hwritten hpoison =>
      have hj := hco.effective.justified t
      rw [hpc] at hj
      obtain ⟨_, hnone, hleaders⟩ := hj
      obtain ⟨hne, hlength⟩ := hrpc slot leaders hleaders
      obtain ⟨hsub, hcard⟩ := keys_insertFrom hrun
      have hroom : (s.written ++ [slot]).length ≤ 100 → s.written.length ≤ 100 ∧
          filled.keys.card ≤ 1000 * (s.written ++ [slot]).length ∧
          evict maxCacheEntries filled = filled := by
        intro hlen
        rw [List.length_append, List.length_singleton] at hlen ⊢
        have hold := h.card_le hsound (by omega)
        have hthousand : batchSize.toNat = 1000 := rfl
        refine ⟨by omega, by omega, ?_⟩
        apply evict_of_card_le
        show _ ≤ 100000
        omega
      constructor
      · rw [hwritten]
        intro hlen
        have hold := (hroom hlen).1
        apply List.Nodup.append (h.nodup hold) (List.nodup_singleton _)
        intro w hw hw'
        rw [List.mem_singleton.mp hw'] at hw
        -- what has been written is still there, and this slot was missed
        have hin := h.cached hsound hold slot hw
        rw [Finmap.mem_keys, ← Finmap.lookup_isSome, hnone] at hin
        cases hin
      · rw [hwritten, hcache]
        intro _ hlen
        rw [(hroom hlen).2.2]
        exact (hroom hlen).2.1
      · rw [hwritten, hcache]
        intro _ hlen w hw
        rw [(hroom hlen).2.2]
        rcases List.mem_append.mp hw with hw | hw
        · exact hsub (h.cached hsound (hroom hlen).1 w hw)
        · rw [List.mem_singleton.mp hw]
          exact mem_keys_insertFrom hrun hne
  | poisoned _ _ _ hwritten hpoison =>
      constructor
      · rw [hwritten]
        exact h.nodup
      · intro hsound
        rw [hpoison] at hsound
        cases hsound
      · intro hsound
        rw [hpoison] at hsound
        cases hsound

theorem SharedReachable.undropped (h : SharedReachable P rpc s) (hrpc : rpc.Bounded) :
    Undropped s := by
  induction h with
  | refl =>
      refine ⟨fun _ => List.nodup_nil, fun _ _ => ?_, ?_⟩
      · show (∅ : Cache).keys.card ≤ 0
        rw [Finmap.keys_empty, Finset.card_empty]
      · intro _ _ slot hslot
        cases hslot
  | tail hreach hstep ih => exact ih.step (SharedReachable.coherent hreach) hrpc hstep

/-- **No stampede.** At most one thread is at the RPC, for a slot that is not
cached and stays so until that thread writes it: only the thread that holds what
the RPC returned for a slot changes the cache. If the RPC answers as it is asked,
then until the cache is full no slot is fetched twice, however many threads miss
it at once. -/
theorem no_stampede (P : Profile) (rpc : Rpc) (s : Shared θ) (h : SharedReachable P rpc s) :
    (∀ t u slot slot', (s.pc t).fetches? = some slot → (s.pc u).fetches? = some slot' → t = u) ∧
    (∀ t slot, (s.pc t).fetches? = some slot → s.cache.lookup slot = none) ∧
    (∀ s', SharedStep P rpc s s' → s'.cache ≠ s.cache → ∃ t n slot leaders,
      MovedBy t s s' ∧ s.pc t = .fetched n slot leaders ∧ rpc slot (.ok leaders)) ∧
    (rpc.Bounded → s.written.length ≤ 100 → s.written.Nodup) := by
  have hco := h.coherent
  have hholds : ∀ {pc : Pc} {slot : UInt64}, pc.fetches? = some slot → pc.holds = true := by
    intro pc slot hslot
    cases pc with
    | fetching n slot => rfl
    | fetched n slot leaders => rfl
    | _ => cases hslot
  refine ⟨?_, ?_, ?_, fun hrpc => (h.undropped hrpc).nodup⟩
  · intro t u slot slot' ht hu
    exact hco.exclusive.eq (hholds ht) (hholds hu)
  · intro t slot ht
    have hj := hco.effective.justified t
    cases hpc : s.pc t with
    | fetching n slot' =>
        rw [hpc] at ht hj
        cases ht
        exact hj.2
    | fetched n slot' leaders =>
        rw [hpc] at ht hj
        cases ht
        exact hj.2.1
    | _ =>
        rw [hpc] at ht
        cases ht
  · intro s' hstep hne
    obtain ⟨t, n, slot, leaders, hpc, hmoved⟩ := hstep.writer hne
    have hj := hco.effective.justified t
    rw [hpc] at hj
    exact ⟨t, n, slot, leaders, hmoved, hpc, hj.2.2⟩

/-- The thread that has the leaders is the only one that fetches, and no other
writes; when both calls are over one window has been written. -/
theorem no_stampede_stampede : ∃ s s' : Shared Bool,
    (s.pc false = .fetched 0 7 [sampleSchedule 7] ∧ s.pc true = .missed 1 7 ∧
      (∀ t slot, (s.pc t).fetches? = some slot → t = false) ∧
      ∀ s'', SharedStep ⟨true⟩ oneLeader s s'' → s''.cache ≠ s.cache → MovedBy false s s'') ∧
    s'.next = 2 ∧ s'.written = [7] ∧ (s'.written.length ≤ 100 → s'.written.Nodup) := by
  obtain ⟨s, hreach, hfetched, hmissed, _⟩ := exists_fetched
  obtain ⟨hone, _, hwriter, _⟩ := no_stampede ⟨true⟩ oneLeader s hreach
  have honly : ∀ t slot, (s.pc t).fetches? = some slot → t = false :=
    fun t slot ht => hone t false slot 7 ht (by rw [hfetched]; rfl)
  obtain ⟨s', hreach', _, hwritten, hnext, _⟩ := exists_stampede
  refine ⟨s, s', ⟨hfetched, hmissed, honly, ?_⟩, hnext, hwritten,
    (no_stampede ⟨true⟩ oneLeader s' hreach').2.2.2 oneLeader_bounded⟩
  intro s'' hstep hne
  obtain ⟨t, n, slot, leaders, hmoved, hpc, _⟩ := hwriter s'' hstep hne
  rwa [← honly t slot (by rw [hpc]; rfl)]

/-! ## Answers from a schedule -/

/-- The RPC returns leaders of consecutive slots, none past the last `u64`, or fails. -/
def Rpc.Follows (schedule : UInt64 → Bytes 32) (rpc : Rpc) : Prop :=
  ∀ start leaders, rpc start (.ok leaders) → start.toNat + leaders.length ≤ 2 ^ 64 ∧
    leaders = (List.range leaders.length).map fun i => schedule (.ofNat (start.toNat + i))

/-- The call the RPC is asked for is all that a query sees of it. -/
theorem leaderForSlot_answering {fetchWindow : FetchWindow} {slot : UInt64} {cache : Cache} :
    leaderForSlot P (answering slot (fetchWindow slot batchSize)) slot cache =
      leaderForSlot P fetchWindow slot cache := by
  unfold leaderForSlot fillWindow
  rw [answering_self]

/-- A query within an RPC that follows the schedule. -/
theorem Rpc.Follows.query {schedule : UInt64 → Bytes 32} (hrpc : rpc.Follows schedule)
    {cache : Cache} (hs : Sound schedule cache) {q : Query} (hq : q.Within rpc cache) :
    ∃ cache' answer, leaderForSlot P q.fetchWindow q.slot cache = .ok (cache', answer) ∧
      Sound schedule cache' ∧ ∀ pk, answer = some pk → pk = schedule q.slot := by
  cases hlookup : cache.lookup q.slot with
  | some pk =>
      refine ⟨_, _, leaderForSlot_cached hlookup, hs, ?_⟩
      intro pk' h
      cases h
      exact hs.scheduled hlookup
  | none =>
      -- for other slots the RPC may as well fail
      have hfollows : FollowsSchedule schedule
          (answering q.slot (q.fetchWindow q.slot batchSize)) := by
        intro start leaders h
        unfold answering at h
        split at h
        · rename_i heq
          rw [heq]
          apply hrpc
          rw [← h]
          exact hq hlookup
        · cases h
      rw [← leaderForSlot_answering]
      exact hs.query (q := ⟨q.slot, answering q.slot (q.fetchWindow q.slot batchSize)⟩) hfollows

/-- Effects that the sequential resolver allows are answered from the schedule. -/
theorem LegalTo.scheduled {schedule : UInt64 → Bytes 32} {effects : List LeaderCommit}
    {cache : Cache} (h : LegalTo P rpc effects cache) (hrpc : rpc.Follows schedule) :
    Sound schedule cache ∧ ∀ c ∈ effects, ∀ pk, c.res = some pk → pk = schedule c.op := by
  induction h with
  | nil =>
      refine ⟨sound_empty, ?_⟩
      intro c hc
      cases hc
  | snoc _ hq hrun ih =>
      obtain ⟨hs, hanswers⟩ := ih
      obtain ⟨cache', answer, hrun', hs', hanswer⟩ := hrpc.query (P := P) hs hq
      rw [hrun] at hrun'
      cases hrun'
      refine ⟨hs', ?_⟩
      intro c hc
      rcases List.mem_append.mp hc with hc | hc
      · exact hanswers c hc
      · rw [List.mem_singleton.mp hc]
        exact hanswer

/-- **The shared cache never lies.** While the RPC follows the schedule no thread
panics, every entry and every answer is the schedule's, and the bound holds. -/
theorem shared_follows_schedule (P : Profile) (schedule : UInt64 → Bytes 32) (rpc : Rpc)
    (hrpc : rpc.Follows schedule) (s : Shared θ) (h : SharedReachable P rpc s) :
    s.poisoned = false ∧ Sound schedule s.cache ∧
      ∀ n res, .respond n res ∈ s.history → ∃ slot, .invoke n slot ∈ s.history ∧
        ∀ pk, res = some pk → pk = schedule slot := by
  have heff := h.coherent.effective
  have hpoison : s.poisoned = false := by
    rw [← Bool.not_eq_true]
    intro hpoison
    obtain ⟨before, after, cache, q, p, _, hlegal, hq, hpanic, _⟩ := heff.broken hpoison
    obtain ⟨_, _, hrun, _⟩ := hrpc.query (P := P) (hlegal.scheduled hrpc).1 hq
    rw [hpanic] at hrun
    cases hrun
  obtain ⟨hsound, hanswers⟩ := (heff.legal hpoison).scheduled hrpc
  refine ⟨hpoison, hsound, ?_⟩
  intro n res hmem
  obtain ⟨c, hc, rfl, rfl⟩ := heff.committed.answered n res hmem
  exact ⟨c.op, heff.committed.invoked c hc, hanswers c hc⟩

theorem oneLeader_follows : oneLeader.Follows sampleSchedule := by
  intro start leaders h
  cases h
  have hlt := start.toNat_lt
  refine ⟨hlt, ?_⟩
  show [sampleSchedule start] = [sampleSchedule (.ofNat (start.toNat + 0))]
  rw [Nat.add_zero, UInt64.ofNat_toNat]

theorem shared_follows_schedule_stampede : ∃ s : Shared Bool,
    .respond 1 (some (sampleSchedule 7)) ∈ s.history ∧ s.poisoned = false ∧
      Sound sampleSchedule s.cache := by
  obtain ⟨s, hreach, _, _, _, hhistory⟩ := exists_stampede
  obtain ⟨hpoison, hsound, _⟩ :=
    shared_follows_schedule ⟨true⟩ sampleSchedule oneLeader oneLeader_follows s hreach
  refine ⟨s, ?_, hpoison, hsound⟩
  rw [hhistory]
  exact List.mem_append_right [_, _, _] (List.mem_singleton_self _)

end Lattica.Listener.HeliusLeaderResolver
