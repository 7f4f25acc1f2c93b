import Lattica.Listener.SharedResolver

/-!
# The shared resolver, one call at a time

Every call of the shared resolver takes effect at one of its accesses: the
lookup that finds the slot, the RPC call that fails, or the write of the fetched
window. `Effective` says so of a state, with what each thread between two of its
accesses relies on (`Justified`); other threads cannot take that away
(`Justified.extends`). The effects in their order are a run of the sequential
resolver, so the histories are linearizable and what was proved of sequential
runs holds of concurrent ones.
-/

namespace Lattica.Listener.HeliusLeaderResolver

open Foundation Eviction Linearizability

attribute [local instance] slotOrder

variable {θ : Type} {P : Profile} {rpc : Rpc} {s s' : Shared θ} {t u : θ} {pc : Pc}
  {cache cache' : Cache} {effects : List LeaderCommit}

/-! ## The sequential object -/

/-- The RPC call that the query makes, which is for its slot and on a miss, returns
what the RPC may return: leaders, or an error where the RPC may fail. -/
def Query.Within (rpc : Rpc) (cache : Cache) (q : Query) : Prop :=
  cache.lookup q.slot = none → rpc q.slot (q.fetchWindow q.slot batchSize)

/-- The effects are those of queries made one after the other, which leave `cache`. -/
inductive LegalTo (P : Profile) (rpc : Rpc) : List LeaderCommit → Cache → Prop where
  | nil : LegalTo P rpc [] ∅
  | snoc {effects : List LeaderCommit} {cache cache' : Cache} {q : Query} {n : ℕ}
      {answer : Option (Bytes 32)} (h : LegalTo P rpc effects cache) (hq : q.Within rpc cache)
      (hrun : leaderForSlot P q.fetchWindow q.slot cache = .ok (cache', answer)) :
      LegalTo P rpc (effects ++ [⟨n, q.slot, answer⟩]) cache'

/-- The effects are legal up to some moment at which a query panics; none after
it has an answer. -/
def Broken (P : Profile) (rpc : Rpc) (effects : List LeaderCommit) : Prop :=
  ∃ (before after : List LeaderCommit) (cache : Cache) (q : Query) (p : Panic),
    effects = before ++ after ∧ LegalTo P rpc before cache ∧ q.Within rpc cache ∧
      leaderForSlot P q.fetchWindow q.slot cache = .panic p ∧ ∀ c ∈ after, c.res = none

theorem Broken.snoc (h : Broken P rpc effects) {c : LeaderCommit} (hc : c.res = none) :
    Broken P rpc (effects ++ [c]) := by
  obtain ⟨before, after, cache, q, p, rfl, hlegal, hq, hpanic, hnone⟩ := h
  refine ⟨before, after ++ [c], cache, q, p, List.append_assoc _ _ _, hlegal, hq, hpanic, ?_⟩
  intro d hd
  rcases List.mem_append.mp hd with hd | hd
  · exact hnone d hd
  · rw [List.mem_singleton.mp hd]
    exact hc

/-- The RPC as it answers one call for `slot`. -/
def answering (slot : UInt64) (r : Except String (List (Bytes 32))) : FetchWindow :=
  fun start _ => if start = slot then r else .error ""

theorem answering_self (slot count : UInt64) (r : Except String (List (Bytes 32))) :
    answering slot r slot count = r := if_pos rfl

theorem within_answering {slot : UInt64} {r : Except String (List (Bytes 32))}
    (hrpc : rpc slot r) : (⟨slot, answering slot r⟩ : Query).Within rpc cache := by
  intro _
  change rpc slot (answering slot r slot batchSize)
  rw [answering_self]
  exact hrpc

/-- A query that finds its slot makes no RPC call. -/
theorem within_of_lookup {q : Query} {pk : Bytes 32} (h : cache.lookup q.slot = some pk) :
    q.Within rpc cache := by
  intro hnone
  rw [h] at hnone
  cases hnone

/-! ## What a thread relies on -/

/-- Call `n` was made and has not taken effect. -/
def Waiting (s : Shared θ) (n : ℕ) (slot : UInt64) : Prop :=
  .invoke n slot ∈ s.history ∧ n ∉ s.effects.map Commit.call

def Pc.Justified (rpc : Rpc) (s : Shared θ) : Pc → Prop
  | .idle => True
  | .called n slot => Waiting s n slot
  | .missed n slot => Waiting s n slot
  | .locked n slot => Waiting s n slot
  | .fetching n slot => Waiting s n slot ∧ s.cache.lookup slot = none
  | .fetched n slot leaders =>
      Waiting s n slot ∧ s.cache.lookup slot = none ∧ rpc slot (.ok leaders)
  | .filled n slot => ⟨n, slot, s.cache.lookup slot⟩ ∈ s.effects
  | .leaving n answer => ∃ slot, ⟨n, slot, answer⟩ ∈ s.effects
  | .answered n answer => ∃ slot, ⟨n, slot, answer⟩ ∈ s.effects
  | .panicked _ => True

/-- What the moves of others leave a thread at `pc`: history and effects grow,
not by an effect of its own call, and the cache stays while it holds the lock. -/
structure Extends (pc : Pc) (s s' : Shared θ) : Prop where
  history : ∀ e ∈ s.history, e ∈ s'.history
  effects : ∀ c ∈ s.effects, c ∈ s'.effects
  waiting : ∀ n, pc.call? = some n → n ∉ s.effects.map Commit.call →
    n ∉ s'.effects.map Commit.call
  cache : pc.holds = true → s'.cache = s.cache

theorem Pc.Justified.extends (h : pc.Justified rpc s) (hle : Extends pc s s') :
    pc.Justified rpc s' := by
  have hwaiting : ∀ {n slot}, pc.call? = some n → Waiting s n slot → Waiting s' n slot :=
    fun hcall hw => ⟨hle.history _ hw.1, hle.waiting _ hcall hw.2⟩
  cases pc with
  | idle => trivial
  | called n slot => exact hwaiting rfl h
  | missed n slot => exact hwaiting rfl h
  | locked n slot => exact hwaiting rfl h
  | fetching n slot =>
      obtain ⟨hw, hnone⟩ := h
      refine ⟨hwaiting rfl hw, ?_⟩
      rw [hle.cache rfl]
      exact hnone
  | fetched n slot leaders =>
      obtain ⟨hw, hnone, hrpc⟩ := h
      refine ⟨hwaiting rfl hw, ?_, hrpc⟩
      rw [hle.cache rfl]
      exact hnone
  | filled n slot =>
      show _ ∈ s'.effects
      rw [hle.cache rfl]
      exact hle.effects _ h
  | leaving n answer =>
      obtain ⟨slot, hmem⟩ := h
      exact ⟨slot, hle.effects _ hmem⟩
  | answered n answer =>
      obtain ⟨slot, hmem⟩ := h
      exact ⟨slot, hle.effects _ hmem⟩
  | panicked n => trivial

theorem Shared.lookup_of_read {slot : UInt64} {pk : Bytes 32} (h : s.read slot = some pk) :
    s.cache.lookup slot = some pk := by
  unfold Shared.read at h
  split at h
  · cases h
  · exact h

/-- Nothing is read through a poisoned lock. -/
theorem Shared.sound_of_read {slot : UInt64} {pk : Bytes 32} (h : s.read slot = some pk) :
    s.poisoned = false := by
  unfold Shared.read at h
  split at h
  · cases h
  · rename_i hsound
    exact Bool.not_eq_true _ ▸ hsound

theorem Shared.read_of_sound {slot : UInt64} (h : s.poisoned = false) :
    s.read slot = s.cache.lookup slot := by
  rw [Shared.read, h]
  rfl

/-! ## Every call takes effect at one moment -/

structure Effective (P : Profile) (rpc : Rpc) (s : Shared θ) : Prop where
  committed : Committed s.history s.effects
  legal : s.poisoned = false → LegalTo P rpc s.effects s.cache
  broken : s.poisoned = true → Broken P rpc s.effects
  justified : ∀ t, (s.pc t).Justified rpc s

theorem effective_new : Effective P rpc (Shared.new : Shared θ) where
  committed := .nil
  legal _ := .nil
  broken h := by cases h
  justified _ := trivial

variable [DecidableEq θ]

/-- An access without an effect. -/
theorem Effective.goto (h : Effective P rpc s) (t : θ) (pc : Pc) (hnew : pc.Justified rpc s)
    (hpc : s'.pc = (s.goto t pc).pc) (hcache : s'.cache = s.cache)
    (hpoison : s'.poisoned = s.poisoned) (hhistory : s'.history = s.history)
    (heffects : s'.effects = s.effects) : Effective P rpc s' where
  committed := by
    rw [hhistory, heffects]
    exact h.committed
  legal := by
    rw [hpoison, heffects, hcache]
    exact h.legal
  broken := by
    rw [hpoison, heffects]
    exact h.broken
  justified := by
    have hle : ∀ pc, Extends pc s s' := by
      intro pc
      refine ⟨?_, ?_, ?_, fun _ => hcache⟩
      · rw [hhistory]
        exact fun _ => id
      · rw [heffects]
        exact fun _ => id
      · rw [heffects]
        exact fun _ _ => id
    rw [hpc]
    apply forall_goto (Q := fun _ pc => pc.Justified rpc s')
    · exact hnew.extends (hle pc)
    · intro u _
      exact (h.justified u).extends (hle _)

/-- An access at which call `n` takes effect. -/
theorem Effective.effect (h : Effective P rpc s) (hnum : Numbered s) {n : ℕ} {slot : UInt64}
    {answer : Option (Bytes 32)} (hcall : (s.pc t).call? = some n) (hwait : Waiting s n slot)
    (hpc : s'.pc = (s.goto t pc).pc) (hhistory : s'.history = s.history)
    (heffects : s'.effects = s.effects ++ [⟨n, slot, answer⟩])
    (hpoison : s'.poisoned = s.poisoned)
    (hlegal : s.poisoned = false → LegalTo P rpc (s.effects ++ [⟨n, slot, answer⟩]) s'.cache)
    (hbroken : s.poisoned = true → answer = none)
    (hcache : ∀ u, u ≠ t → (s.pc u).holds = true → s'.cache = s.cache)
    (hnew : pc.Justified rpc s') : Effective P rpc s' where
  committed := by
    rw [hhistory, heffects]
    exact h.committed.commit hwait.1 hwait.2
  legal := by
    rw [hpoison, heffects]
    exact hlegal
  broken := by
    rw [hpoison, heffects]
    intro hp
    exact (h.broken hp).snoc (hbroken hp)
  justified := by
    rw [hpc]
    apply forall_goto (Q := fun _ pc => pc.Justified rpc s') hnew
    intro u hne
    apply (h.justified u).extends
    refine ⟨?_, ?_, ?_, hcache u hne⟩
    · rw [hhistory]
      exact fun _ => id
    · intro c hc
      rw [heffects]
      exact List.mem_append_left _ hc
    · intro m hm hnot
      rw [heffects, List.map_append, List.mem_append]
      rintro (hin | hin)
      · exact hnot hin
      · -- two threads are never in one call
        rw [List.mem_singleton.mp hin] at hm
        exact hne (hnum.apart u t n hm hcall)

/-- A call that finds its slot in the cache. -/
theorem Effective.found (h : Effective P rpc s) (hnum : Numbered s) {n : ℕ} {slot : UInt64}
    {pk : Bytes 32} (hcall : (s.pc t).call? = some n) (hwait : Waiting s n slot)
    (hread : s.read slot = some pk) (hnew : pc.Justified rpc ((s.goto t pc).effect n slot pk)) :
    Effective P rpc ((s.goto t pc).effect n slot (some pk)) := by
  refine h.effect hnum hcall hwait rfl rfl rfl rfl ?_ ?_ (fun _ _ _ => rfl) hnew
  · intro hsound
    have hlookup := Shared.lookup_of_read hread
    exact (h.legal hsound).snoc (q := ⟨slot, answering slot (.error "")⟩)
      (within_of_lookup hlookup) (leaderForSlot_cached hlookup)
  · intro hpoison
    rw [Shared.sound_of_read hread] at hpoison
    cases hpoison

/-- **Every access keeps it.** -/
theorem Effective.step (h : Effective P rpc s) (hex : Exclusive s) (hnum : Numbered s)
    (hstep : SharedStep P rpc s s') : Effective P rpc s' := by
  cases hstep with
  | @call t slot hpc =>
      have hfresh : ∀ e ∈ s.history, e.call ≠ s.next := fun e he => (hnum.seen e he).ne
      have hle : ∀ pc : Pc, Extends pc s { s.goto t (.called s.next slot) with
          next := s.next + 1
          history := s.history ++ [.invoke s.next slot] } :=
        fun pc => ⟨fun e he => List.mem_append_left _ he, fun _ => id, fun _ _ => id,
          fun _ => rfl⟩
      refine ⟨h.committed.invoke hfresh, h.legal, h.broken, ?_⟩
      apply forall_goto (Q := fun _ pc => Pc.Justified rpc _ pc)
      · refine ⟨List.mem_append_right _ (List.mem_singleton_self _), ?_⟩
        intro hin
        obtain ⟨c, hc, hcall⟩ := List.mem_map.mp hin
        exact hfresh _ (h.committed.invoked c hc) hcall
      · intro u _
        exact (h.justified u).extends (hle _)
  | @hit t n slot pk hpc hread =>
      have hj := h.justified t
      rw [hpc] at hj
      apply h.found hnum (by rw [hpc]; rfl) hj hread
      exact ⟨slot, List.mem_append_right _ (List.mem_singleton_self _)⟩
  | @miss t n slot hpc hread =>
      have hj := h.justified t
      rw [hpc] at hj
      exact h.goto t (.missed n slot) hj rfl rfl rfl rfl rfl
  | @lock t n slot hpc _ _ =>
      have hj := h.justified t
      rw [hpc] at hj
      exact h.goto t (.locked n slot) hj rfl rfl rfl rfl rfl
  | @refused t n slot hpc _ hpoison =>
      have hj := h.justified t
      rw [hpc] at hj
      refine h.effect hnum (by rw [hpc]; rfl) hj rfl rfl rfl rfl ?_ (fun _ => rfl)
        (fun _ _ _ => rfl) ?_
      · intro hsound
        rw [hpoison] at hsound
        cases hsound
      · exact ⟨slot, List.mem_append_right _ (List.mem_singleton_self _)⟩
  | @rehit t n slot pk hpc hread =>
      have hj := h.justified t
      rw [hpc] at hj
      apply h.found hnum (by rw [hpc]; rfl) hj hread
      exact ⟨slot, List.mem_append_right _ (List.mem_singleton_self _)⟩
  | @remiss t n slot hpc hread =>
      have hj := h.justified t
      rw [hpc] at hj
      rw [Shared.read_of_sound (hex.sound (t := t) (by rw [hpc]; rfl))] at hread
      exact h.goto t (.fetching n slot) ⟨hj, hread⟩ rfl rfl rfl rfl rfl
  | @fetchFailed t n slot e hpc hrpc =>
      have hj := h.justified t
      rw [hpc] at hj
      obtain ⟨hwait, hnone⟩ := hj
      refine h.effect hnum (by rw [hpc]; rfl) hwait rfl rfl rfl rfl ?_ (fun _ => rfl)
        (fun _ _ _ => rfl) ?_
      · intro hsound
        exact (h.legal hsound).snoc (within_answering hrpc)
          (leaderForSlot_failed hnone (answering_self slot batchSize _))
      · exact ⟨slot, List.mem_append_right _ (List.mem_singleton_self _)⟩
  | @fetchedOk t n slot leaders hpc hrpc =>
      have hj := h.justified t
      rw [hpc] at hj
      exact h.goto t (.fetched n slot leaders) ⟨hj.1, hj.2, hrpc⟩ rfl rfl rfl rfl rfl
  | @fill t n slot leaders filled hpc hsound hrun =>
      have hj := h.justified t
      rw [hpc] at hj
      obtain ⟨hwait, hnone, hrpc⟩ := hj
      refine h.effect hnum (by rw [hpc]; rfl) hwait rfl rfl rfl rfl ?_ ?_ ?_ ?_
      · intro _
        exact (h.legal hsound).snoc (within_answering hrpc)
          (leaderForSlot_filled hnone (answering_self slot batchSize _) hrun)
      · intro hpoison
        rw [hsound] at hpoison
        cases hpoison
      · -- nobody else holds the lock
        intro u hne hholds
        exact absurd (hex.eq hholds (by rw [hpc]; rfl)) hne
      · exact List.mem_append_right _ (List.mem_singleton_self _)
  | @overflow t n slot leaders p hpc hsound hrun =>
      have hj := h.justified t
      rw [hpc] at hj
      obtain ⟨_, hnone, hrpc⟩ := hj
      refine ⟨h.committed, fun hs => (by cases hs), ?_, ?_⟩
      · intro _
        refine ⟨s.effects, [], s.cache, ⟨slot, answering slot (.ok leaders)⟩, p,
          (List.append_nil _).symm, h.legal hsound, within_answering hrpc,
          leaderForSlot_overflow hnone (answering_self slot batchSize _) hrun, ?_⟩
        intro c hc
        cases hc
      · apply forall_goto (Q := fun _ pc => Pc.Justified rpc _ pc)
        · show True
          trivial
        · intro u hne
          apply (h.justified u).extends
          refine ⟨fun _ => id, fun _ => id, fun _ _ => id, ?_⟩
          intro hholds
          exact absurd (hex.eq hholds (by rw [hpc]; rfl)) hne
  | @unwritable t n slot leaders hpc hpoison =>
      have hsound := hex.sound (t := t) (by rw [hpc]; rfl)
      rw [hpoison] at hsound
      cases hsound
  | @look t n slot hpc =>
      have hj := h.justified t
      rw [hpc] at hj
      rw [Shared.read_of_sound (hex.sound (t := t) (by rw [hpc]; rfl))]
      exact h.goto t (.leaving n (s.cache.lookup slot)) ⟨slot, hj⟩ rfl rfl rfl rfl rfl
  | @release t n answer hpc =>
      have hj := h.justified t
      rw [hpc] at hj
      exact h.goto t (.answered n answer) hj rfl rfl rfl rfl rfl
  | @respond t n answer hpc =>
      have hj := h.justified t
      rw [hpc] at hj
      obtain ⟨slot, hmem⟩ := hj
      have hle : ∀ pc : Pc, Extends pc s { s.goto t .idle with
          history := s.history ++ [.respond n answer] } :=
        fun pc => ⟨fun e he => List.mem_append_left _ he, fun _ => id, fun _ _ => id,
          fun _ => rfl⟩
      refine ⟨h.committed.respond hmem, h.legal, h.broken, ?_⟩
      apply forall_goto (Q := fun _ pc => Pc.Justified rpc { s.goto t .idle with
        history := s.history ++ [.respond n answer] } pc)
      · show True
        trivial
      · intro u _
        exact (h.justified u).extends (hle _)

end Lattica.Listener.HeliusLeaderResolver
