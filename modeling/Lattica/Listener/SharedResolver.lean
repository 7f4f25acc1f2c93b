import Lattica.Foundation.Linearizability
import Lattica.Listener.LeaderCache

/-!
# The resolver shared by several threads

`leader_for_slot` takes `&self`: any number of threads may be inside it at once.
Each call is cut here into its accesses to what is shared, the `RwLock` around
the cache and the `inflight` mutex, and the accesses of different threads
interleave freely. The loop that writes a fetched window and the eviction after
it are one access, made under the write guard. A panic in that loop, the one the
resolver can make, poisons both locks.

The lock makes the fetches one at a time (`Exclusive`), and every call takes
effect at one moment (`Effective`), so the concurrent resolver is linearizable
to the sequential one.
-/

namespace Lattica.Listener.HeliusLeaderResolver

open Foundation Eviction Linearizability

attribute [local instance] slotOrder

/-- What the loop of `fill_window` has written when it ends or panics. -/
def insertUntil (P : Profile) (start : UInt64) : ℕ → List (Bytes 32) → Cache → Cache
  | _, [], cache => cache
  | i, pk :: leaders, cache =>
      match (addU P 64 start.toNat i : Exec Empty ℕ) with
      | .ok slot => insertUntil P start (i + 1) leaders (cache.insert (.ofNat slot) pk)
      | .panic _ => cache

/-- What the RPC may return for the window that starts at a slot. -/
abbrev Rpc : Type := UInt64 → Except String (List (Bytes 32)) → Prop

/-- Where a thread is in call `n` of `leader_for_slot`. -/
inductive Pc where
  | idle
  /-- About to look the slot up. -/
  | called (n : ℕ) (slot : UInt64)
  /-- About to lock `inflight`. -/
  | missed (n : ℕ) (slot : UInt64)
  /-- About to look the slot up again. -/
  | locked (n : ℕ) (slot : UInt64)
  /-- The RPC call is under way. -/
  | fetching (n : ℕ) (slot : UInt64)
  /-- About to write the window. -/
  | fetched (n : ℕ) (slot : UInt64) (leaders : List (Bytes 32))
  /-- About to look up what was written. -/
  | filled (n : ℕ) (slot : UInt64)
  /-- About to unlock `inflight`. -/
  | leaving (n : ℕ) (answer : Option (Bytes 32))
  | answered (n : ℕ) (answer : Option (Bytes 32))
  | panicked (n : ℕ)

namespace Pc

/-- The thread holds `inflight`. -/
def holds : Pc → Bool
  | .locked .. => true
  | .fetching .. => true
  | .fetched .. => true
  | .filled .. => true
  | .leaving .. => true
  | _ => false

def call? : Pc → Option ℕ
  | .idle => none
  | .called n _ => some n
  | .missed n _ => some n
  | .locked n _ => some n
  | .fetching n _ => some n
  | .fetched n _ _ => some n
  | .filled n _ => some n
  | .leaving n _ => some n
  | .answered n _ => some n
  | .panicked n => some n

/-- The slot whose leaders the thread is fetching. -/
def fetches? : Pc → Option UInt64
  | .fetching _ slot => some slot
  | .fetched _ slot _ => some slot
  | _ => none

end Pc

abbrev LeaderEvent : Type := Event UInt64 (Option (Bytes 32))

abbrev LeaderCommit : Type := Commit UInt64 (Option (Bytes 32))

structure Shared (θ : Type) where
  pc : θ → Pc
  cache : Cache
  /-- Who holds `inflight`. -/
  inflight : Option θ
  /-- Both locks are poisoned. -/
  poisoned : Bool
  /-- The number of the next call. -/
  next : ℕ
  /-- The calls made and answered, in order. -/
  history : List LeaderEvent
  /-- The calls that have taken effect, in order. -/
  effects : List LeaderCommit
  /-- Where the windows written start, in order. -/
  written : List UInt64

variable {θ : Type} [DecidableEq θ]

namespace Shared

/-- `HeliusLeaderResolver::new`. -/
def new : Shared θ where
  pc _ := .idle
  cache := ∅
  inflight := none
  poisoned := false
  next := 0
  history := []
  effects := []
  written := []

/-- `self.cache.read().ok().and_then(|c| c.get(&slot).copied())`. -/
def read (s : Shared θ) (slot : UInt64) : Option (Bytes 32) :=
  if s.poisoned then none else s.cache.lookup slot

def goto (s : Shared θ) (t : θ) (pc : Pc) : Shared θ := { s with pc := Function.update s.pc t pc }

/-- The call takes effect, with its answer. -/
def effect (s : Shared θ) (n : ℕ) (slot : UInt64) (answer : Option (Bytes 32)) : Shared θ :=
  { s with effects := s.effects ++ [⟨n, slot, answer⟩] }

@[simp] theorem goto_pc_self (s : Shared θ) (t : θ) (pc : Pc) : (s.goto t pc).pc t = pc :=
  Function.update_self _ _ _

theorem goto_pc_ne (s : Shared θ) {t u : θ} (pc : Pc) (h : u ≠ t) :
    (s.goto t pc).pc u = s.pc u := Function.update_of_ne h _ _

end Shared

/-- One access of one thread. -/
inductive SharedStep (P : Profile) (rpc : Rpc) : Shared θ → Shared θ → Prop where
  | call {s : Shared θ} {t : θ} (slot : UInt64) (hpc : s.pc t = .idle) :
      SharedStep P rpc s { s.goto t (.called s.next slot) with
        next := s.next + 1
        history := s.history ++ [.invoke s.next slot] }
  | hit {s : Shared θ} {t : θ} {n : ℕ} {slot : UInt64} {pk : Bytes 32}
      (hpc : s.pc t = .called n slot) (hread : s.read slot = some pk) :
      SharedStep P rpc s ((s.goto t (.answered n (some pk))).effect n slot (some pk))
  | miss {s : Shared θ} {t : θ} {n : ℕ} {slot : UInt64}
      (hpc : s.pc t = .called n slot) (hread : s.read slot = none) :
      SharedStep P rpc s (s.goto t (.missed n slot))
  | lock {s : Shared θ} {t : θ} {n : ℕ} {slot : UInt64}
      (hpc : s.pc t = .missed n slot) (hfree : s.inflight = none) (hsound : s.poisoned = false) :
      SharedStep P rpc s { s.goto t (.locked n slot) with inflight := some t }
  /-- `lock().ok()?` on a poisoned mutex. -/
  | refused {s : Shared θ} {t : θ} {n : ℕ} {slot : UInt64}
      (hpc : s.pc t = .missed n slot) (hfree : s.inflight = none) (hpoison : s.poisoned = true) :
      SharedStep P rpc s ((s.goto t (.answered n none)).effect n slot none)
  /-- Another thread has filled the cache in the meantime. -/
  | rehit {s : Shared θ} {t : θ} {n : ℕ} {slot : UInt64} {pk : Bytes 32}
      (hpc : s.pc t = .locked n slot) (hread : s.read slot = some pk) :
      SharedStep P rpc s ((s.goto t (.leaving n (some pk))).effect n slot (some pk))
  | remiss {s : Shared θ} {t : θ} {n : ℕ} {slot : UInt64}
      (hpc : s.pc t = .locked n slot) (hread : s.read slot = none) :
      SharedStep P rpc s (s.goto t (.fetching n slot))
  | fetchFailed {s : Shared θ} {t : θ} {n : ℕ} {slot : UInt64} {e : String}
      (hpc : s.pc t = .fetching n slot) (hrpc : rpc slot (.error e)) :
      SharedStep P rpc s ((s.goto t (.leaving n none)).effect n slot none)
  | fetchedOk {s : Shared θ} {t : θ} {n : ℕ} {slot : UInt64} {leaders : List (Bytes 32)}
      (hpc : s.pc t = .fetching n slot) (hrpc : rpc slot (.ok leaders)) :
      SharedStep P rpc s (s.goto t (.fetched n slot leaders))
  /-- The writes and the eviction, under the write guard. -/
  | fill {s : Shared θ} {t : θ} {n : ℕ} {slot : UInt64} {leaders : List (Bytes 32)}
      {filled : Cache} (hpc : s.pc t = .fetched n slot leaders) (hsound : s.poisoned = false)
      (hrun : insertFrom P slot 0 leaders s.cache = .ok filled) :
      SharedStep P rpc s (({ s.goto t (.filled n slot) with
        cache := evict maxCacheEntries filled
        written := s.written ++ [slot] } : Shared θ).effect n slot
          ((evict maxCacheEntries filled).lookup slot))
  /-- The slot number overflows while the guards are held. -/
  | overflow {s : Shared θ} {t : θ} {n : ℕ} {slot : UInt64} {leaders : List (Bytes 32)}
      {p : Panic} (hpc : s.pc t = .fetched n slot leaders) (hsound : s.poisoned = false)
      (hrun : insertFrom P slot 0 leaders s.cache = .panic p) :
      SharedStep P rpc s { s.goto t (.panicked n) with
        cache := insertUntil P slot 0 leaders s.cache
        inflight := none
        poisoned := true }
  /-- `write()` on a poisoned lock: `fill_window` fails. -/
  | unwritable {s : Shared θ} {t : θ} {n : ℕ} {slot : UInt64} {leaders : List (Bytes 32)}
      (hpc : s.pc t = .fetched n slot leaders) (hpoison : s.poisoned = true) :
      SharedStep P rpc s (s.goto t (.leaving n none))
  | look {s : Shared θ} {t : θ} {n : ℕ} {slot : UInt64} (hpc : s.pc t = .filled n slot) :
      SharedStep P rpc s (s.goto t (.leaving n (s.read slot)))
  | release {s : Shared θ} {t : θ} {n : ℕ} {answer : Option (Bytes 32)}
      (hpc : s.pc t = .leaving n answer) :
      SharedStep P rpc s { s.goto t (.answered n answer) with inflight := none }
  | respond {s : Shared θ} {t : θ} {n : ℕ} {answer : Option (Bytes 32)}
      (hpc : s.pc t = .answered n answer) :
      SharedStep P rpc s { s.goto t .idle with history := s.history ++ [.respond n answer] }

def SharedReachable (P : Profile) (rpc : Rpc) : Shared θ → Prop :=
  Relation.ReflTransGen (SharedStep P rpc) .new

variable {P : Profile} {rpc : Rpc} {s s' : Shared θ} {t u : θ} {pc : Pc}

/-- What holds of the thread that moved and of all others holds of every thread. -/
theorem forall_goto {Q : θ → Pc → Prop} (hnew : Q t pc) (hold : ∀ u, u ≠ t → Q u (s.pc u)) :
    ∀ u, Q u ((s.goto t pc).pc u) := by
  intro u
  by_cases h : u = t
  · subst h
    rw [Shared.goto_pc_self]
    exact hnew
  · rw [s.goto_pc_ne pc h]
    exact hold u h

/-! ## Mutual exclusion -/

/-- `inflight` is held by the one thread that is between locking and unlocking
it, and by nobody once it is poisoned. -/
structure Exclusive (s : Shared θ) : Prop where
  holder : ∀ t, (s.pc t).holds = true ↔ s.inflight = some t
  free : s.poisoned = true → s.inflight = none

omit [DecidableEq θ] in
theorem exclusive_new : Exclusive (Shared.new : Shared θ) where
  holder t := by
    constructor
    · intro h
      cases h
    · intro h
      cases h
  free h := by cases h

/-- A thread that keeps the lock, or stays without it. -/
theorem Exclusive.goto (h : Exclusive s) (hsame : pc.holds = (s.pc t).holds) :
    ∀ u, ((s.goto t pc).pc u).holds = true ↔ s.inflight = some u :=
  forall_goto (Q := fun u pc => pc.holds = true ↔ s.inflight = some u)
    (by rw [hsame, h.holder]) fun u _ => h.holder u

/-- A thread that gives the lock back. -/
theorem Exclusive.unlock (h : Exclusive s) (hheld : (s.pc t).holds = true)
    (hfree : pc.holds = false) : ∀ u, ((s.goto t pc).pc u).holds = true ↔ none = some u := by
  apply forall_goto (Q := fun u pc => pc.holds = true ↔ none = some u)
  · rw [hfree]
    simp
  · intro u hne
    rw [h.holder, (h.holder t).mp hheld]
    constructor
    · intro heq
      exact absurd (Option.some.inj heq).symm hne
    · intro heq
      cases heq

theorem Exclusive.step (h : Exclusive s) (hstep : SharedStep P rpc s s') : Exclusive s' := by
  cases hstep with
  | call slot hpc => exact ⟨h.goto (by rw [hpc]; rfl), h.free⟩
  | hit hpc _ => exact ⟨h.goto (by rw [hpc]; rfl), h.free⟩
  | miss hpc _ => exact ⟨h.goto (by rw [hpc]; rfl), h.free⟩
  | @lock t n slot hpc hfree hsound =>
      refine ⟨?_, ?_⟩
      · apply forall_goto (Q := fun u pc => pc.holds = true ↔ some t = some u)
        · exact ⟨fun _ => rfl, fun _ => rfl⟩
        · intro u hne
          rw [h.holder, hfree]
          constructor
          · intro heq
            cases heq
          · intro heq
            exact absurd (Option.some.inj heq).symm hne
      · intro hpoison
        change s.poisoned = true at hpoison
        rw [hsound] at hpoison
        cases hpoison
  | refused hpc _ _ => exact ⟨h.goto (by rw [hpc]; rfl), h.free⟩
  | rehit hpc _ => exact ⟨h.goto (by rw [hpc]; rfl), h.free⟩
  | remiss hpc _ => exact ⟨h.goto (by rw [hpc]; rfl), h.free⟩
  | fetchFailed hpc _ => exact ⟨h.goto (by rw [hpc]; rfl), h.free⟩
  | fetchedOk hpc _ => exact ⟨h.goto (by rw [hpc]; rfl), h.free⟩
  | fill hpc _ _ => exact ⟨h.goto (by rw [hpc]; rfl), h.free⟩
  | overflow hpc _ _ => exact ⟨h.unlock (by rw [hpc]; rfl) rfl, fun _ => rfl⟩
  | unwritable hpc _ => exact ⟨h.goto (by rw [hpc]; rfl), h.free⟩
  | look hpc => exact ⟨h.goto (by rw [hpc]; rfl), h.free⟩
  | release hpc => exact ⟨h.unlock (by rw [hpc]; rfl) rfl, fun _ => rfl⟩
  | respond hpc => exact ⟨h.goto (by rw [hpc]; rfl), h.free⟩

omit [DecidableEq θ] in
theorem Exclusive.eq (h : Exclusive s) (ht : (s.pc t).holds = true) (hu : (s.pc u).holds = true) :
    t = u := by
  have htu := (h.holder t).mp ht
  rw [(h.holder u).mp hu] at htu
  exact (Option.some.inj htu).symm

omit [DecidableEq θ] in
/-- A poisoned lock is held by nobody. -/
theorem Exclusive.not_holds (h : Exclusive s) (hpoison : s.poisoned = true) (t : θ) :
    (s.pc t).holds = false := by
  rw [← Bool.not_eq_true, h.holder, h.free hpoison]
  intro heq
  cases heq

omit [DecidableEq θ] in
theorem Exclusive.sound (h : Exclusive s) (ht : (s.pc t).holds = true) : s.poisoned = false := by
  rw [← Bool.not_eq_true]
  intro hpoison
  rw [h.not_holds hpoison] at ht
  cases ht

/-! ## Numbers of calls -/

/-- Calls are numbered as they are made, and one thread is in one call. -/
structure Numbered (s : Shared θ) : Prop where
  made : ∀ t n, (s.pc t).call? = some n → n < s.next
  apart : ∀ t u n, (s.pc t).call? = some n → (s.pc u).call? = some n → t = u
  seen : ∀ e ∈ s.history, e.call < s.next

omit [DecidableEq θ] in
theorem numbered_new : Numbered (Shared.new : Shared θ) where
  made t n h := by cases h
  apart t u n h := by cases h
  seen e h := by cases h

/-- A thread that goes on with its call, or is done with it. -/
theorem Numbered.goto (h : Numbered s) (hcall : ∀ n, pc.call? = some n → (s.pc t).call? = some n)
    {s' : Shared θ} (hpc : s'.pc = (s.goto t pc).pc) (hnext : s'.next = s.next)
    (hseen : ∀ e ∈ s'.history, e.call < s'.next) : Numbered s' where
  made u n hu := by
    rw [hpc] at hu
    rw [hnext]
    by_cases hut : u = t
    · subst hut
      rw [Shared.goto_pc_self] at hu
      exact h.made u n (hcall n hu)
    · rw [s.goto_pc_ne pc hut] at hu
      exact h.made u n hu
  apart u v n hu hv := by
    rw [hpc] at hu hv
    have hback : ∀ w, ((s.goto t pc).pc w).call? = some n → (s.pc w).call? = some n := by
      intro w hw
      by_cases hwt : w = t
      · subst hwt
        rw [Shared.goto_pc_self] at hw
        exact hcall n hw
      · rw [s.goto_pc_ne pc hwt] at hw
        exact hw
    exact h.apart u v n (hback u hu) (hback v hv)
  seen := hseen

theorem Numbered.call (h : Numbered s) (slot : UInt64) :
    Numbered { s.goto t (.called s.next slot) with
      next := s.next + 1
      history := s.history ++ [.invoke s.next slot] } where
  made := by
    apply forall_goto (Q := fun u pc => ∀ n, pc.call? = some n → n < s.next + 1)
    · intro n hn
      cases hn
      exact Nat.lt_succ_self _
    · intro u _ n hn
      exact (h.made u n hn).trans (Nat.lt_succ_self _)
  apart := by
    intro u v n hu hv
    have hold : ∀ w, w ≠ t → ((s.goto t (.called s.next slot)).pc w).call? = some n →
        n < s.next := by
      intro w hw hn
      rw [s.goto_pc_ne _ hw] at hn
      exact h.made w n hn
    have hnew : ∀ w, w = t → ((s.goto t (.called s.next slot)).pc w).call? = some n →
        n = s.next := by
      intro w hw hn
      rw [hw, Shared.goto_pc_self] at hn
      exact (Option.some.inj hn).symm
    by_cases hut : u = t
    · by_cases hvt : v = t
      · rw [hut, hvt]
      · exact absurd (hnew u hut hu) (hold v hvt hv).ne
    · by_cases hvt : v = t
      · exact absurd (hnew v hvt hv) (hold u hut hu).ne
      · change ((s.goto t (.called s.next slot)).pc u).call? = some n at hu
        change ((s.goto t (.called s.next slot)).pc v).call? = some n at hv
        rw [s.goto_pc_ne _ hut] at hu
        rw [s.goto_pc_ne _ hvt] at hv
        exact h.apart u v n hu hv
  seen := by
    intro e he
    rcases List.mem_append.mp he with he | he
    · exact (h.seen e he).trans (Nat.lt_succ_self _)
    · rw [List.mem_singleton.mp he]
      exact Nat.lt_succ_self _

theorem Numbered.step (h : Numbered s) (hstep : SharedStep P rpc s s') : Numbered s' := by
  cases hstep with
  | call slot hpc => exact h.call slot
  | hit hpc _ => exact h.goto (by rw [hpc]; exact fun _ => id) rfl rfl h.seen
  | miss hpc _ => exact h.goto (by rw [hpc]; exact fun _ => id) rfl rfl h.seen
  | lock hpc _ _ => exact h.goto (by rw [hpc]; exact fun _ => id) rfl rfl h.seen
  | refused hpc _ _ => exact h.goto (by rw [hpc]; exact fun _ => id) rfl rfl h.seen
  | rehit hpc _ => exact h.goto (by rw [hpc]; exact fun _ => id) rfl rfl h.seen
  | remiss hpc _ => exact h.goto (by rw [hpc]; exact fun _ => id) rfl rfl h.seen
  | fetchFailed hpc _ => exact h.goto (by rw [hpc]; exact fun _ => id) rfl rfl h.seen
  | fetchedOk hpc _ => exact h.goto (by rw [hpc]; exact fun _ => id) rfl rfl h.seen
  | fill hpc _ _ => exact h.goto (by rw [hpc]; exact fun _ => id) rfl rfl h.seen
  | overflow hpc _ _ => exact h.goto (by rw [hpc]; exact fun _ => id) rfl rfl h.seen
  | unwritable hpc _ => exact h.goto (by rw [hpc]; exact fun _ => id) rfl rfl h.seen
  | look hpc => exact h.goto (by rw [hpc]; exact fun _ => id) rfl rfl h.seen
  | release hpc => exact h.goto (by rw [hpc]; exact fun _ => id) rfl rfl h.seen
  | @respond t n answer hpc =>
      refine h.goto ?_ (rfl : _ = (s.goto t .idle).pc) rfl ?_
      · intro m hm
        cases hm
      intro e he
      rcases List.mem_append.mp he with he | he
      · exact h.seen e he
      · rw [List.mem_singleton.mp he]
        exact h.made t n (by rw [hpc]; rfl)

end Lattica.Listener.HeliusLeaderResolver
