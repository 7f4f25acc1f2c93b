import Lattica.Foundation.Bytes
import Lattica.Foundation.Eviction

/-!
# The leader cache

`HeliusLeaderResolver` answers from a map of slots to leaders and fills it on a
miss: one RPC call fetches the leaders from the queried slot on, they are
written into the map, and what exceeds the bound is evicted, lowest slots
first. The RPC is a parameter of every query, since its answer may differ from
one call to the next; `FollowsSchedule` is what it may answer.
-/

namespace Lattica.Listener.HeliusLeaderResolver

open Foundation Eviction

/-- Slots in the order `keys.sort()` puts them. -/
local instance slotOrder : LinearOrder UInt64 where
  le_refl := UInt64.le_refl
  le_trans _ _ _ := UInt64.le_trans
  le_antisymm _ _ := UInt64.le_antisymm
  le_total := UInt64.le_total
  lt_iff_le_not_ge a b := by
    rw [UInt64.le_iff_toNat_le, UInt64.le_iff_toNat_le, UInt64.lt_iff_toNat_lt]
    exact lt_iff_le_not_ge
  toDecidableLE := inferInstance
  toDecidableEq := inferInstance

/-- Slot to leader. -/
abbrev Cache : Type := Finmap fun _ : UInt64 => Bytes 32

/-- `fetch_window`: the leaders from `start` on, `count` asked for, or the error text. -/
abbrev FetchWindow : Type := UInt64 → UInt64 → Except String (List (Bytes 32))

def batchSize : UInt64 := 1000

def maxCacheEntries : ℕ := 100000

/-- The loop of `fill_window`, from entry `i` on. -/
def insertFrom (P : Profile) (start : UInt64) :
    ℕ → List (Bytes 32) → Cache → Exec Empty Cache
  | _, [], cache => pure cache
  | i, pk :: leaders, cache => do
      let slot ← addU P 64 start.toNat i
      insertFrom P start (i + 1) leaders (cache.insert (.ofNat slot) pk)

def fillWindow (P : Profile) (fetchWindow : FetchWindow) (start : UInt64) (cache : Cache) :
    Exec Empty (Cache × Except String Unit) :=
  match fetchWindow start batchSize with
  | .error e => pure (cache, .error e)
  | .ok leaders => do
      let cache ← insertFrom P start 0 leaders cache
      pure (evict maxCacheEntries cache, .ok ())

def leaderForSlot (P : Profile) (fetchWindow : FetchWindow) (slot : UInt64) (cache : Cache) :
    Exec Empty (Cache × Option (Bytes 32)) :=
  match cache.lookup slot with
  | some pk => pure (cache, some pk)
  | none =>
      -- the re-check under the lock
      match cache.lookup slot with
      | some pk => pure (cache, some pk)
      | none => do
          let (cache, filled) ← fillWindow P fetchWindow slot cache
          match filled with
          | .error _ => pure (cache, none)
          | .ok () => pure (cache, cache.lookup slot)

/-- One call of `leader_for_slot`, with the RPC as it is at that moment. -/
structure Query where
  slot : UInt64
  fetchWindow : FetchWindow

def queryAll (P : Profile) : Cache → List Query → Exec Empty (Cache × List (Option (Bytes 32)))
  | cache, [] => pure (cache, [])
  | cache, q :: qs => do
      let (cache, answer) ← leaderForSlot P q.fetchWindow q.slot cache
      let (cache, answers) ← queryAll P cache qs
      pure (cache, answer :: answers)

theorem queryAll_append {P : Profile} {qs qs' : List Query} {cache cache' cache'' : Cache}
    {answers answers' : List (Option (Bytes 32))} (h : queryAll P cache qs = .ok (cache', answers))
    (h' : queryAll P cache' qs' = .ok (cache'', answers')) :
    queryAll P cache (qs ++ qs') = .ok (cache'', answers ++ answers') := by
  induction qs generalizing cache answers with
  | nil =>
      cases h
      exact h'
  | cons q qs ih =>
      obtain ⟨⟨c, answer⟩, hq, h⟩ := Exec.bind_eq_ok.mp h
      obtain ⟨⟨c', rest⟩, hqs, h⟩ := Exec.bind_eq_ok.mp h
      cases h
      show (leaderForSlot P q.fetchWindow q.slot cache >>= _) = _
      rw [hq, Exec.ok_bind]
      show (queryAll P c (qs ++ qs') >>= _) = _
      rw [ih hqs]
      rfl

/-! ## Windows of slots -/

theorem toNat_ofNat {n : ℕ} (h : n < 2 ^ 64) : (UInt64.ofNat n).toNat = n :=
  UInt64.toNat_ofNat_of_lt' h

/-- The `n` slots from `start` on. -/
def window (start : UInt64) (n : ℕ) : Finset UInt64 :=
  (Finset.range n).image fun i => .ofNat (start.toNat + i)

section Window

variable {start : UInt64} {n : ℕ} (h : start.toNat + n ≤ 2 ^ 64)

include h

theorem mem_window {k : UInt64} :
    k ∈ window start n ↔ start.toNat ≤ k.toNat ∧ k.toNat < start.toNat + n := by
  rw [window, Finset.mem_image]
  constructor
  · rintro ⟨i, hi, rfl⟩
    have hi := Finset.mem_range.mp hi
    rw [toNat_ofNat (by omega)]
    omega
  · rintro ⟨hle, hlt⟩
    refine ⟨k.toNat - start.toNat, Finset.mem_range.mpr (by omega), ?_⟩
    rw [Nat.add_sub_cancel' hle, UInt64.ofNat_toNat]

theorem card_window : (window start n).card = n := by
  rw [window, Finset.card_image_of_injOn, Finset.card_range]
  intro i hi j hj heq
  have hi := Finset.mem_range.mp hi
  have hj := Finset.mem_range.mp hj
  have heq := congrArg UInt64.toNat heq
  rw [toNat_ofNat (by omega), toNat_ofNat (by omega)] at heq
  omega

end Window

/-- What a fetched list says about a slot. -/
def windowAt (start : ℕ) (leaders : List (Bytes 32)) (k : UInt64) : Option (Bytes 32) :=
  if start ≤ k.toNat then leaders[k.toNat - start]? else none

/-- The loop writes the list over the cache. -/
theorem insertFrom_eq_ok (P : Profile) (start : UInt64) :
    ∀ (leaders : List (Bytes 32)) (i : ℕ) (cache : Cache),
      start.toNat + i + leaders.length ≤ 2 ^ 64 →
      ∃ cache', insertFrom P start i leaders cache = .ok cache' ∧
        ∀ k, cache'.lookup k =
          (windowAt (start.toNat + i) leaders k).or (cache.lookup k)
  | [], i, cache, _ => by
      refine ⟨cache, rfl, ?_⟩
      intro k
      simp [windowAt]
  | pk :: leaders, i, cache, h => by
      rw [List.length_cons] at h
      obtain ⟨cache', hrun, hlookup⟩ := insertFrom_eq_ok P start leaders (i + 1)
        (cache.insert (.ofNat (start.toNat + i)) pk) (by omega)
      refine ⟨cache', ?_, ?_⟩
      · rw [insertFrom, addU_eq (by omega), Exec.ok_bind, hrun]
      · intro k
        rw [hlookup]
        have hslot : (UInt64.ofNat (start.toNat + i)).toNat = start.toNat + i :=
          toNat_ofNat (by omega)
        by_cases hk : k = .ofNat (start.toNat + i)
        · -- the entry just written: the rest of the list starts above it
          subst hk
          rw [Finmap.lookup_insert, windowAt, windowAt, hslot, if_neg (by omega), if_pos le_rfl]
          simp
        · have hne : k.toNat ≠ start.toNat + i := by
            intro heq
            exact hk (UInt64.toNat_inj.mp (heq.trans hslot.symm))
          rw [Finmap.lookup_insert_of_ne _ hk, windowAt, windowAt]
          by_cases hle : start.toNat + i ≤ k.toNat
          · have hsucc : k.toNat - (start.toNat + i) = k.toNat - (start.toNat + (i + 1)) + 1 := by
              omega
            rw [if_pos (by omega), if_pos hle, hsucc, List.getElem?_cons_succ]
          · rw [if_neg (by omega), if_neg hle]

/-! ## Answers from a schedule -/

variable {P : Profile} {schedule : UInt64 → Bytes 32}

/-- A call of the RPC fails or returns leaders of consecutive slots, none past the last `u64`. -/
def FollowsSchedule (schedule : UInt64 → Bytes 32) (fetchWindow : FetchWindow) : Prop :=
  ∀ (start : UInt64) (leaders : List (Bytes 32)), fetchWindow start batchSize = .ok leaders →
    start.toNat + leaders.length ≤ 2 ^ 64 ∧
      leaders = (List.range leaders.length).map fun i => schedule (.ofNat (start.toNat + i))

def Query.Follows (schedule : UInt64 → Bytes 32) (q : Query) : Prop :=
  FollowsSchedule schedule q.fetchWindow

theorem windowAt_schedule {start k : UInt64} {n : ℕ} (h : start.toNat + n ≤ 2 ^ 64) :
    windowAt start.toNat ((List.range n).map fun i => schedule (.ofNat (start.toNat + i))) k =
      if k ∈ window start n then some (schedule k) else none := by
  rw [windowAt]
  by_cases hle : start.toNat ≤ k.toNat
  · by_cases hlt : k.toNat < start.toNat + n
    · rw [if_pos hle, if_pos ((mem_window h).mpr ⟨hle, hlt⟩), List.getElem?_map,
        List.getElem?_range (by omega), Option.map_some, Nat.add_sub_cancel' hle,
        UInt64.ofNat_toNat]
    · have hout : k ∉ window start n := fun hk => hlt ((mem_window h).mp hk).2
      rw [if_pos hle, if_neg hout, List.getElem?_eq_none (by simp; omega)]
  · have hout : k ∉ window start n := fun hk => hle ((mem_window h).mp hk).1
    rw [if_neg hle, if_neg hout]

/-- `filled` is `cache` with the `n` slots from `start` on written from the schedule. -/
structure Filled (schedule : UInt64 → Bytes 32) (cache : Cache) (start : UInt64) (n : ℕ)
    (filled : Cache) : Prop where
  fits : start.toNat + n ≤ 2 ^ 64
  lookup_eq : ∀ k, filled.lookup k =
    if k ∈ window start n then some (schedule k) else cache.lookup k

namespace Filled

variable {cache filled : Cache} {start : UInt64} {n : ℕ}

theorem keys_eq (h : Filled schedule cache start n filled) :
    filled.keys = window start n ∪ cache.keys := by
  ext k
  rw [Finset.mem_union, Finmap.mem_keys, Finmap.mem_keys, ← Finmap.lookup_isSome,
    ← Finmap.lookup_isSome, h.lookup_eq]
  by_cases hk : k ∈ window start n
  · simp [hk]
  · simp [hk]

/-- The keys from `start` on: the window, and what the cache held above it. -/
theorem card_from (h : Filled schedule cache start n filled) :
    (filled.keys.filter fun k => start ≤ k).card =
      n + (cache.keys.filter fun k => start.toNat + n ≤ k.toNat).card := by
  have hsplit : (filled.keys.filter fun k => start ≤ k) =
      window start n ∪ cache.keys.filter fun k => start.toNat + n ≤ k.toNat := by
    ext k
    rw [h.keys_eq, Finset.mem_filter, Finset.mem_union, Finset.mem_union, Finset.mem_filter,
      mem_window h.fits, UInt64.le_iff_toNat_le]
    constructor
    · rintro ⟨hk | hk, hle⟩
      · exact Or.inl hk
      · by_cases hlt : k.toNat < start.toNat + n
        · exact Or.inl ⟨hle, hlt⟩
        · exact Or.inr ⟨hk, not_lt.mp hlt⟩
    · rintro (⟨hle, hlt⟩ | ⟨hk, hle⟩)
      · exact ⟨Or.inl ⟨hle, hlt⟩, hle⟩
      · exact ⟨Or.inr hk, by omega⟩
  have hdisj : Disjoint (window start n)
      (cache.keys.filter fun k => start.toNat + n ≤ k.toNat) := by
    rw [Finset.disjoint_left]
    intro k hk hk'
    have hlt := ((mem_window h.fits).mp hk).2
    have hle := (Finset.mem_filter.mp hk').2
    omega
  rw [hsplit, Finset.card_union_of_disjoint hdisj, card_window h.fits]

end Filled

/-! ## One query -/

section Query

variable {fetchWindow : FetchWindow} {slot : UInt64} {cache : Cache}

theorem leaderForSlot_cached {pk : Bytes 32} (h : cache.lookup slot = some pk) :
    leaderForSlot P fetchWindow slot cache = .ok (cache, some pk) := by
  unfold leaderForSlot
  rw [h]
  rfl

theorem leaderForSlot_failed {e : String} (h : cache.lookup slot = none)
    (hfetch : fetchWindow slot batchSize = .error e) :
    leaderForSlot P fetchWindow slot cache = .ok (cache, none) := by
  unfold leaderForSlot
  rw [h]
  show (fillWindow P fetchWindow slot cache >>= _) = _
  unfold fillWindow
  rw [hfetch]
  rfl

/-- A miss whose window is written. -/
theorem leaderForSlot_filled {leaders : List (Bytes 32)} {filled : Cache}
    (h : cache.lookup slot = none)
    (hfetch : fetchWindow slot batchSize = .ok leaders)
    (hrun : insertFrom P slot 0 leaders cache = .ok filled) :
    leaderForSlot P fetchWindow slot cache =
      .ok (evict maxCacheEntries filled, (evict maxCacheEntries filled).lookup slot) := by
  unfold leaderForSlot
  rw [h]
  show (fillWindow P fetchWindow slot cache >>= _) = _
  unfold fillWindow
  rw [hfetch]
  show ((insertFrom P slot 0 leaders cache >>= _) >>= _) = _
  rw [hrun]
  rfl

/-- A miss whose window cannot be written. -/
theorem leaderForSlot_overflow {leaders : List (Bytes 32)} {p : Panic}
    (h : cache.lookup slot = none)
    (hfetch : fetchWindow slot batchSize = .ok leaders)
    (hrun : insertFrom P slot 0 leaders cache = .panic p) :
    leaderForSlot P fetchWindow slot cache = .panic p := by
  unfold leaderForSlot
  rw [h]
  show (fillWindow P fetchWindow slot cache >>= _) = _
  unfold fillWindow
  rw [hfetch]
  show ((insertFrom P slot 0 leaders cache >>= _) >>= _) = _
  rw [hrun]
  rfl

/-- What is answered is in the cache. -/
theorem lookup_of_answered {cache' : Cache} {pk : Bytes 32}
    (h : leaderForSlot P fetchWindow slot cache = .ok (cache', some pk)) :
    cache'.lookup slot = some pk := by
  cases hlookup : cache.lookup slot with
  | some pk' =>
      rw [leaderForSlot_cached hlookup] at h
      cases h
      exact hlookup
  | none =>
      cases hfetch : fetchWindow slot batchSize with
      | error e =>
          rw [leaderForSlot_failed hlookup hfetch] at h
          cases h
      | ok leaders =>
          cases hrun : insertFrom P slot 0 leaders cache with
          | err e => cases e
          | panic p =>
              rw [leaderForSlot_overflow hlookup hfetch hrun] at h
              cases h
          | ok filled =>
              rw [leaderForSlot_filled hlookup hfetch hrun] at h
              obtain ⟨rfl, hanswer⟩ := Prod.mk.inj (Exec.ok.inj h)
              exact hanswer

/-- A miss whose fetch succeeds: the window is written, the excess evicted,
and the slot looked up in what is left. -/
theorem leaderForSlot_fetched (hfollows : FollowsSchedule schedule fetchWindow)
    {leaders : List (Bytes 32)} (h : cache.lookup slot = none)
    (hfetch : fetchWindow slot batchSize = .ok leaders) :
    ∃ filled, Filled schedule cache slot leaders.length filled ∧
      leaderForSlot P fetchWindow slot cache =
        .ok (evict maxCacheEntries filled, (evict maxCacheEntries filled).lookup slot) := by
  obtain ⟨hfits, hleaders⟩ := hfollows slot leaders hfetch
  obtain ⟨filled, hrun, hlookup⟩ := insertFrom_eq_ok P slot leaders 0 cache (by omega)
  refine ⟨filled, ⟨hfits, ?_⟩, ?_⟩
  · intro k
    rw [hlookup, Nat.add_zero, hleaders, windowAt_schedule (by simpa using hfits),
      List.length_map, List.length_range]
    split
    · rfl
    · rfl
  · unfold leaderForSlot
    rw [h]
    show (fillWindow P fetchWindow slot cache >>= _) = _
    unfold fillWindow
    rw [hfetch]
    show ((insertFrom P slot 0 leaders cache >>= _) >>= _) = _
    rw [hrun]
    rfl

/-- **Found again.** The slot just fetched survives its own eviction exactly
when the window and the entries above it fit the bound together. -/
theorem leaderForSlot_fetched_iff (hfollows : FollowsSchedule schedule fetchWindow)
    {leaders : List (Bytes 32)} (h : cache.lookup slot = none)
    (hfetch : fetchWindow slot batchSize = .ok leaders) (hne : leaders ≠ []) :
    ∃ cache' answer, leaderForSlot P fetchWindow slot cache = .ok (cache', answer) ∧
      answer = if leaders.length +
            (cache.keys.filter fun k => slot.toNat + leaders.length ≤ k.toNat).card ≤
              maxCacheEntries
          then some (schedule slot) else none := by
  obtain ⟨filled, hfilled, hrun⟩ := leaderForSlot_fetched (P := P) hfollows h hfetch
  refine ⟨_, _, hrun, ?_⟩
  have hpos : 0 < leaders.length := List.length_pos_of_ne_nil hne
  have hslot : slot ∈ window slot leaders.length :=
    (mem_window hfilled.fits).mpr ⟨le_rfl, by omega⟩
  have hmem : slot ∈ filled.keys := by
    rw [hfilled.keys_eq]
    exact Finset.mem_union_left _ hslot
  have hkept : slot ∈ (evict maxCacheEntries filled).keys ↔ leaders.length +
      (cache.keys.filter fun k => slot.toNat + leaders.length ≤ k.toNat).card ≤
        maxCacheEntries := by
    rw [mem_keys_evict, hfilled.card_from]
    exact ⟨fun hk => hk.2, fun hcard => ⟨hmem, hcard⟩⟩
  split
  · rename_i hcard
    rw [lookup_evict (hkept.mpr hcard), hfilled.lookup_eq, if_pos hslot]
  · rename_i hcard
    rw [Finmap.lookup_eq_none, ← Finmap.mem_keys]
    exact fun hk => hcard (hkept.mp hk)

end Query

/-! ## Runs -/

/-- What every query keeps: entries are the schedule's, and the bound holds. -/
structure Sound (schedule : UInt64 → Bytes 32) (cache : Cache) : Prop where
  scheduled : ∀ {k : UInt64} {pk : Bytes 32}, cache.lookup k = some pk → pk = schedule k
  bounded : cache.keys.card ≤ maxCacheEntries

theorem sound_empty : Sound schedule ∅ where
  scheduled := by
    intro k pk h
    rw [Finmap.lookup_empty] at h
    cases h
  bounded := by
    rw [Finmap.keys_empty, Finset.card_empty]
    exact Nat.zero_le _

namespace Sound

variable {cache : Cache}

theorem evict {filled : Cache} {start : UInt64} {n : ℕ} (hs : Sound schedule cache)
    (hfilled : Filled schedule cache start n filled) :
    Sound schedule (evict maxCacheEntries filled) where
  scheduled := by
    intro k pk h
    have h := lookup_of_lookup_evict h
    rw [hfilled.lookup_eq] at h
    split at h
    · exact (Option.some.inj h).symm
    · exact hs.scheduled h
  bounded := card_evict_le _ _

/-- One query, whatever the RPC does within the schedule. -/
theorem query (hs : Sound schedule cache) {q : Query} (hq : q.Follows schedule) :
    ∃ cache' answer, leaderForSlot P q.fetchWindow q.slot cache = .ok (cache', answer) ∧
      Sound schedule cache' ∧ ∀ pk, answer = some pk → pk = schedule q.slot := by
  cases hlookup : cache.lookup q.slot with
  | some pk =>
      refine ⟨_, _, leaderForSlot_cached hlookup, hs, ?_⟩
      intro pk' h
      cases h
      exact hs.scheduled hlookup
  | none =>
      cases hfetch : q.fetchWindow q.slot batchSize with
      | error e =>
          refine ⟨_, _, leaderForSlot_failed hlookup hfetch, hs, ?_⟩
          intro pk h
          cases h
      | ok leaders =>
          obtain ⟨filled, hfilled, hrun⟩ := leaderForSlot_fetched (P := P) hq hlookup hfetch
          have hs' := hs.evict hfilled
          exact ⟨_, _, hrun, hs', fun pk h => hs'.scheduled h⟩

theorem queryAll {qs : List Query} (hs : Sound schedule cache)
    (h : ∀ q ∈ qs, q.Follows schedule) :
    ∃ cache' answers, queryAll P cache qs = .ok (cache', answers) ∧ Sound schedule cache' ∧
      List.Forall₂ (fun (q : Query) answer => ∀ pk, answer = some pk → pk = schedule q.slot)
        qs answers := by
  induction qs generalizing cache with
  | nil => exact ⟨cache, [], rfl, hs, List.Forall₂.nil⟩
  | cons q qs ih =>
      obtain ⟨c, answer, hq, hs, hanswer⟩ := hs.query (P := P) (h q List.mem_cons_self)
      obtain ⟨c', answers, hqs, hs, hanswers⟩ :=
        ih hs fun q' hq' => h q' (List.mem_cons_of_mem q hq')
      refine ⟨c', answer :: answers, ?_, hs, List.Forall₂.cons hanswer hanswers⟩
      show (leaderForSlot P q.fetchWindow q.slot cache >>= _) = _
      rw [hq, Exec.ok_bind]
      show (HeliusLeaderResolver.queryAll P c qs >>= _) = _
      rw [hqs]
      rfl

end Sound

/-- **The cache never lies.** After every sequence of queries each entry and
each answer is the schedule's, the bound holds, and a query whose fetch fails
leaves the cache as it was. -/
theorem cache_follows_schedule (P : Profile) (schedule : UInt64 → Bytes 32) (qs : List Query)
    (h : ∀ q ∈ qs, q.Follows schedule) :
    ∃ cache answers, queryAll P ∅ qs = .ok (cache, answers) ∧
      (∀ slot pk, cache.lookup slot = some pk → pk = schedule slot) ∧
      List.Forall₂ (fun (q : Query) answer => ∀ pk, answer = some pk → pk = schedule q.slot)
        qs answers ∧
      cache.keys.card ≤ maxCacheEntries ∧
      ∀ (q : Query) (e : String), q.fetchWindow q.slot batchSize = .error e →
        ∃ answer, leaderForSlot P q.fetchWindow q.slot cache = .ok (cache, answer) := by
  obtain ⟨cache, answers, hrun, hs, hanswers⟩ := sound_empty.queryAll (P := P) h
  refine ⟨cache, answers, hrun, fun slot pk => hs.scheduled, hanswers, hs.bounded, ?_⟩
  intro q e hfetch
  cases hlookup : cache.lookup q.slot with
  | some pk => exact ⟨_, leaderForSlot_cached hlookup⟩
  | none => exact ⟨_, leaderForSlot_failed hlookup hfetch⟩

/-- An RPC that knows the whole schedule. -/
def fullWindow (schedule : UInt64 → Bytes 32) : FetchWindow := fun start count =>
  .ok ((List.range (min count.toNat (2 ^ 64 - start.toNat))).map fun i =>
    schedule (.ofNat (start.toNat + i)))

theorem fullWindow_follows : FollowsSchedule schedule (fullWindow schedule) := by
  intro start leaders h
  have hlt := start.toNat_lt
  cases h
  rw [List.length_map, List.length_range]
  exact ⟨by omega, rfl⟩

/-- Slot `s` is led by the key whose first byte is `s mod 256`. -/
def sampleSchedule (s : UInt64) : Bytes 32 := asArray 32 (s.toUInt8 :: List.replicate 31 0)

theorem cache_follows_schedule_retried : ∃ cache answers,
    queryAll ⟨true⟩ ∅ [⟨7, fun _ _ => .error "rpc error: null"⟩, ⟨7, fullWindow sampleSchedule⟩,
      ⟨8, fun _ _ => .error "rpc transport: timeout"⟩] = .ok (cache, answers) ∧
      (∀ slot pk, cache.lookup slot = some pk → pk = sampleSchedule slot) ∧
      cache.keys.card ≤ maxCacheEntries := by
  obtain ⟨cache, answers, hrun, hentries, _, hbound, _⟩ :=
    cache_follows_schedule ⟨true⟩ sampleSchedule
      [⟨7, fun _ _ => .error "rpc error: null"⟩, ⟨7, fullWindow sampleSchedule⟩,
        ⟨8, fun _ _ => .error "rpc transport: timeout"⟩]
      (by
        intro q hq
        simp only [List.mem_cons, List.not_mem_nil, or_false] at hq
        rcases hq with rfl | rfl | rfl
        · intro start leaders h
          cases h
        · exact fullWindow_follows
        · intro start leaders h
          cases h)
  exact ⟨cache, answers, hrun, hentries, hbound⟩

/-! ## Misses that stay misses -/

/-- The queried slot is cached, or what its fetch returns fits the bound
together with the entries above it. -/
def Query.Fits (q : Query) (cache : Cache) : Prop :=
  (cache.lookup q.slot).isSome = true ∨
    ∃ leaders, q.fetchWindow q.slot batchSize = .ok leaders ∧
      leaders.length +
        (cache.keys.filter fun k => q.slot.toNat + leaders.length ≤ k.toNat).card ≤
          maxCacheEntries

/-- **What was fetched is answered exactly when it fits.** -/
theorem answered_iff_fits (P : Profile) (schedule : UInt64 → Bytes 32) (qs : List Query)
    (h : ∀ q ∈ qs, q.Follows schedule) :
    ∃ cache answers, queryAll P ∅ qs = .ok (cache, answers) ∧
      ∀ q : Query, q.Follows schedule →
        ((cache.lookup q.slot).isSome = true ∨
          ∃ leaders, q.fetchWindow q.slot batchSize = .ok leaders ∧ leaders ≠ []) →
        ∃ cache' answer, leaderForSlot P q.fetchWindow q.slot cache = .ok (cache', answer) ∧
          (answer = some (schedule q.slot) ↔ q.Fits cache) := by
  obtain ⟨cache, answers, hrun, hs, _⟩ := sound_empty.queryAll (P := P) h
  refine ⟨cache, answers, hrun, ?_⟩
  intro q hq hanswerable
  cases hlookup : cache.lookup q.slot with
  | some pk =>
      have hfits : q.Fits cache := Or.inl (by rw [hlookup]; rfl)
      refine ⟨_, _, leaderForSlot_cached hlookup, ?_⟩
      rw [hs.scheduled hlookup]
      exact ⟨fun _ => hfits, fun _ => rfl⟩
  | none =>
      rw [hlookup] at hanswerable
      rcases hanswerable with hsome | ⟨leaders, hfetch, hne⟩
      · cases hsome
      obtain ⟨cache', answer, hrun', hanswer⟩ :=
        leaderForSlot_fetched_iff (P := P) hq hlookup hfetch hne
      refine ⟨cache', answer, hrun', ?_⟩
      rw [hanswer]
      unfold Query.Fits
      rw [hlookup]
      constructor
      · intro hsome
        split at hsome
        · rename_i hcard
          exact Or.inr ⟨leaders, hfetch, hcard⟩
        · cases hsome
      · rintro (hsome | ⟨leaders', hfetch', hcard⟩)
        · cases hsome
        · rw [hfetch] at hfetch'
          cases hfetch'
          rw [if_pos hcard]

theorem answered_iff_fits_first : ∃ cache answers,
    queryAll ⟨true⟩ ∅ [⟨0, fullWindow sampleSchedule⟩] = .ok (cache, answers) ∧
      ∃ cache' answer,
        leaderForSlot ⟨true⟩ (fullWindow sampleSchedule) 5000 cache = .ok (cache', answer) ∧
          (answer = some (sampleSchedule 5000) ↔
            Query.Fits ⟨5000, fullWindow sampleSchedule⟩ cache) := by
  obtain ⟨cache, answers, hrun, hnext⟩ :=
    answered_iff_fits ⟨true⟩ sampleSchedule [⟨0, fullWindow sampleSchedule⟩]
      (by
        intro q hq
        rw [List.mem_singleton] at hq
        subst hq
        exact fullWindow_follows)
  refine ⟨cache, answers, hrun, hnext ⟨5000, _⟩ fullWindow_follows (Or.inr ⟨_, rfl, ?_⟩)⟩
  intro h
  have h := congrArg List.length h
  rw [List.length_map, List.length_range] at h
  exact absurd h (by decide)

/-! A cache filled by a hundred windows side by side, none of them below slot 1000. -/

def ascending (m : ℕ) : List Query :=
  (List.range m).map fun k => ⟨.ofNat (1000 * (k + 1)), fullWindow sampleSchedule⟩

theorem fullWindow_eq {start : UInt64} (h : start.toNat + 1000 ≤ 2 ^ 64) :
    fullWindow schedule start batchSize =
      .ok ((List.range 1000).map fun i => schedule (.ofNat (start.toNat + i))) := by
  have hcount : min batchSize.toNat (2 ^ 64 - start.toNat) = 1000 := by
    rw [show batchSize.toNat = 1000 from rfl]
    omega
  rw [fullWindow, hcount]

/-- The first `m` windows, as one. -/
theorem mem_ascending_window {m : ℕ} (hm : m ≤ 100) {k : UInt64} :
    k ∈ window 1000 (1000 * m) ↔ 1000 ≤ k.toNat ∧ k.toNat < 1000 + 1000 * m := by
  have hbase : (1000 : UInt64).toNat = 1000 := rfl
  rw [mem_window (by rw [hbase]; omega), hbase]

theorem card_ascending_window {m : ℕ} (hm : m ≤ 100) :
    (window 1000 (1000 * m)).card = 1000 * m := by
  have hbase : (1000 : UInt64).toNat = 1000 := rfl
  exact card_window (by rw [hbase]; omega)

theorem queryAll_ascending {m : ℕ} (hm : m ≤ 100) :
    ∃ cache answers, queryAll P ∅ (ascending m) = .ok (cache, answers) ∧
      cache.keys = window 1000 (1000 * m) := by
  induction m with
  | zero => exact ⟨∅, [], rfl, rfl⟩
  | succ m ih =>
      obtain ⟨cache, answers, hrun, hkeys⟩ := ih (by omega)
      have hslot : (UInt64.ofNat (1000 * (m + 1))).toNat = 1000 * (m + 1) :=
        toNat_ofNat (by omega)
      -- the next slot is just above the windows written so far
      have hmiss : cache.lookup (UInt64.ofNat (1000 * (m + 1))) = none := by
        rw [Finmap.lookup_eq_none, ← Finmap.mem_keys, hkeys,
          mem_ascending_window (by omega), hslot]
        omega
      have hfetch : fullWindow sampleSchedule (UInt64.ofNat (1000 * (m + 1))) batchSize = .ok _ :=
        fullWindow_eq (by rw [hslot]; omega)
      obtain ⟨filled, hfilled, hquery⟩ :=
        leaderForSlot_fetched (P := P) fullWindow_follows hmiss hfetch
      rw [List.length_map, List.length_range] at hfilled
      have hunion : filled.keys = window 1000 (1000 * (m + 1)) := by
        rw [hfilled.keys_eq, hkeys]
        ext k
        rw [Finset.mem_union, mem_window (by rw [hslot]; omega),
          mem_ascending_window (by omega), mem_ascending_window hm, hslot]
        omega
      have hcard : filled.keys.card ≤ maxCacheEntries := by
        rw [hunion, card_ascending_window hm]
        show 1000 * (m + 1) ≤ 100000
        omega
      rw [evict_of_card_le hcard] at hquery
      refine ⟨filled, answers ++ [filled.lookup (UInt64.ofNat (1000 * (m + 1)))], ?_, hunion⟩
      rw [ascending, List.range_succ, List.map_append]
      apply queryAll_append hrun
      show (leaderForSlot P _ _ cache >>= _) = _
      rw [hquery]
      rfl

/-- The window fetched for slot 0 is evicted before it is looked up. -/
theorem fetched_window_dropped :
    (∀ q ∈ ascending 100, q.Follows sampleSchedule) ∧
      FollowsSchedule sampleSchedule (fullWindow sampleSchedule) ∧
      (∃ leaders, fullWindow sampleSchedule 0 batchSize = .ok leaders ∧ leaders.length = 1000) ∧
      ∃ cache answers cache',
        queryAll ⟨true⟩ ∅ (ascending 100) = .ok (cache, answers) ∧
          leaderForSlot ⟨true⟩ (fullWindow sampleSchedule) 0 cache = .ok (cache', none) := by
  refine ⟨?_, fullWindow_follows, ?_, ?_⟩
  · intro q hq
    obtain ⟨k, _, rfl⟩ := List.mem_map.mp hq
    exact fullWindow_follows
  · refine ⟨_, fullWindow_eq (by decide), ?_⟩
    rw [List.length_map, List.length_range]
  · obtain ⟨cache, answers, hrun, hkeys⟩ := queryAll_ascending (P := ⟨true⟩) (le_refl 100)
    have hmiss : cache.lookup 0 = none := by
      rw [Finmap.lookup_eq_none, ← Finmap.mem_keys, hkeys, mem_ascending_window (le_refl 100)]
      rintro ⟨hle, _⟩
      exact absurd hle (by decide)
    have hne : (List.range 1000).map (fun i => sampleSchedule (.ofNat ((0 : UInt64).toNat + i)))
        ≠ [] := by
      intro h
      have h := congrArg List.length h
      rw [List.length_map, List.length_range] at h
      exact absurd h (by decide)
    obtain ⟨cache', answer, hquery, hanswer⟩ := leaderForSlot_fetched_iff (P := ⟨true⟩)
      fullWindow_follows hmiss (fullWindow_eq (by decide)) hne
    -- the full cache lies above the window, so the window alone is over the bound
    have habove :
        (cache.keys.filter fun k => (0 : UInt64).toNat + 1000 ≤ k.toNat) = cache.keys := by
      rw [Finset.filter_eq_self]
      intro k hk
      rw [hkeys, mem_ascending_window (le_refl 100)] at hk
      exact hk.1
    have hover : ¬ 1000 + (cache.keys.filter fun k => (0 : UInt64).toNat + 1000 ≤ k.toNat).card ≤
        maxCacheEntries := by
      rw [habove, hkeys, card_ascending_window (le_refl 100)]
      decide
    rw [List.length_map, List.length_range, if_neg hover] at hanswer
    subst hanswer
    exact ⟨cache, answers, cache', hrun, hquery⟩

end Lattica.Listener.HeliusLeaderResolver
