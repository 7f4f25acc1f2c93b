import Lattica.Foundation.Base58
import Lattica.Foundation.Json
import Lattica.Listener.Resolving

/-!
# The leader RPC

`fetch_window` of `crates/listener/src/leader.rs` takes a JSON-RPC response
apart; `parse_resolver` of `crates/listener/src/main.rs` reads the resolver off
the command line. Both go through base58, which is a parameter.
-/

namespace Lattica.Listener

open Foundation

/-- `bs58::decode(s).into_vec()` and `bs58::encode(bytes).into_string()`. -/
structure Bs58 where
  decode : String → Except String (List UInt8)
  encode : List UInt8 → String

/-- What is encoded is decoded. -/
def Bs58.RoundTrips (E : Bs58) : Prop := ∀ bytes, E.decode (E.encode bytes) = .ok bytes

/-- A codec on characters, as one on texts. -/
def Bs58.ofChars (decode : List Char → Option (List UInt8)) (encode : List UInt8 → List Char) :
    Bs58 where
  decode s :=
    match decode s.toList with
    | some bytes => .ok bytes
    | none => .error "provided string contained invalid character"
  encode bytes := String.ofList (encode bytes)

theorem Bs58.ofChars_roundTrips {decode : List Char → Option (List UInt8)}
    {encode : List UInt8 → List Char} (h : ∀ bytes, decode (encode bytes) = some bytes) :
    (Bs58.ofChars decode encode).RoundTrips := by
  intro bytes
  unfold Bs58.ofChars
  dsimp only
  rw [String.toList_ofList, h]

/-- The crate, up to the texts of its errors. -/
def referenceBs58 : Bs58 := .ofChars Foundation.Base58.decode Foundation.Base58.encode

theorem referenceBs58_roundTrips : referenceBs58.RoundTrips :=
  Bs58.ofChars_roundTrips Foundation.Base58.decode_encode

theorem referenceBs58_encode (bytes : List UInt8) :
    referenceBs58.encode bytes = String.ofList (Foundation.Base58.encode bytes) := rfl

namespace HeliusLeaderResolver

/-- The endpoint and the client that talks to it. -/
structure LeaderNode where
  /-- A `getSlotLeaders` request: the transport may fail, and the body may not be JSON. -/
  getSlotLeaders : UInt64 → UInt64 → Except String (Except String Json)
  /-- `Display` of a `Value`. -/
  display : Json → String

/-- The body of the loop over the array. -/
def leaderOf (E : Bs58) (v : Json) : Except String (Bytes 32) :=
  match v.asStr with
  | none => .error "leader not string"
  | some s =>
      match E.decode s with
      | .error e => .error ("base58: " ++ e)
      | .ok bytes =>
          if bytes.length ≠ 32 then .error "leader pubkey not 32 bytes"
          else .ok (asArray 32 bytes)

def fetchWindow (E : Bs58) (N : LeaderNode) : FetchWindow := fun start count =>
  match N.getSlotLeaders start count with
  | .error e => .error ("rpc transport: " ++ e)
  | .ok (.error e) => .error ("rpc parse: " ++ e)
  | .ok (.ok resp) =>
      match resp.get? "error" with
      | some err => .error ("rpc error: " ++ N.display err)
      | none =>
          match (resp.member "result").asArray with
          | none => .error "result is not array"
          | some arr => arr.mapM (leaderOf E)

section FetchWindow

variable {E : Bs58} {N : LeaderNode} {start count : UInt64}

theorem leaderOf_eq_ok {v : Json} {pk : Bytes 32} : leaderOf E v = .ok pk ↔
    ∃ s, v = .string s ∧ E.decode s = .ok pk.1 := by
  unfold leaderOf
  cases hs : v.asStr with
  | none =>
      constructor
      · intro h
        cases h
      · rintro ⟨s, rfl, _⟩
        cases hs
  | some s =>
      rw [Json.asStr_eq_some_iff] at hs
      subst hs
      constructor
      · intro h
        refine ⟨s, rfl, ?_⟩
        cases hdecode : E.decode s with
        | error e =>
            simp only [hdecode] at h
            cases h
        | ok bytes =>
            simp only [hdecode] at h
            split at h
            · cases h
            · next hlen =>
                cases h
                rw [asArray_val (not_not.mp hlen)]
      · rintro ⟨s', heq, hdecode⟩
        cases heq
        simp only [hdecode]
        rw [if_neg (not_not.mpr pk.2), asArray_self]

theorem fetchWindow_eq_ok {leaders : List (Bytes 32)} : fetchWindow E N start count = .ok leaders ↔
    ∃ resp arr, N.getSlotLeaders start count = .ok (.ok resp) ∧ resp.get? "error" = none ∧
      resp.member "result" = .array arr ∧
      List.Forall₂ (fun v (pk : Bytes 32) => ∃ s, v = .string s ∧ E.decode s = .ok pk.1)
        arr leaders := by
  simp only [← leaderOf_eq_ok, ← Exec.exceptMapM_eq_ok]
  unfold fetchWindow
  constructor
  · intro h
    split at h
    · cases h
    · cases h
    · next resp hpost =>
        split at h
        · cases h
        · next herror =>
            split at h
            · cases h
            · next arr harr =>
                exact ⟨resp, arr, hpost, herror, Json.asArray_eq_some_iff.mp harr, h⟩
  · rintro ⟨resp, arr, hpost, herror, harr, h⟩
    simp only [hpost, herror, Json.asArray_eq_some_iff.mpr harr]
    exact h

end FetchWindow

/-! ## An honest node -/

/-- A response without an error, with these leaders. -/
structure Yields (E : Bs58) (resp : Json) (leaders : List (Bytes 32)) : Prop where
  no_error : resp.get? "error" = none
  result : resp.member "result" = .array (leaders.map fun pk => .string (E.encode pk.1))

/-- A node that responds to a request with an error or with leaders of the schedule. -/
def LeaderNode.Honest (E : Bs58) (schedule : UInt64 → Bytes 32) (N : LeaderNode) : Prop :=
  ∀ start resp, N.getSlotLeaders start batchSize = .ok (.ok resp) →
    (∃ err, resp.get? "error" = some err) ∨
    ∃ n, start.toNat + n ≤ 2 ^ 64 ∧
      Yields E resp ((List.range n).map fun i => schedule (.ofNat (start.toNat + i)))

section Honest

variable {E : Bs58} {N : LeaderNode} {schedule : UInt64 → Bytes 32}

theorem fetchWindow_response (hE : E.RoundTrips) {start count : UInt64} {resp : Json}
    {leaders : List (Bytes 32)} (h : N.getSlotLeaders start count = .ok (.ok resp))
    (hresp : Yields E resp leaders) : fetchWindow E N start count = .ok leaders := by
  rw [fetchWindow_eq_ok]
  refine ⟨resp, _, h, hresp.no_error, hresp.result, ?_⟩
  rw [List.forall₂_map_left_iff, List.forall₂_same]
  intro pk _
  exact ⟨_, rfl, hE pk.1⟩

theorem LeaderNode.Honest.follows (hN : N.Honest E schedule) (hE : E.RoundTrips) :
    FollowsSchedule schedule (fetchWindow E N) := by
  intro start leaders h
  obtain ⟨resp, arr, hpost, herror, _, _⟩ := fetchWindow_eq_ok.mp h
  rcases hN start resp hpost with ⟨err, herr⟩ | ⟨n, hfit, hresp⟩
  · rw [herror] at herr
    cases herr
  · rw [fetchWindow_response hE hpost hresp] at h
    cases h
    rw [List.length_map, List.length_range]
    exact ⟨hfit, rfl⟩

/-- A node that always responds with leaders, no more than it is asked for. -/
def LeaderNode.Serves (E : Bs58) (N : LeaderNode) : Prop :=
  ∀ start, ∃ resp leaders, N.getSlotLeaders start batchSize = .ok (.ok resp) ∧
    Yields E resp leaders ∧ leaders ≠ [] ∧ leaders.length ≤ batchSize.toNat

theorem LeaderNode.Serves.answering (hN : N.Serves E) (hE : E.RoundTrips) :
    Answering (fetchWindow E N) := by
  intro start
  obtain ⟨resp, leaders, hpost, hresp, hne, hlength⟩ := hN start
  exact ⟨leaders, fetchWindow_response hE hpost hresp, hne, hlength⟩

/-- One call of `leader_for_slot`, with the node as it is at that moment. -/
abbrev NodeCall : Type := UInt64 × LeaderNode

def NodeCall.query (E : Bs58) (c : NodeCall) : Query := ⟨c.1, fetchWindow E c.2⟩

/-- The slots that are asked for. -/
def slotsAsked (calls : List NodeCall) : Finset UInt64 := (calls.map Prod.fst).toFinset

theorem queryAll_room {P : Profile} (hE : E.RoundTrips) {calls : List NodeCall}
    (hcalls : ∀ c ∈ calls, c.2.Honest E schedule ∧ c.2.Serves E) {slots : Finset UInt64}
    {cache : Cache} (hroom : Room slots cache) (hs : Sound schedule cache)
    (hcard : (slotsAsked calls ∪ slots).card ≤ 100) :
    ∃ cache', queryAll P cache (calls.map (NodeCall.query E)) =
      .ok (cache', calls.map fun c => some (schedule c.1)) := by
  induction calls generalizing slots cache with
  | nil => exact ⟨cache, rfl⟩
  | cons c calls ih =>
      obtain ⟨hhonest, hserves⟩ := hcalls c List.mem_cons_self
      have hunion : slotsAsked (c :: calls) ∪ slots = slotsAsked calls ∪ insert c.1 slots := by
        unfold slotsAsked
        rw [List.map_cons, List.toFinset_cons, Finset.insert_union, Finset.union_insert]
      rw [hunion] at hcard
      have hcard' : (insert c.1 slots).card ≤ 100 :=
        (Finset.card_le_card Finset.subset_union_right).trans hcard
      obtain ⟨cache', hquery, hroom', hs'⟩ :
          ∃ cache', leaderForSlot P (fetchWindow E c.2) c.1 cache =
            .ok (cache', some (schedule c.1)) ∧ Room (insert c.1 slots) cache' ∧
            Sound schedule cache' :=
        hroom.query hs (hhonest.follows hE) (hserves.answering hE) hcard'
      obtain ⟨cache'', hrest⟩ :=
        ih (fun c' hc' => hcalls c' (List.mem_cons_of_mem c hc')) hroom' hs' hcard
      refine ⟨cache'', ?_⟩
      show (leaderForSlot P (fetchWindow E c.2) c.1 cache >>= _) = _
      rw [hquery, Exec.ok_bind]
      show (queryAll P cache' _ >>= _) = _
      rw [hrest]
      rfl

/-- **From the JSON to the answer.** With honest nodes, a different one for each
query, every sequence of `leader_for_slot` calls returns, and each answer is
the scheduled leader or none; if they always respond, and at most a hundred
slots are asked for, every answer is the scheduled leader. -/
theorem honest_nodes_answer (P : Profile) (E : Bs58) (hE : E.RoundTrips)
    (schedule : UInt64 → Bytes 32) (calls : List NodeCall)
    (hcalls : ∀ c ∈ calls, c.2.Honest E schedule) :
    ∃ cache answers, queryAll P ∅ (calls.map (NodeCall.query E)) = .ok (cache, answers) ∧
      Sound schedule cache ∧
      List.Forall₂ (fun (c : NodeCall) answer => ∀ pk, answer = some pk → pk = schedule c.1)
        calls answers ∧
      ((∀ c ∈ calls, c.2.Serves E) → (slotsAsked calls).card ≤ 100 →
        answers = calls.map fun c => some (schedule c.1)) := by
  have hfollows : ∀ q ∈ calls.map (NodeCall.query E), q.Follows schedule := by
    intro q hq
    obtain ⟨c, hc, rfl⟩ := List.mem_map.mp hq
    exact (hcalls c hc).follows hE
  obtain ⟨cache, answers, hrun, hs, hanswers⟩ := sound_empty.queryAll (P := P) hfollows
  rw [List.forall₂_map_left_iff] at hanswers
  refine ⟨cache, answers, hrun, hs, hanswers, ?_⟩
  intro hserves hcard
  obtain ⟨cache', hall⟩ := queryAll_room (P := P) hE (fun c hc => ⟨hcalls c hc, hserves c hc⟩)
    room_empty sound_empty (by
      rw [Finset.union_empty]
      exact hcard)
  rw [hrun] at hall
  cases hall
  rfl

end Honest

/-- The response with these leaders, as the endpoint words it. -/
def response (E : Bs58) (leaders : List (Bytes 32)) : Json :=
  .object [("jsonrpc", .string "2.0"),
    ("result", .array (leaders.map fun pk => .string (E.encode pk.1))),
    ("id", .number (.posInt 1))]

theorem response_yields (E : Bs58) (leaders : List (Bytes 32)) :
    Yields E (response E leaders) leaders := ⟨rfl, rfl⟩

/-- A node that responds with the whole window. -/
def fullNode (schedule : UInt64 → Bytes 32) : LeaderNode where
  getSlotLeaders start count := (fullWindow schedule start count).map fun leaders =>
    .ok (response referenceBs58 leaders)
  display _ := ""

theorem fullNode_honest (schedule : UInt64 → Bytes 32) :
    (fullNode schedule).Honest referenceBs58 schedule := by
  intro start resp h
  cases h
  have hlt := start.toNat_lt
  refine Or.inr ⟨min batchSize.toNat (2 ^ 64 - start.toNat), ?_, response_yields _ _⟩
  omega

theorem fullNode_serves (schedule : UInt64 → Bytes 32) :
    (fullNode schedule).Serves referenceBs58 := by
  intro start
  have hlt := start.toNat_lt
  refine ⟨_, _, rfl, response_yields _ _, ?_, ?_⟩
  · intro hnil
    have hlength := congrArg List.length hnil
    rw [List.length_map, List.length_range] at hlength
    have hbatch : batchSize.toNat = 1000 := rfl
    have hnone : ([] : List (Bytes 32)).length = 0 := rfl
    omega
  · rw [List.length_map, List.length_range]
    exact min_le_left _ _

theorem honest_nodes_answer_full : ∃ cache, queryAll ⟨true⟩ ∅
    ([(7, fullNode sampleSchedule), (7, fullNode sampleSchedule),
      (.ofNat (2 ^ 64 - 1), fullNode sampleSchedule)].map (NodeCall.query referenceBs58)) =
    .ok (cache, [some (sampleSchedule 7), some (sampleSchedule 7),
      some (sampleSchedule (.ofNat (2 ^ 64 - 1)))]) := by
  obtain ⟨cache, answers, hrun, _, _, hanswers⟩ :=
    honest_nodes_answer ⟨true⟩ referenceBs58 referenceBs58_roundTrips sampleSchedule
      [(7, fullNode sampleSchedule), (7, fullNode sampleSchedule),
        (.ofNat (2 ^ 64 - 1), fullNode sampleSchedule)] (by
      intro c hc
      simp only [List.mem_cons, List.not_mem_nil, or_false] at hc
      rcases hc with rfl | rfl | rfl
      · exact fullNode_honest sampleSchedule
      · exact fullNode_honest sampleSchedule
      · exact fullNode_honest sampleSchedule)
  have hall := hanswers (by
      intro c hc
      simp only [List.mem_cons, List.not_mem_nil, or_false] at hc
      rcases hc with rfl | rfl | rfl
      · exact fullNode_serves sampleSchedule
      · exact fullNode_serves sampleSchedule
      · exact fullNode_serves sampleSchedule) (by
    apply (List.toFinset_card_le _).trans
    decide)
  subst hall
  exact ⟨cache, hrun⟩

/-! ## Where answers come from -/

/-- The response to the call, which is no error, names `pk` as the leader of `slot`. -/
def NodeCall.Names (E : Bs58) (c : NodeCall) (slot : UInt64) (pk : Bytes 32) : Prop :=
  ∃ resp arr i text, c.2.getSlotLeaders c.1 batchSize = .ok (.ok resp) ∧
    resp.get? "error" = none ∧ resp.member "result" = .array arr ∧
    arr[i]? = some (.string text) ∧ E.decode text = .ok pk.1 ∧ slot = .ofNat (c.1.toNat + i)

section Provenance

open Eviction

attribute [local instance] slotOrder

variable {E : Bs58} {P : Profile} {cache cache' filled : Cache} {done calls : List NodeCall}
  {c : NodeCall}

/-- The leaders fetched are named by the response. -/
theorem names_of_fetch {leaders : List (Bytes 32)} {i : ℕ} {pk : Bytes 32}
    (h : fetchWindow E c.2 c.1 batchSize = .ok leaders) (hi : leaders[i]? = some pk) :
    c.Names E (.ofNat (c.1.toNat + i)) pk := by
  obtain ⟨resp, arr, hpost, herror, harr, hall⟩ := fetchWindow_eq_ok.mp h
  obtain ⟨hlength, hget⟩ := List.forall₂_iff_get.mp hall
  obtain ⟨hlt, hi⟩ := List.getElem?_eq_some_iff.mp hi
  have hlt' : i < arr.length := hlength ▸ hlt
  obtain ⟨text, htext, hdecode⟩ := hget i hlt' hlt
  rw [List.get_eq_getElem] at htext
  rw [List.get_eq_getElem, hi] at hdecode
  exact ⟨resp, arr, i, text, hpost, herror, harr, List.getElem?_eq_some_iff.mpr ⟨hlt', htext⟩,
    hdecode, rfl⟩

/-- What the loop leaves for a slot was there, or is an entry of the list. -/
theorem lookup_insertFrom {start : UInt64} {leaders : List (Bytes 32)} {i : ℕ}
    (h : insertFrom P start i leaders cache = .ok filled) {slot : UInt64} {pk : Bytes 32}
    (hpk : filled.lookup slot = some pk) : cache.lookup slot = some pk ∨
      ∃ j, leaders[j]? = some pk ∧ slot = .ofNat (start.toNat + (i + j)) := by
  induction leaders generalizing i cache with
  | nil =>
      cases h
      exact Or.inl hpk
  | cons pk₀ leaders ih =>
      obtain ⟨n, hn, h⟩ := Exec.bind_eq_ok.mp h
      rcases ih h with hold | ⟨j, hj, hslot⟩
      · by_cases hsame : slot = .ofNat n
        · -- the entry written first
          rw [hsame, Finmap.lookup_insert] at hold
          refine Or.inr ⟨0, hold, ?_⟩
          rw [hsame, addU_eq_ok hn, UInt64.ofNat_mod_size, Nat.add_zero]
        · rw [Finmap.lookup_insert_of_ne _ hsame] at hold
          exact Or.inl hold
      · refine Or.inr ⟨j + 1, hj, ?_⟩
        rw [hslot, Nat.add_right_comm i 1 j, Nat.add_assoc i j 1]

/-- Every entry of the cache is named by the response to one of the calls. -/
def Sourced (E : Bs58) (calls : List NodeCall) (cache : Cache) : Prop :=
  ∀ slot pk, cache.lookup slot = some pk → ∃ c ∈ calls, c.Names E slot pk

/-- One more call: whatever it caches or answers, it or an earlier one was told. -/
theorem Sourced.call (h : Sourced E done cache) {answer : Option (Bytes 32)}
    (hrun : leaderForSlot P (fetchWindow E c.2) c.1 cache = .ok (cache', answer)) :
    Sourced E (done ++ [c]) cache' ∧
      ∀ pk, answer = some pk → ∃ c' ∈ done ++ [c], c'.Names E c.1 pk := by
  have hold : Sourced E (done ++ [c]) cache := by
    intro slot pk hpk
    obtain ⟨c', hc', hnames⟩ := h slot pk hpk
    exact ⟨c', List.mem_append_left _ hc', hnames⟩
  cases hlookup : cache.lookup c.1 with
  | some pk =>
      rw [leaderForSlot_cached hlookup] at hrun
      cases hrun
      exact ⟨hold, fun pk' hpk' => hold c.1 pk' (hlookup.trans hpk')⟩
  | none =>
      cases hfetch : fetchWindow E c.2 c.1 batchSize with
      | error e =>
          rw [leaderForSlot_failed hlookup hfetch] at hrun
          cases hrun
          refine ⟨hold, ?_⟩
          intro pk hpk
          cases hpk
      | ok leaders =>
          cases hfill : insertFrom P c.1 0 leaders cache with
          | err e => cases e
          | panic p =>
              rw [leaderForSlot_overflow hlookup hfetch hfill] at hrun
              cases hrun
          | ok filled =>
              rw [leaderForSlot_filled hlookup hfetch hfill] at hrun
              cases hrun
              have hnew : Sourced E (done ++ [c]) (evict maxCacheEntries filled) := by
                intro slot pk hpk
                rcases lookup_insertFrom hfill (lookup_of_lookup_evict hpk) with hpk | ⟨j, hj, rfl⟩
                · exact hold slot pk hpk
                · rw [Nat.zero_add]
                  exact ⟨c, List.mem_append_right _ (List.mem_singleton_self c),
                    names_of_fetch hfetch hj⟩
              exact ⟨hnew, fun pk hpk => hnew c.1 pk hpk⟩

/-- A run of calls, after those done. -/
theorem Sourced.queryAll (h : Sourced E done cache) {answers : List (Option (Bytes 32))}
    (hrun : queryAll P cache (calls.map (NodeCall.query E)) = .ok (cache', answers)) :
    Sourced E (done ++ calls) cache' ∧ ∀ k c pk, calls[k]? = some c →
      answers[k]? = some (some pk) → ∃ c' ∈ done ++ calls.take (k + 1), c'.Names E c.1 pk := by
  induction calls generalizing done cache answers with
  | nil =>
      cases hrun
      refine ⟨?_, ?_⟩
      · rw [List.append_nil]
        exact h
      · intro k c pk hk
        cases hk
  | cons d calls ih =>
      obtain ⟨⟨cache₁, answer⟩, hd, hrun⟩ := Exec.bind_eq_ok.mp hrun
      obtain ⟨⟨cache₂, rest⟩, hrest, hrun⟩ := Exec.bind_eq_ok.mp hrun
      cases hrun
      obtain ⟨hfirst, hanswer⟩ := h.call hd
      obtain ⟨hlast, hanswers⟩ := ih hfirst hrest
      rw [List.append_assoc, List.singleton_append] at hlast
      refine ⟨hlast, ?_⟩
      intro k c pk hk hpk
      cases k with
      | zero =>
          cases hk
          cases hpk
          exact hanswer pk rfl
      | succ k =>
          obtain ⟨c', hc', hnames⟩ := hanswers k c pk hk hpk
          rw [List.append_assoc, List.singleton_append] at hc'
          exact ⟨c', hc', hnames⟩

end Provenance

/-- **No leader is made up.** Whatever the nodes respond, a leader that a call is
answered is the one that the response to this call or to an earlier one names for
the slot asked for, and the cache holds nothing else. -/
theorem answers_come_from_responses (P : Profile) (E : Bs58) (calls : List NodeCall)
    (cache : Cache) (answers : List (Option (Bytes 32)))
    (h : queryAll P ∅ (calls.map (NodeCall.query E)) = .ok (cache, answers)) :
    (∀ k c pk, calls[k]? = some c → answers[k]? = some (some pk) →
      ∃ c' ∈ calls.take (k + 1), c'.Names E c.1 pk) ∧
    ∀ slot pk, cache.lookup slot = some pk → ∃ c ∈ calls, c.Names E slot pk := by
  have hempty : Sourced E [] ∅ := by
    intro slot pk hpk
    rw [Finmap.lookup_empty] at hpk
    cases hpk
  obtain ⟨hcache, hanswers⟩ := hempty.queryAll h
  exact ⟨hanswers, hcache⟩

/-- A node that fails every request. -/
def deadNode : LeaderNode where
  getSlotLeaders _ _ := .error "connection refused"
  display _ := ""

/-- A call to a dead node, answered from what another node responded before. -/
theorem answers_come_from_responses_dead : ∃ cache : Cache,
    queryAll ⟨true⟩ ∅ ([(7, fullNode sampleSchedule), (7, deadNode)].map
      (NodeCall.query referenceBs58)) =
        .ok (cache, [some (sampleSchedule 7), some (sampleSchedule 7)]) ∧
    ∃ c ∈ [(7, fullNode sampleSchedule), (7, deadNode)],
      NodeCall.Names referenceBs58 c 7 (sampleSchedule 7) := by
  obtain ⟨cache, hfirst, _, _⟩ : ∃ cache, leaderForSlot ⟨true⟩
      (fetchWindow referenceBs58 (fullNode sampleSchedule)) 7 ∅ =
        .ok (cache, some (sampleSchedule 7)) ∧ Room (insert 7 ∅) cache ∧
          Sound sampleSchedule cache := room_empty.query sound_empty
    ((fullNode_honest sampleSchedule).follows referenceBs58_roundTrips)
    ((fullNode_serves sampleSchedule).answering referenceBs58_roundTrips)
    (Finset.card_insert_le _ _ |>.trans (by decide))
  have hrun : queryAll ⟨true⟩ ∅ ([(7, fullNode sampleSchedule), (7, deadNode)].map
      (NodeCall.query referenceBs58)) =
        .ok (cache, [some (sampleSchedule 7), some (sampleSchedule 7)]) := by
    show (leaderForSlot ⟨true⟩ (fetchWindow referenceBs58 (fullNode sampleSchedule)) 7 ∅ >>= _) = _
    rw [hfirst, Exec.ok_bind]
    show ((leaderForSlot ⟨true⟩ (fetchWindow referenceBs58 deadNode) 7 cache >>= _) >>= _) = _
    rw [leaderForSlot_cached (lookup_of_answered hfirst)]
    rfl
  exact ⟨cache, hrun, (answers_come_from_responses _ _ _ _ _ hrun).2 7 _
    (lookup_of_answered hfirst)⟩

end HeliusLeaderResolver

/-! ## The resolver on the command line -/

inductive Resolver where
  | staticLeader (pk : Bytes 32)
  | helius (url : String)

def pubkeyFromB58 (E : Bs58) (s : String) : Option (Bytes 32) :=
  match E.decode s with
  | .error _ => none
  | .ok v => if v.length ≠ 32 then none else some (asArray 32 v)

/-- `str::strip_prefix`. -/
def stripPrefix (s pre : String) : Option String :=
  if pre.toList <+: s.toList then some (String.ofList (s.toList.drop pre.toList.length)) else none

def parseResolver (E : Bs58) (spec : String) : Option Resolver :=
  match stripPrefix spec "static:" with
  | some pkStr => (pubkeyFromB58 E pkStr).map .staticLeader
  | none =>
      match stripPrefix spec "helius:" with
      | some url => some (.helius url)
      | none =>
          if spec.utf8ByteSize = 44 ∧ (E.decode spec).isOk then
            (pubkeyFromB58 E spec).map .staticLeader
          else none

/-- Text and bytes are those of base 58 under its alphabet. -/
structure Bs58.Standard (E : Bs58) : Prop where
  encode : ∀ bytes, E.encode bytes = String.ofList (Foundation.Base58.encode bytes)
  decode : ∀ text bytes,
    E.decode text = .ok bytes ↔ Foundation.Base58.decode text.toList = some bytes

section StripPrefix

variable {s pre : String}

theorem stripPrefix_append : stripPrefix (pre ++ s) pre = some s := by
  unfold stripPrefix
  rw [String.toList_append, if_pos (List.prefix_append _ _), List.drop_left, String.ofList_toList]

theorem eq_append_of_stripPrefix {rest : String} (h : stripPrefix s pre = some rest) :
    s = pre ++ rest := by
  unfold stripPrefix at h
  split at h
  · next hprefix =>
      obtain ⟨t, ht⟩ := hprefix
      cases h
      apply String.toList_inj.mp
      rw [String.toList_append, String.toList_ofList, ← ht, List.drop_left]
  · cases h

theorem stripPrefix_eq_none {c : Char} (hc : c ∈ pre.toList) (h : c ∉ s.toList) :
    stripPrefix s pre = none := by
  unfold stripPrefix
  rw [if_neg]
  intro hstarts
  exact h (hstarts.subset hc)

end StripPrefix

theorem pubkeyFromB58_eq_some {E : Bs58} {s : String} {pk : Bytes 32} :
    pubkeyFromB58 E s = some pk ↔ E.decode s = .ok pk.1 := by
  unfold pubkeyFromB58
  cases hdecode : E.decode s with
  | error e =>
      constructor
      · intro h
        cases h
      · intro h
        cases h
  | ok v =>
      dsimp only
      constructor
      · intro h
        split at h
        · cases h
        · next hlen =>
            cases h
            rw [asArray_val (not_not.mp hlen)]
      · intro h
        cases h
        rw [if_neg (not_not.mpr pk.2), asArray_self]

/-- Text of one byte a character. -/
theorem utf8ByteSize_ofList {cs : List Char} (h : ∀ c ∈ cs, c.utf8Size = 1) :
    (String.ofList cs).utf8ByteSize = cs.length := by
  induction cs with
  | nil => rfl
  | cons c cs ih =>
      have hcons : String.ofList (c :: cs) = String.singleton c ++ String.ofList cs := by
        apply String.toList_inj.mp
        simp
      rw [hcons, String.utf8ByteSize_append, String.utf8ByteSize_singleton, h c List.mem_cons_self,
        ih fun d hd => h d (List.mem_cons_of_mem c hd), List.length_cons, Nat.add_comm]

section Standard

variable {E : Bs58}

/-- A key has one text. -/
theorem Bs58.Standard.decode_iff (hE : E.Standard) {text : String} {bytes : List UInt8} :
    E.decode text = .ok bytes ↔ text = E.encode bytes := by
  rw [hE.decode, hE.encode]
  constructor
  · intro h
    rw [Foundation.Base58.encode_of_decode h, String.ofList_toList]
  · rintro rfl
    rw [String.toList_ofList, Foundation.Base58.decode_encode]

theorem Bs58.Standard.roundTrips (hE : E.Standard) : E.RoundTrips :=
  fun _ => hE.decode_iff.mpr rfl

/-- Base58 text has no colon. -/
theorem Bs58.Standard.plain (hE : E.Standard) (bytes : List UInt8) :
    ':' ∉ (E.encode bytes).toList := by
  intro hcolon
  rw [hE.encode, String.toList_ofList] at hcolon
  exact absurd (Foundation.Base58.mem_alphabet_of_mem_encode ':' hcolon) (by decide)

theorem Bs58.Standard.utf8ByteSize_encode (hE : E.Standard) (bytes : List UInt8) :
    (E.encode bytes).utf8ByteSize = (Foundation.Base58.encode bytes).length := by
  have hall : Foundation.Base58.alphabet.all (fun c => c.utf8Size == 1) = true := by decide
  have hsize : ∀ c ∈ Foundation.Base58.alphabet, c.utf8Size = 1 := by simpa using hall
  rw [hE.encode]
  apply utf8ByteSize_ofList
  intro c hc
  exact hsize c (Foundation.Base58.mem_alphabet_of_mem_encode c hc)

theorem referenceBs58_standard : referenceBs58.Standard where
  encode := referenceBs58_encode
  decode text bytes := by
    unfold referenceBs58 Bs58.ofChars
    dsimp only
    split
    · next bytes' hdecode =>
        rw [hdecode]
        simp
    · next hdecode =>
        rw [hdecode]
        simp

theorem static_ne_helius (s t : String) : "static:" ++ s ≠ "helius:" ++ t := by
  intro h
  have hchars := congrArg String.toList h
  rw [String.toList_append, String.toList_append] at hchars
  simp at hchars

/-- The text of a key is neither an endpoint nor after a prefix. -/
theorem parseResolver_encode (hE : E.Standard) (pk : Bytes 32) :
    parseResolver E (E.encode pk.1) =
      if (Foundation.Base58.encode pk.1).length = 44 then some (.staticLeader pk) else none := by
  unfold parseResolver
  rw [stripPrefix_eq_none (c := ':') (by decide) (hE.plain pk.1)]
  dsimp only
  rw [stripPrefix_eq_none (c := ':') (by decide) (hE.plain pk.1), hE.roundTrips pk.1,
    pubkeyFromB58_eq_some.mpr (hE.roundTrips pk.1), hE.utf8ByteSize_encode]
  simp [Except.isOk, Except.toBool]

theorem parseResolver_static (text : String) :
    parseResolver E ("static:" ++ text) = (pubkeyFromB58 E text).map .staticLeader := by
  unfold parseResolver
  rw [stripPrefix_append]

theorem parseResolver_helius (url : String) :
    parseResolver E ("helius:" ++ url) = some (.helius url) := by
  have hstatic : stripPrefix ("helius:" ++ url) "static:" = none := by
    cases h : stripPrefix ("helius:" ++ url) "static:" with
    | none => rfl
    | some rest => exact absurd (eq_append_of_stripPrefix h).symm (static_ne_helius rest url)
  unfold parseResolver
  rw [hstatic]
  dsimp only
  rw [stripPrefix_append]

/-- A spec that is taken has a prefix, or is the text of a key. -/
theorem spec_of_parseResolver (hE : E.Standard) {spec : String} {r : Resolver}
    (h : parseResolver E spec = some r) :
    (∃ text, spec = "static:" ++ text) ∨ (∃ url, spec = "helius:" ++ url) ∨
      ∃ pk : Bytes 32, spec = E.encode pk.1 := by
  unfold parseResolver at h
  split at h
  · next text hstrip => exact Or.inl ⟨text, eq_append_of_stripPrefix hstrip⟩
  · split at h
    · next url hstrip => exact Or.inr (Or.inl ⟨url, eq_append_of_stripPrefix hstrip⟩)
    · split at h
      · obtain ⟨pk, hpk, _⟩ := Option.map_eq_some_iff.mp h
        exact Or.inr (Or.inr ⟨pk, hE.decode_iff.mp (pubkeyFromB58_eq_some.mp hpk)⟩)
      · cases h

/-- **Which specs name a key.** A static leader comes from the one base58 text of its
key after `static:`, or from that text alone, which the usage calls a shorthand, if
the key, read as a number, is large enough for a text of 44 characters. All else that
is taken is an endpoint after `helius:`. -/
theorem parse_resolver_iff (E : Bs58) (hE : E.Standard) (spec : String) :
    (∀ pk : Bytes 32, parseResolver E spec = some (.staticLeader pk) ↔
      spec = "static:" ++ E.encode pk.1 ∨
      spec = E.encode pk.1 ∧
        58 ^ (43 - Foundation.Base58.zeros pk.1) ≤ Foundation.Base58.number pk.1) ∧
    ∀ url, parseResolver E spec = some (.helius url) ↔ spec = "helius:" ++ url := by
  constructor
  · intro pk
    rw [← Foundation.Base58.length_encode_eq_iff pk.2]
    constructor
    · intro h
      rcases spec_of_parseResolver hE h with ⟨text, rfl⟩ | ⟨url, rfl⟩ | ⟨pk', rfl⟩
      · rw [parseResolver_static] at h
        obtain ⟨pk', hpk, heq⟩ := Option.map_eq_some_iff.mp h
        cases heq
        rw [hE.decode_iff.mp (pubkeyFromB58_eq_some.mp hpk)]
        exact Or.inl rfl
      · rw [parseResolver_helius] at h
        cases h
      · rw [parseResolver_encode hE] at h
        split at h
        · next hlength =>
            cases h
            exact Or.inr ⟨rfl, hlength⟩
        · cases h
    · rintro (rfl | ⟨rfl, hlength⟩)
      · rw [parseResolver_static, pubkeyFromB58_eq_some.mpr (hE.roundTrips pk.1)]
        rfl
      · rw [parseResolver_encode hE, if_pos hlength]
  · intro url
    constructor
    · intro h
      rcases spec_of_parseResolver hE h with ⟨text, rfl⟩ | ⟨url', rfl⟩ | ⟨pk, rfl⟩
      · rw [parseResolver_static] at h
        obtain ⟨_, _, heq⟩ := Option.map_eq_some_iff.mp h
        cases heq
      · rw [parseResolver_helius] at h
        cases h
        rfl
      · rw [parseResolver_encode hE] at h
        split at h
        · cases h
        · cases h
    · rintro rfl
      exact parseResolver_helius url

/-- The text of the largest key is taken alone, that of the zero key only after
`static:`. -/
theorem parse_resolver_iff_extremes :
    parseResolver referenceBs58 (referenceBs58.encode (List.replicate 32 255)) =
      some (.staticLeader ⟨List.replicate 32 255, rfl⟩) ∧
    parseResolver referenceBs58 ("static:" ++ referenceBs58.encode (List.replicate 32 0)) =
      some (.staticLeader ⟨List.replicate 32 0, rfl⟩) ∧
    parseResolver referenceBs58 (referenceBs58.encode (List.replicate 32 0)) ≠
      some (.staticLeader ⟨List.replicate 32 0, rfl⟩) := by
  have hE := referenceBs58_standard
  refine ⟨((parse_resolver_iff _ hE _).1 _).mpr (Or.inr ⟨rfl, by decide +kernel⟩),
    ((parse_resolver_iff _ hE _).1 _).mpr (Or.inl rfl), ?_⟩
  intro h
  rcases ((parse_resolver_iff _ hE _).1 _).mp h with htext | ⟨_, hlarge⟩
  · exact absurd (congrArg String.length htext) (by simp)
  · exact absurd hlarge (by decide +kernel)

end Standard

end Lattica.Listener
