import Lattica.Foundation.Hex
import Lattica.Foundation.Runs
import Lattica.Listener.LeaderRpc

/-!
# Listing leaders

`leaders` of `crates/cli/src/main.rs` prints the schedule of consecutive slots
as runs of one leader. The runs are maximal and cover the answer; a run that
ends with the last slot there is cannot be printed where overflow is checked.
-/

namespace Lattica.Cli

open Foundation Listener Listener.HeliusLeaderResolver

/-- `rpc`: the result of the response, or none where it exits with an error's code. -/
def rpc (answer : Except String (Except String Json)) : Exec Empty (Option Json) :=
  match answer with
  | .error _ => .panic .unwrap
  | .ok (.error _) => .panic .unwrap
  | .ok (.ok resp) =>
      match resp.get? "error" with
      | some _ => .ok none
      | none => .ok (some (resp.member "result"))

/-- The variables of the loop, and what is printed. -/
structure LeaderScan where
  prev : Option String
  runStart : ℕ
  printed : List (Run String)

/-- `if let Some(p) = prev { println!(..) }`, before position `i`. -/
def printRun (P : Profile) (start i : ℕ) (s : LeaderScan) : Exec Empty (List (Run String)) :=
  match s.prev with
  | some p => do
      let next ← addU P 64 start i
      let last ← subU P 64 next 1
      return s.printed ++ [⟨s.runStart, last, p⟩]
  | none => return s.printed

/-- `leader.as_str().unwrap()`. -/
def leaderText (v : Json) : Exec Empty String :=
  match v.asStr with
  | some leader => .ok leader
  | none => .panic .unwrap

/-- The body of the loop. -/
def scanLeader (P : Profile) (start : ℕ) (s : LeaderScan) (e : Json × ℕ) :
    Exec Empty LeaderScan := do
  let leader ← leaderText e.1
  if some leader ≠ s.prev then do
    let printed ← printRun P start e.2 s
    let runStart ← addU P 64 start e.2
    return ⟨some leader, runStart, printed⟩
  else return s

/-- The loop over the array, and the last line. -/
def printLeaders (P : Profile) (start : ℕ) (arr : List Json) : Exec Empty (List (Run String)) := do
  let s ← arr.zipIdx.foldlM (scanLeader P start) ⟨none, start, []⟩
  printRun P start arr.length s

/-- Where the command ends. -/
inductive LeadersOutcome where
  | invalidStart
  | invalidCount
  | rpcError
  | printed (lines : List (Run String))

def cmdLeaders (P : Profile) (N : LeaderNode) (startStr countStr : String) :
    Exec Empty LeadersOutcome :=
  match Decimal.parseU64 startStr with
  | none => .ok .invalidStart
  | some start =>
      match Decimal.parseU64 countStr with
      | none => .ok .invalidCount
      | some count =>
          if 1 ≤ count ∧ count ≤ 5000 then do
            match ← rpc (N.getSlotLeaders start count) with
            | none => return .rpcError
            | some v =>
                match v.asArray with
                | none => .panic .unwrap
                | some arr => do
                    let lines ← printLeaders P start.toNat arr
                    return .printed lines
          else .ok .invalidCount

/-! ## The loop -/

section Loop

variable {P : Profile} {start i : ℕ} {s s' : LeaderScan} {t p : String} {ts : List String}

theorem printRun_none (h : s.prev = none) : printRun P start i s = .ok s.printed := by
  unfold printRun
  rw [h]
  rfl

theorem printRun_eq (h : s.prev = some p) (hfit : start + (i + 1) < 2 ^ 64) :
    printRun P start (i + 1) s = .ok (s.printed ++ [⟨s.runStart, start + i, p⟩]) := by
  have hsub : (subU P 64 (start + (i + 1)) 1 : Exec Empty ℕ) = .ok (start + i) :=
    subU_eq (Nat.le_add_left 1 (start + i)) hfit
  unfold printRun
  rw [h]
  dsimp only
  rw [addU_eq hfit, Exec.ok_bind, hsub, Exec.ok_bind]
  rfl

/-- The leader before goes on: nothing changes. -/
theorem scanLeader_same (h : s.prev = some t) :
    scanLeader P start s (.string t, i) = .ok s := by
  unfold scanLeader
  show (if some t ≠ s.prev then _ else _) = _
  rw [if_neg (not_not.mpr h.symm)]
  rfl

/-- Another leader comes: the run before it is printed. -/
theorem scanLeader_change (h : s.prev ≠ some t) :
    scanLeader P start s (.string t, i) = (printRun P start i s >>= fun printed =>
      addU P 64 start i >>= fun runStart => .ok ⟨some t, runStart, printed⟩) := by
  unfold scanLeader
  show (if some t ≠ s.prev then _ else _) = _
  rw [if_pos h.symm]
  rfl

theorem scanLeader_prev (h : scanLeader P start s (.string t, i) = .ok s') :
    s'.prev = some t := by
  by_cases hsame : s.prev = some t
  · rw [scanLeader_same hsame] at h
    rw [← Exec.ok.inj h]
    exact hsame
  · rw [scanLeader_change hsame] at h
    obtain ⟨printed, _, h⟩ := Exec.bind_eq_ok.mp h
    obtain ⟨runStart, _, h⟩ := Exec.bind_eq_ok.mp h
    rw [← Exec.ok.inj h]

/-- The loop over the leaders that the response has. -/
def scanned (P : Profile) (start : ℕ) (ts : List String) : Exec Empty LeaderScan :=
  (ts.map Json.string).zipIdx.foldlM (scanLeader P start) ⟨none, start, []⟩

theorem scanned_snoc : scanned P start (ts ++ [t]) =
    (scanned P start ts >>= fun s => scanLeader P start s (.string t, ts.length)) := by
  unfold scanned
  rw [List.map_append, List.zipIdx_append, List.foldlM_append, List.length_map, Nat.zero_add]
  apply bind_congr
  intro s
  show (scanLeader P start s (.string t, ts.length) >>= pure) = _
  rw [bind_pure]

theorem scanned_prev (h : scanned P start ts = .ok s) : s.prev = ts.getLast? := by
  cases ts using List.reverseRecOn with
  | nil =>
      rw [← Exec.ok.inj h]
      rfl
  | append_singleton ts t =>
      rw [scanned_snoc] at h
      obtain ⟨s', _, h⟩ := Exec.bind_eq_ok.mp h
      rw [List.getLast?_concat]
      exact scanLeader_prev h

theorem exists_length (h : ts.getLast? = some p) : ∃ n, ts.length = n + 1 := by
  apply Nat.exists_eq_add_one_of_ne_zero
  intro hzero
  rw [List.length_eq_zero_iff.mp hzero] at h
  cases h

/-- What is printed, with the run that is open, are the runs of what was read. -/
def LeaderScan.Holds (start : ℕ) (ts : List String) (s : LeaderScan) : Prop :=
  (ts = [] → s.printed = []) ∧ ∀ n p, ts.length = n + 1 → s.prev = some p →
    Runs start ts (s.printed ++ [⟨s.runStart, start + n, p⟩])

/-- One more leader: the open run is extended, or closed and the next one opened. -/
theorem LeaderScan.Holds.step (hs : s.Holds start ts) (hprev : s.prev = ts.getLast?)
    (hfit : start + ts.length < 2 ^ 64) :
    ∃ s', scanLeader P start s (.string t, ts.length) = .ok s' ∧ s'.Holds start (ts ++ [t]) := by
  have hne : ts ++ [t] ≠ [] := List.append_ne_nil_of_right_ne_nil ts (List.cons_ne_nil t [])
  have hlength : (ts ++ [t]).length = ts.length + 1 := List.length_append
  cases hlast : ts.getLast? with
  | none =>
      have hts : ts = [] := List.getLast?_eq_none_iff.mp hlast
      subst hts
      rw [hlast] at hprev
      refine ⟨⟨some t, start, s.printed⟩, ?_, fun h => absurd h hne, ?_⟩
      · rw [scanLeader_change fun h => nomatch hprev.symm.trans h]
        rw [printRun_none hprev, Exec.ok_bind, addU_eq hfit]
        rfl
      · intro n p hn hp
        have hn0 : n = 0 := (Nat.succ.inj hn).symm
        subst hn0
        rw [← Option.some.inj hp, hs.1 rfl]
        exact Runs.single
  | some p =>
      rw [hlast] at hprev
      obtain ⟨n, hn⟩ := exists_length hlast
      have hruns := hs.2 n p hn hprev
      have hcount : ∀ m, (ts ++ [t]).length = m + 1 → m = n + 1 := by
        intro m hm
        rw [hlength, hn] at hm
        exact (Nat.succ.inj hm).symm
      by_cases hpt : p = t
      · subst hpt
        refine ⟨s, scanLeader_same hprev, fun h => absurd h hne, ?_⟩
        intro m q hm hq
        have hqp : p = q := Option.some.inj (hprev.symm.trans hq)
        rw [← hqp, hcount m hm]
        apply hruns.extend
        rw [hn, Nat.add_assoc]
      · rw [hn] at hfit ⊢
        refine ⟨⟨some t, start + (n + 1), s.printed ++ [⟨s.runStart, start + n, p⟩]⟩, ?_,
          fun h => absurd h hne, ?_⟩
        · rw [scanLeader_change fun h => hpt (Option.some.inj (hprev.symm.trans h)),
            printRun_eq hprev hfit, Exec.ok_bind, addU_eq hfit]
          rfl
        · intro m q hm hq
          rw [← Option.some.inj hq, hcount m hm, ← hn]
          exact hruns.opens hpt

/-- Within the slots there are, the loop gets through. -/
theorem scanned_holds (hfit : start + ts.length ≤ 2 ^ 64) :
    ∃ s, scanned P start ts = .ok s ∧ s.Holds start ts := by
  induction ts using List.reverseRecOn with
  | nil =>
      refine ⟨⟨none, start, []⟩, rfl, fun _ => rfl, ?_⟩
      intro n p hn
      cases hn
  | append_singleton ts t ih =>
      rw [List.length_append, List.length_singleton, ← Nat.add_assoc] at hfit
      obtain ⟨s, hscan, hs⟩ := ih ((Nat.le_succ _).trans hfit)
      obtain ⟨s', hstep, hs'⟩ := hs.step (scanned_prev hscan) (Nat.lt_of_succ_le hfit)
      refine ⟨s', ?_, hs'⟩
      rw [scanned_snoc, hscan, Exec.ok_bind]
      exact hstep

theorem printLeaders_strings : printLeaders P start (ts.map Json.string) =
    (scanned P start ts >>= printRun P start ts.length) := by
  unfold printLeaders
  rw [List.length_map]
  rfl

/-- What is printed are the maximal runs. -/
theorem printLeaders_runs (hfit : start + ts.length < 2 ^ 64) :
    ∃ runs, printLeaders P start (ts.map Json.string) = .ok runs ∧ Runs start ts runs := by
  obtain ⟨s, hscan, hs⟩ := @scanned_holds P start ts hfit.le
  rw [printLeaders_strings, hscan, Exec.ok_bind]
  have hprev := scanned_prev hscan
  cases hlast : ts.getLast? with
  | none =>
      have hts : ts = [] := List.getLast?_eq_none_iff.mp hlast
      subst hts
      refine ⟨s.printed, ?_, ?_⟩
      · exact printRun_none hprev
      · rw [hs.1 rfl]
        exact Runs.nil
  | some p =>
      rw [hlast] at hprev
      obtain ⟨n, hn⟩ := exists_length hlast
      rw [hn] at hfit ⊢
      exact ⟨_, printRun_eq hprev hfit, hs.2 n p hn hprev⟩

end Loop

/-! ## Panics -/

section Panics

variable {P : Profile} {start i : ℕ} {s : LeaderScan} {t p : String} {ts : List String}
  {arr : List Json}

theorem printRun_panics (h : s.prev = some p) (hP : P.overflowChecks = true)
    (hout : 2 ^ 64 ≤ start + i) : (printRun P start i s).IsPanic := by
  unfold printRun
  rw [h]
  dsimp only
  rw [Exec.bind_isPanic_iff]
  exact Or.inl (addU_isPanic_iff.mpr ⟨hP, hout⟩)

theorem not_isPanic_addU (hP : P.overflowChecks = false) (a b : ℕ) :
    ¬ (addU P 64 a b : Exec Empty ℕ).IsPanic := by
  rw [addU_isPanic_iff, hP]
  simp

theorem not_isPanic_printRun (hP : P.overflowChecks = false) :
    ¬ (printRun P start i s).IsPanic := by
  unfold printRun
  cases s.prev with
  | none => simp
  | some p =>
      dsimp only
      rw [Exec.bind_isPanic_iff]
      rintro (hadd | ⟨next, _, hrest⟩)
      · exact not_isPanic_addU hP start i hadd
      · rw [Exec.bind_isPanic_iff, subU, arith_isPanic_iff, hP] at hrest
        simp at hrest

theorem not_isPanic_scanned (hP : P.overflowChecks = false) :
    ¬ (scanned P start ts).IsPanic := by
  induction ts using List.reverseRecOn with
  | nil => exact Exec.not_isPanic_ok _
  | append_singleton ts t ih =>
      rw [scanned_snoc, Exec.bind_isPanic_iff]
      rintro (hscan | ⟨s, _, hstep⟩)
      · exact ih hscan
      · by_cases hsame : s.prev = some t
        · rw [scanLeader_same hsame] at hstep
          exact Exec.not_isPanic_ok _ hstep
        · rw [scanLeader_change hsame, Exec.bind_isPanic_iff] at hstep
          rcases hstep with hprint | ⟨printed, _, hstep⟩
          · exact not_isPanic_printRun hP hprint
          · rw [Exec.bind_isPanic_iff] at hstep
            rcases hstep with hadd | ⟨runStart, _, hok⟩
            · exact not_isPanic_addU hP _ _ hadd
            · exact Exec.not_isPanic_ok _ hok

/-- The end of the last run has to be counted from a slot that is still one. -/
theorem printLeaders_strings_isPanic_iff (hstart : start < 2 ^ 64) :
    (printLeaders P start (ts.map Json.string)).IsPanic ↔
      P.overflowChecks = true ∧ ts ≠ [] ∧ 2 ^ 64 ≤ start + ts.length := by
  constructor
  · intro hpanic
    have hout : ¬ start + ts.length < 2 ^ 64 := by
      intro hfit
      obtain ⟨runs, hruns, _⟩ := @printLeaders_runs P start ts hfit
      rw [hruns] at hpanic
      exact Exec.not_isPanic_ok _ hpanic
    refine ⟨?_, ?_, not_lt.mp hout⟩
    · cases hP : P.overflowChecks with
      | true => rfl
      | false =>
          rw [printLeaders_strings, Exec.bind_isPanic_iff] at hpanic
          rcases hpanic with hscan | ⟨s, _, hprint⟩
          · exact absurd hscan (not_isPanic_scanned hP)
          · exact absurd hprint (not_isPanic_printRun hP)
    · rintro rfl
      exact hout hstart
  · rintro ⟨hP, hne, hout⟩
    rw [printLeaders_strings, Exec.bind_isPanic_iff]
    by_cases hscan : (scanned P start ts).IsPanic
    · exact Or.inl hscan
    · right
      obtain ⟨s, hs⟩ := Exec.not_isPanic_iff.mp hscan
      obtain ⟨p, hp⟩ := Option.isSome_iff_exists.mp (List.getLast?_isSome.mpr hne)
      exact ⟨s, hs, printRun_panics ((scanned_prev hs).trans hp) hP hout⟩

theorem strings_or : ∀ arr : List Json,
    (∃ v ∈ arr, v.asStr = none) ∨ ∃ ts : List String, arr = ts.map Json.string
  | [] => Or.inr ⟨[], rfl⟩
  | v :: arr => by
      cases hv : v.asStr with
      | none => exact Or.inl ⟨v, List.mem_cons_self, hv⟩
      | some t =>
          rcases strings_or arr with ⟨w, hw, hnone⟩ | ⟨ts, rfl⟩
          · exact Or.inl ⟨w, List.mem_cons_of_mem v hw, hnone⟩
          · rw [Json.asStr_eq_some_iff.mp hv]
            exact Or.inr ⟨t :: ts, rfl⟩

theorem printLeaders_panics {v : Json} (hv : v ∈ arr) (hnone : v.asStr = none) :
    (printLeaders P start arr).IsPanic := by
  by_contra hno
  obtain ⟨runs, hruns⟩ := Exec.not_isPanic_iff.mp hno
  obtain ⟨s, hloop, _⟩ := Exec.bind_eq_ok.mp hruns
  obtain ⟨k, hk, rfl⟩ := List.getElem_of_mem hv
  have hmem : (arr[k], k) ∈ arr.zipIdx := by
    rw [List.mk_mem_zipIdx_iff_getElem?]
    exact List.getElem?_eq_getElem hk
  obtain ⟨s₁, s₂, hstep⟩ := Exec.foldlM_mem_ok hloop _ hmem
  obtain ⟨leader, hleader, _⟩ := Exec.bind_eq_ok.mp hstep
  unfold leaderText at hleader
  rw [hnone] at hleader
  cases hleader

theorem printLeaders_isPanic_iff (hstart : start < 2 ^ 64) :
    (printLeaders P start arr).IsPanic ↔ (∃ v ∈ arr, v.asStr = none) ∨
      P.overflowChecks = true ∧ arr ≠ [] ∧ 2 ^ 64 ≤ start + arr.length := by
  rcases strings_or arr with hbad | ⟨ts, rfl⟩
  · obtain ⟨v, hv, hnone⟩ := hbad
    exact iff_of_true (printLeaders_panics hv hnone) (Or.inl ⟨v, hv, hnone⟩)
  · rw [printLeaders_strings_isPanic_iff hstart, List.length_map]
    have hstrings : ¬ ∃ v ∈ ts.map Json.string, v.asStr = none := by
      rintro ⟨v, hv, hnone⟩
      obtain ⟨t, _, rfl⟩ := List.mem_map.mp hv
      cases hnone
    rw [or_iff_right hstrings, Ne, Ne, List.map_eq_nil_iff]

end Panics

/-! ## The command -/

/-- The arguments are numbers, the count in its bounds. -/
def Asked (startStr countStr : String) (start count : UInt64) : Prop :=
  Decimal.parseU64 startStr = some start ∧ Decimal.parseU64 countStr = some count ∧
    1 ≤ count ∧ count ≤ 5000

section Command

variable {P : Profile} {N : LeaderNode} {startStr countStr : String} {start count : UInt64}

theorem rpc_isPanic_iff {answer : Except String (Except String Json)} :
    (rpc answer).IsPanic ↔ ∃ e, answer = .error e ∨ answer = .ok (.error e) := by
  unfold rpc
  cases answer with
  | error e => simp
  | ok body =>
      cases body with
      | error e => simp
      | ok resp =>
          dsimp only
          cases resp.get? "error" with
          | none => simp
          | some err => simp

theorem rpc_eq_some {answer : Except String (Except String Json)} {v : Json} :
    rpc answer = .ok (some v) ↔ ∃ resp, answer = .ok (.ok resp) ∧ resp.get? "error" = none ∧
      resp.member "result" = v := by
  unfold rpc
  cases answer with
  | error e => simp
  | ok body =>
      cases body with
      | error e => simp
      | ok resp =>
          cases herror : resp.get? "error" with
          | none => simp [herror]
          | some err => simp [herror]

theorem cmdLeaders_asked (h : Asked startStr countStr start count) :
    cmdLeaders P N startStr countStr = (rpc (N.getSlotLeaders start count) >>= fun
      | none => .ok .rpcError
      | some v =>
          match v.asArray with
          | none => .panic .unwrap
          | some arr => printLeaders P start.toNat arr >>= fun lines => .ok (.printed lines)) := by
  obtain ⟨hstart, hcount, hbounds⟩ := h
  unfold cmdLeaders
  rw [hstart]
  dsimp only
  rw [hcount]
  dsimp only
  rw [if_pos hbounds]
  rfl

/-- What the command panics on, once it has asked. -/
def Unprintable (P : Profile) (N : LeaderNode) (start count : UInt64) : Prop :=
  (∃ e, N.getSlotLeaders start count = .error e ∨ N.getSlotLeaders start count = .ok (.error e)) ∨
  ∃ v, rpc (N.getSlotLeaders start count) = .ok (some v) ∧
    (v.asArray = none ∨ ∃ arr, v = .array arr ∧
      ((∃ w ∈ arr, w.asStr = none) ∨
        P.overflowChecks = true ∧ arr ≠ [] ∧ 2 ^ 64 ≤ start.toNat + arr.length))

theorem cmdLeaders_asked_isPanic_iff (h : Asked startStr countStr start count) :
    (cmdLeaders P N startStr countStr).IsPanic ↔ Unprintable P N start count := by
  unfold Unprintable
  rw [cmdLeaders_asked h, Exec.bind_isPanic_iff, rpc_isPanic_iff]
  apply or_congr_right
  constructor
  · rintro ⟨answer, hanswer, hpanic⟩
    cases answer with
    | none => exact absurd hpanic (Exec.not_isPanic_ok _)
    | some v =>
        refine ⟨v, hanswer, ?_⟩
        cases harray : v.asArray with
        | none => exact Or.inl rfl
        | some arr =>
            dsimp only at hpanic
            rw [harray] at hpanic
            dsimp only at hpanic
            rw [Exec.bind_isPanic_iff, printLeaders_isPanic_iff (UInt64.toNat_lt start)] at hpanic
            rcases hpanic with hprint | ⟨lines, _, hok⟩
            · exact Or.inr ⟨arr, Json.asArray_eq_some_iff.mp harray, hprint⟩
            · exact absurd hok (Exec.not_isPanic_ok _)
  · rintro ⟨v, hanswer, hcases⟩
    refine ⟨some v, hanswer, ?_⟩
    dsimp only
    rcases hcases with hnone | ⟨arr, rfl, hprint⟩
    · rw [hnone]
      exact Exec.isPanic_panic _
    · show (printLeaders P start.toNat arr >>= _).IsPanic
      rw [Exec.bind_isPanic_iff]
      exact Or.inl ((printLeaders_isPanic_iff (UInt64.toNat_lt start)).mpr hprint)

theorem not_isPanic_of_not_asked (h : ¬ ∃ start count, Asked startStr countStr start count) :
    ¬ (cmdLeaders P N startStr countStr).IsPanic := by
  unfold cmdLeaders
  cases hstart : Decimal.parseU64 startStr with
  | none => simp
  | some start =>
      cases hcount : Decimal.parseU64 countStr with
      | none => simp
      | some count =>
          dsimp only
          rw [if_neg fun hbounds => h ⟨start, count, hstart, hcount, hbounds⟩]
          simp

end Command

/-- **The listing.** An array of leaders of slots below the last is printed as its
maximal runs; and the command panics exactly if the RPC fails, it answers with
anything but an array of texts, or, where overflow is checked, with as many as
reach the last slot. -/
theorem leaders_listing_exact (P : Profile) (N : LeaderNode) (startStr countStr : String) :
    (∀ start count ts, Asked startStr countStr start count →
      rpc (N.getSlotLeaders start count) = .ok (some (.array (ts.map .string))) →
      start.toNat + ts.length < 2 ^ 64 →
      ∃ lines, cmdLeaders P N startStr countStr = .ok (.printed lines) ∧
        Runs start.toNat ts lines) ∧
    ((cmdLeaders P N startStr countStr).IsPanic ↔
      ∃ start count, Asked startStr countStr start count ∧ Unprintable P N start count) := by
  constructor
  · intro start count ts hasked hrpc hfit
    obtain ⟨lines, hlines, hruns⟩ := @printLeaders_runs P start.toNat ts hfit
    refine ⟨lines, ?_, hruns⟩
    rw [cmdLeaders_asked hasked, hrpc, Exec.ok_bind]
    show (printLeaders P start.toNat (ts.map Json.string) >>= _) = _
    rw [hlines]
    rfl
  · constructor
    · intro hpanic
      by_cases h : ∃ start count, Asked startStr countStr start count
      · obtain ⟨start, count, hasked⟩ := h
        exact ⟨start, count, hasked, (cmdLeaders_asked_isPanic_iff hasked).mp hpanic⟩
      · exact absurd hpanic (not_isPanic_of_not_asked h)
    · rintro ⟨start, count, hasked, hout⟩
      exact (cmdLeaders_asked_isPanic_iff hasked).mpr hout

end Lattica.Cli
