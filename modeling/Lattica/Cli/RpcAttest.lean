import Lattica.Attest.Attestation
import Lattica.Cli.VerifyShred
import Lattica.Lthash.Binding

/-!
# The attestation of a live account

`rpc-attest` of `crates/cli/src/main.rs`: an account is fetched twice, some
slots apart, its delta attested, and the verifier run on the true transition
and on one with a flipped bit. The true one passes; the other is caught exactly
when the account is alive and the hash does not collide.
-/

namespace Lattica.Cli

open Foundation Lthash Attest Listener

/-! ## Snapshots -/

structure AccountSnapshot where
  slot : UInt64
  lamports : UInt64
  data : List UInt8
  executable : Bool
  owner : Bytes 32
  pubkey : Bytes 32

namespace AccountSnapshot

def asForHash (self : AccountSnapshot) : AccountForHash where
  lamports := self.lamports
  data := self.data
  executable := self.executable
  owner := self.owner
  pubkey := self.pubkey

/-- `tampered_data[0] ^= 0x01`. -/
def tampered (self : AccountSnapshot) : AccountForHash :=
  { self.asForHash with data := self.data.modifyHead (· ^^^ 1) }

end AccountSnapshot

/-- The endpoint, at the time of one request. -/
structure AccountNode where
  /-- A `getAccountInfo` request: the transport may fail, and the body may not be JSON. -/
  getAccountInfo : String → Except String (Except String Json)
  /-- `Display` of a `Value`. -/
  display : Json → String
  /-- `base64::engine::general_purpose::STANDARD.decode`. -/
  decodeBase64 : String → Except String (List UInt8)

/-- `Option::ok_or`. -/
def okOr {α : Type} (text : String) : Option α → Exec String α
  | some a => .ok a
  | none => .err text

def fetchSnapshot (E : Bs58) (N : AccountNode) (pubkeyStr : String) :
    Exec String AccountSnapshot := do
  let body ← Exec.ofExcept ((N.getAccountInfo pubkeyStr).mapError fun e => "rpc transport: " ++ e)
  let resp ← Exec.ofExcept (body.mapError fun e => "rpc parse: " ++ e)
  match resp.get? "error" with
  | some err => .err ("rpc error: " ++ N.display err)
  | none =>
      let result := resp.member "result"
      let slot ← okOr "missing context.slot" ((result.member "context").member "slot").asU64
      let value := result.member "value"
      if value.isNull then .err ("account not found: " ++ pubkeyStr)
      else do
        let lamports ← okOr "missing lamports" (value.member "lamports").asU64
        let ownerB58 ← okOr "missing owner" (value.member "owner").asStr
        let executable ← okOr "missing executable" (value.member "executable").asBool
        let dataArr ← okOr "data not array" (value.member "data").asArray
        let first ← match dataArr with
          | [] => .panic .index
          | v :: _ => .ok v
        let dataB64 ← okOr "data[0] not str" first.asStr
        let data ← Exec.ofExcept ((N.decodeBase64 dataB64).mapError fun e => "data base64: " ++ e)
        let owner ← pubkeyFromB58 E ownerB58
        let pubkey ← pubkeyFromB58 E pubkeyStr
        return { slot, lamports, data, executable, owner, pubkey }

/-- The response about an account. -/
def accountResponse (E : Bs58) (dataB64 : String) (s : AccountSnapshot) : Json :=
  .object [("jsonrpc", .string "2.0"),
    ("result", .object [
      ("context", .object [("slot", .number (.posInt s.slot))]),
      ("value", .object [
        ("data", .array [.string dataB64, .string "base64"]),
        ("executable", .bool s.executable),
        ("lamports", .number (.posInt s.lamports)),
        ("owner", .string (E.encode s.owner.1))])]),
    ("id", .number (.posInt 1))]

/-- A snapshot is the account that the node reports. -/
theorem fetchSnapshot_response {E : Bs58} (hE : E.RoundTrips) {N : AccountNode}
    {s : AccountSnapshot} {dataB64 : String}
    (hpost : N.getAccountInfo (E.encode s.pubkey.1) = .ok (.ok (accountResponse E dataB64 s)))
    (hdata : N.decodeBase64 dataB64 = .ok s.data) :
    fetchSnapshot E N (E.encode s.pubkey.1) = .ok s := by
  unfold fetchSnapshot
  rw [hpost]
  show (Exec.ofExcept ((N.decodeBase64 dataB64).mapError _) >>= _) = _
  rw [hdata]
  show (pubkeyFromB58 E (E.encode s.owner.1) >>= _) = _
  rw [pubkeyFromB58_eq_ok.mpr (hE _), Exec.ok_bind, pubkeyFromB58_eq_ok.mpr (hE _)]
  rfl

/-! ## The command -/

inductive ExitCode where
  | success
  | failure
deriving DecidableEq

/-- Where the command ends. -/
inductive Outcome where
  | usage
  | fetchFailed (e : String)
  | pollFailed (e : String)
  | unexpectedMismatch (e : VerifyError)
  | noData
  | tamperAccepted
  | mismatchCaught (attested recomputed : Bytes 32)
  | unexpectedError (e : VerifyError)

def Outcome.exitCode : Outcome → ExitCode
  | noData => .success
  | mismatchCaught _ _ => .success
  | _ => .failure

/-- The loop over the answers of `fetch_current_slot`; with none left it is still polling. -/
def poll (targetSlot : ℕ) : List (Except String UInt64) → Option (Except String UInt64)
  | [] => none
  | .error e :: _ => some (.error e)
  | .ok s :: answers => if targetSlot ≤ s.toNat then some (.ok s) else poll targetSlot answers

/-- Everything after the second fetch. -/
def attestAndVerify (B : Blake3) (leaderPk : Bytes 32) (old new : AccountSnapshot) : Outcome :=
  let sd := SlotDelta.new.mix B (some old.asForHash) (some new.asForHash)
  let attestation :=
    Attestation.fromDelta new.slot 0 leaderPk (Bytes.zero 32) (Bytes.zero 64) sd.delta
  match verifySlotDelta B attestation [⟨some old.asForHash, some new.asForHash⟩] with
  | .error e => .unexpectedMismatch e
  | .ok () =>
      if new.data.isEmpty then .noData
      else
        match verifySlotDelta B attestation [⟨some old.asForHash, some new.tampered⟩] with
        | .ok () => .tamperAccepted
        | .error (.deltaMismatch attested recomputed) => .mismatchCaught attested recomputed
        | .error e => .unexpectedError e

/-- `cmd_rpc_attest`. -/
def cmdRpcAttest (P : Profile) (B : Blake3) (E : Bs58) (leaderPk : Bytes 32)
    (pubkeyStr waitSlotsStr : String) (first : AccountNode)
    (answers : List (Except String UInt64)) (second : AccountNode) :
    Exec Empty (Option Outcome) :=
  match Decimal.parseU64 waitSlotsStr with
  | none => .ok (some .usage)
  | some waitSlots =>
      if ¬ 1 ≤ waitSlots then .ok (some .usage)
      else do
        -- the seconds that are printed
        let _ ← mulU P 64 waitSlots.toNat 400
        match ← (fetchSnapshot E first pubkeyStr).attempt with
        | .error e => return some (.fetchFailed e)
        | .ok old => do
            let targetSlot ← addU P 64 old.slot.toNat waitSlots.toNat
            match poll targetSlot answers with
            | none => return none
            | some (.error e) => return some (.pollFailed e)
            | some (.ok _) => do
                match ← (fetchSnapshot E second pubkeyStr).attempt with
                | .error e => return some (.fetchFailed e)
                | .ok new => return some (attestAndVerify B leaderPk old new)

/-! ## What the verifier says -/

section Verify

variable {B : Blake3} {leaderPk : Bytes 32} {old new : AccountSnapshot}

/-- An attested transition and one with another new state. -/
theorem verify_attested (slot : UInt64) (leaderSig : Bytes 64) (o n n' : AccountForHash) :
    verifySlotDelta B (.fromDelta slot 0 leaderPk (Bytes.zero 32) leaderSig
        (SlotDelta.new.mix B (some o) (some n)).delta) [⟨some o, some n'⟩] =
      if hashAccount B n' = hashAccount B n then .ok ()
      else .error (.deltaMismatch ((SlotDelta.new.mix B (some o) (some n)).delta.checksum B)
        ((hashAccount B n' - hashAccount B o).checksum B)) := by
  have hfull : ∀ t ∈ [(⟨some o, some n'⟩ : AccountTransition)], ¬ t.Empty := by
    intro t ht hempty
    rw [List.mem_singleton] at ht
    subst ht
    cases hempty.1
  have hgain : ∀ m, gain B (some o, some m) = hashAccount B m - hashAccount B o := fun _ => rfl
  have hbuilt : builtDelta B [⟨some o, some n'⟩] = hashAccount B n' - hashAccount B o := by
    rw [builtDelta_eq, List.map_singleton, List.map_singleton, List.sum_singleton, ← hgain n']
    rfl
  have hmix : (SlotDelta.new.mix B (some o) (some n)).delta =
      SlotDelta.new.delta + gain B (some o, some n) := mix_delta _ (some o, some n)
  have hattested : (SlotDelta.new.mix B (some o) (some n)).delta =
      hashAccount B n - hashAccount B o := by
    rw [hmix, SlotDelta.new, LtHash.identity_eq, zero_add, hgain]
  rw [verify_full (Attestation.deltaAsLthash_fromDelta _ _ _ _ _ _) hfull, hbuilt, hattested]
  simp only [sub_left_inj]

theorem attestAndVerify_eq : attestAndVerify B leaderPk old new =
    if new.data = [] then .noData
    else if hashAccount B new.tampered = hashAccount B new.asForHash then .tamperAccepted
    else .mismatchCaught
      ((SlotDelta.new.mix B (some old.asForHash) (some new.asForHash)).delta.checksum B)
      ((hashAccount B new.tampered - hashAccount B old.asForHash).checksum B) := by
  unfold attestAndVerify
  dsimp only
  rw [verify_attested, verify_attested, if_pos rfl]
  dsimp only
  by_cases hdata : new.data = []
  · rw [if_pos hdata, if_pos (List.isEmpty_iff.mpr hdata)]
  · rw [if_neg hdata, if_neg fun h => hdata (List.isEmpty_iff.mp h)]
    by_cases hhash : hashAccount B new.tampered = hashAccount B new.asForHash
    · rw [if_pos hhash, if_pos hhash]
    · rw [if_neg hhash, if_neg hhash]

/-- The true transition is not refused, and a refusal is a mismatch. -/
theorem attestAndVerify_expected (e : VerifyError) :
    attestAndVerify B leaderPk old new ≠ .unexpectedMismatch e ∧
      attestAndVerify B leaderPk old new ≠ .unexpectedError e := by
  rw [attestAndVerify_eq]
  split
  · exact ⟨nofun, nofun⟩
  · split
    · exact ⟨nofun, nofun⟩
    · exact ⟨nofun, nofun⟩

theorem tampered_ne (h : new.data ≠ []) : new.tampered ≠ new.asForHash := by
  intro heq
  have hdata : new.data.modifyHead (· ^^^ 1) = new.data := congrArg AccountForHash.data heq
  cases hnew : new.data with
  | nil => exact h hnew
  | cons x xs =>
      rw [hnew, List.modifyHead_cons] at hdata
      injection hdata with hx _
      have hone : x ^^^ (x ^^^ 1) = x ^^^ x := congrArg (x ^^^ ·) hx
      rw [← UInt8.xor_assoc, UInt8.xor_self, UInt8.zero_xor] at hone
      cases hone

/-- A flipped bit is missed on a tombstone, and otherwise only through a collision. -/
theorem hash_tampered_iff (h : new.data ≠ []) :
    hashAccount B new.tampered = hashAccount B new.asForHash ↔
      new.lamports = 0 ∨ accountBytes new.tampered ≠ accountBytes new.asForHash ∧
        B.xof (accountBytes new.tampered) = B.xof (accountBytes new.asForHash) := by
  by_cases hdead : new.lamports = 0
  · have hzero : new.tampered.lamports = 0 := hdead
    have hzero' : new.asForHash.lamports = 0 := hdead
    rw [hashAccount_tombstone hzero, hashAccount_tombstone hzero']
    exact ⟨fun _ => Or.inl hdead, fun _ => rfl⟩
  · constructor
    · intro hhash
      refine Or.inr ⟨?_, xof_eq_of_hashAccount_eq hdead hdead hhash⟩
      intro hbytes
      exact tampered_ne h (accountBytes_inj hbytes)
    · rintro (hzero | ⟨_, hxof⟩)
      · exact absurd hzero hdead
      · have hlive : new.tampered.lamports ≠ 0 := hdead
        have hlive' : new.asForHash.lamports ≠ 0 := hdead
        unfold hashAccount
        rw [if_neg hlive, if_neg hlive', hxof]

end Verify

/-! ## The run -/

section Run

variable {P : Profile} {B : Blake3} {E : Bs58} {leaderPk : Bytes 32}
  {pubkeyStr waitSlotsStr : String} {first second : AccountNode}
  {answers : List (Except String UInt64)}

/-- Both snapshots were fetched, the second one after the wait. -/
structure Fetched (P : Profile) (E : Bs58) (pubkeyStr waitSlotsStr : String)
    (first : AccountNode) (answers : List (Except String UInt64)) (second : AccountNode)
    (old new : AccountSnapshot) : Prop where
  first : fetchSnapshot E first pubkeyStr = .ok old
  second : fetchSnapshot E second pubkeyStr = .ok new
  waited : ∃ (waitSlots s : UInt64) (shown target : ℕ),
    Decimal.parseU64 waitSlotsStr = some waitSlots ∧ 1 ≤ waitSlots ∧
    mulU P 64 waitSlots.toNat 400 = (.ok shown : Exec Empty ℕ) ∧
    addU P 64 old.slot.toNat waitSlots.toNat = (.ok target : Exec Empty ℕ) ∧
    poll target answers = some (.ok s)

/-- The outcomes before the second snapshot. -/
def Outcome.early : Outcome → Bool
  | usage => true
  | fetchFailed _ => true
  | pollFailed _ => true
  | _ => false

theorem Fetched.run {old new : AccountSnapshot}
    (h : Fetched P E pubkeyStr waitSlotsStr first answers second old new) :
    cmdRpcAttest P B E leaderPk pubkeyStr waitSlotsStr first answers second =
      .ok (some (attestAndVerify B leaderPk old new)) := by
  obtain ⟨waitSlots, s, shown, target, hparse, hwait, hshown, htarget, hpoll⟩ := h.waited
  unfold cmdRpcAttest
  rw [hparse]
  dsimp only
  rw [if_neg (not_not.mpr hwait), hshown, Exec.ok_bind, h.first, Exec.attempt_ok, Exec.ok_bind]
  dsimp only
  rw [htarget, Exec.ok_bind, hpoll]
  dsimp only
  rw [h.second, Exec.attempt_ok, Exec.ok_bind]
  dsimp only
  rw [Exec.pure_eq]

/-- A run that gets past the second snapshot has fetched both. -/
theorem fetched_of_run {o : Outcome} (hlate : o.early = false)
    (h : cmdRpcAttest P B E leaderPk pubkeyStr waitSlotsStr first answers second =
      .ok (some o)) :
    ∃ old new, Fetched P E pubkeyStr waitSlotsStr first answers second old new ∧
      o = attestAndVerify B leaderPk old new := by
  unfold cmdRpcAttest at h
  cases hparse : Decimal.parseU64 waitSlotsStr with
  | none =>
      rw [hparse] at h
      cases h
      cases hlate
  | some waitSlots =>
      rw [hparse] at h
      dsimp only at h
      by_cases hwait : 1 ≤ waitSlots
      · rw [if_neg (not_not.mpr hwait)] at h
        obtain ⟨shown, hshown, h⟩ := Exec.bind_eq_ok.mp h
        cases hfirst : fetchSnapshot E first pubkeyStr with
        | panic p =>
            rw [hfirst] at h
            cases h
        | err e =>
            rw [hfirst] at h
            cases h
            cases hlate
        | ok old =>
            rw [hfirst, Exec.attempt_ok, Exec.ok_bind] at h
            dsimp only at h
            obtain ⟨target, htarget, h⟩ := Exec.bind_eq_ok.mp h
            cases hpoll : poll target answers with
            | none =>
                rw [hpoll] at h
                cases h
            | some answer =>
                rw [hpoll] at h
                cases answer with
                | error e =>
                    cases h
                    cases hlate
                | ok s =>
                    dsimp only at h
                    cases hsecond : fetchSnapshot E second pubkeyStr with
                    | panic p =>
                        rw [hsecond] at h
                        cases h
                    | err e =>
                        rw [hsecond] at h
                        cases h
                        cases hlate
                    | ok new =>
                        rw [hsecond, Exec.attempt_ok, Exec.ok_bind] at h
                        dsimp only at h
                        rw [Exec.pure_eq] at h
                        exact ⟨old, new, ⟨hfirst, hsecond, waitSlots, s, shown, target, hparse,
                          hwait, hshown, htarget, hpoll⟩, (Option.some.inj (Exec.ok.inj h)).symm⟩
      · rw [if_pos hwait] at h
        cases h
        cases hlate

theorem second_isPanic_iff {old : AccountSnapshot} {target : ℕ} :
    (match poll target answers with
      | none => (.ok none : Exec Empty (Option Outcome))
      | some (.error e) => .ok (some (.pollFailed e))
      | some (.ok _) => (fetchSnapshot E second pubkeyStr).attempt >>= fun
          | .error e => .ok (some (.fetchFailed e))
          | .ok new => .ok (some (attestAndVerify B leaderPk old new))).IsPanic ↔
      ∃ s, poll target answers = some (.ok s) ∧ (fetchSnapshot E second pubkeyStr).IsPanic := by
  cases poll target answers with
  | none => simp
  | some answer =>
      cases answer with
      | error e => simp
      | ok s =>
          cases fetchSnapshot E second pubkeyStr with
          | ok new => simp
          | err e => simp
          | panic p => simp

/-- It panics where a printed or awaited number overflows, or where a fetch does. -/
theorem cmdRpcAttest_isPanic_iff :
    (cmdRpcAttest P B E leaderPk pubkeyStr waitSlotsStr first answers second).IsPanic ↔
      ∃ waitSlots, Decimal.parseU64 waitSlotsStr = some waitSlots ∧ 1 ≤ waitSlots ∧
        (P.overflowChecks = true ∧ 2 ^ 64 ≤ waitSlots.toNat * 400 ∨
          (∃ shown, mulU P 64 waitSlots.toNat 400 = (.ok shown : Exec Empty ℕ)) ∧
            ((fetchSnapshot E first pubkeyStr).IsPanic ∨
              ∃ old, fetchSnapshot E first pubkeyStr = .ok old ∧
                (P.overflowChecks = true ∧ 2 ^ 64 ≤ old.slot.toNat + waitSlots.toNat ∨
                  ∃ target s,
                    addU P 64 old.slot.toNat waitSlots.toNat = (.ok target : Exec Empty ℕ) ∧
                    poll target answers = some (.ok s) ∧
                    (fetchSnapshot E second pubkeyStr).IsPanic))) := by
  unfold cmdRpcAttest
  cases hparse : Decimal.parseU64 waitSlotsStr with
  | none => simp
  | some waitSlots =>
      dsimp only
      by_cases hwait : 1 ≤ waitSlots
      · rw [if_neg (not_not.mpr hwait), Exec.bind_isPanic_iff, mulU_isPanic_iff]
        simp only [Option.some.injEq, exists_eq_left', hwait, true_and]
        apply or_congr_right
        rw [← exists_and_right]
        apply exists_congr
        intro shown
        apply and_congr_right
        intro _
        cases hfirst : fetchSnapshot E first pubkeyStr with
        | panic p => simp
        | err e => simp
        | ok old =>
            rw [Exec.attempt_ok, Exec.ok_bind]
            dsimp only
            rw [Exec.bind_isPanic_iff, addU_isPanic_iff]
            simp only [Exec.not_isPanic_ok, false_or, Exec.ok.injEq, exists_eq_left']
            apply or_congr_right
            apply exists_congr
            intro target
            rw [exists_and_left]
            apply and_congr_right
            intro _
            exact second_isPanic_iff
      · rw [if_pos hwait]
        simp [hwait]

end Run

/-- **The end-to-end check.** It ends in success exactly if both snapshots are
fetched and the second has no data or another hash once its first byte is
changed; the true transition is never refused; and the changed one is accepted
exactly if the account is a tombstone or two strings collide. -/
theorem rpc_attest_outcome (P : Profile) (B : Blake3) (E : Bs58) (leaderPk : Bytes 32)
    (pubkeyStr waitSlotsStr : String) (first : AccountNode)
    (answers : List (Except String UInt64)) (second : AccountNode) :
    let run := cmdRpcAttest P B E leaderPk pubkeyStr waitSlotsStr first answers second
    ((∃ o : Outcome, run = .ok (some o) ∧ o.exitCode = .success) ↔
      ∃ old new, Fetched P E pubkeyStr waitSlotsStr first answers second old new ∧
        (new.data = [] ∨ hashAccount B new.tampered ≠ hashAccount B new.asForHash)) ∧
    (∀ e, run ≠ .ok (some (.unexpectedMismatch e)) ∧ run ≠ .ok (some (.unexpectedError e))) ∧
    (run = .ok (some .tamperAccepted) ↔
      ∃ old new, Fetched P E pubkeyStr waitSlotsStr first answers second old new ∧
        new.data ≠ [] ∧ (new.lamports = 0 ∨
          accountBytes new.tampered ≠ accountBytes new.asForHash ∧
            B.xof (accountBytes new.tampered) = B.xof (accountBytes new.asForHash))) ∧
    (run.IsPanic ↔
      ∃ waitSlots, Decimal.parseU64 waitSlotsStr = some waitSlots ∧ 1 ≤ waitSlots ∧
        (P.overflowChecks = true ∧ 2 ^ 64 ≤ waitSlots.toNat * 400 ∨
          (∃ shown, mulU P 64 waitSlots.toNat 400 = (.ok shown : Exec Empty ℕ)) ∧
            ((fetchSnapshot E first pubkeyStr).IsPanic ∨
              ∃ old, fetchSnapshot E first pubkeyStr = .ok old ∧
                (P.overflowChecks = true ∧ 2 ^ 64 ≤ old.slot.toNat + waitSlots.toNat ∨
                  ∃ target s,
                    addU P 64 old.slot.toNat waitSlots.toNat = (.ok target : Exec Empty ℕ) ∧
                    poll target answers = some (.ok s) ∧
                    (fetchSnapshot E second pubkeyStr).IsPanic)))) := by
  intro run
  refine ⟨?_, ?_, ?_, cmdRpcAttest_isPanic_iff⟩
  · constructor
    · rintro ⟨o, hrun, hexit⟩
      have hlate : o.early = false := by
        cases o with
        | usage => cases hexit
        | fetchFailed e => cases hexit
        | pollFailed e => cases hexit
        | _ => rfl
      obtain ⟨old, new, hfetched, heq⟩ := fetched_of_run hlate hrun
      refine ⟨old, new, hfetched, ?_⟩
      rw [heq, attestAndVerify_eq] at hexit
      by_cases hdata : new.data = []
      · exact Or.inl hdata
      · right
        intro hhash
        rw [if_neg hdata, if_pos hhash] at hexit
        cases hexit
    · rintro ⟨old, new, hfetched, hcaught⟩
      have hrun : run = .ok (some (attestAndVerify B leaderPk old new)) := hfetched.run
      refine ⟨attestAndVerify B leaderPk old new, hrun, ?_⟩
      rw [attestAndVerify_eq]
      by_cases hdata : new.data = []
      · rw [if_pos hdata]
        rfl
      · rw [if_neg hdata, if_neg (hcaught.resolve_left hdata)]
        rfl
  · intro e
    constructor
    · intro hrun
      obtain ⟨old, new, _, heq⟩ := fetched_of_run rfl hrun
      exact (attestAndVerify_expected e).1 heq.symm
    · intro hrun
      obtain ⟨old, new, _, heq⟩ := fetched_of_run rfl hrun
      exact (attestAndVerify_expected e).2 heq.symm
  · constructor
    · intro hrun
      obtain ⟨old, new, hfetched, heq⟩ := fetched_of_run rfl hrun
      rw [attestAndVerify_eq] at heq
      by_cases hdata : new.data = []
      · rw [if_pos hdata] at heq
        cases heq
      · by_cases hhash : hashAccount B new.tampered = hashAccount B new.asForHash
        · exact ⟨old, new, hfetched, hdata, (hash_tampered_iff hdata).mp hhash⟩
        · rw [if_neg hdata, if_neg hhash] at heq
          cases heq
    · rintro ⟨old, new, hfetched, hdata, hcollision⟩
      have hrun : run = .ok (some (attestAndVerify B leaderPk old new)) := hfetched.run
      rw [hrun, attestAndVerify_eq, if_neg hdata,
        if_pos ((hash_tampered_iff hdata).mpr hcollision)]

end Lattica.Cli
