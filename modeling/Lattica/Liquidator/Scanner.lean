import Lattica.Liquidator.Markets
import Mathlib.Data.Rat.Defs
import Mathlib.Algebra.Order.Ring.Rat

/-!
# The user scanner

`scan_users` of `crates/liquidator/src/scanner.rs`, the listing `paper` makes of
it and `pick_candidate_with_perp_position` of `simulate`. The margin is stubbed
in the source: every user has the same health, so the ranking keeps the order
in which the RPC returned the accounts.
-/

namespace Lattica.Liquidator

open Foundation

/-- The remaining fields that are read of a drift `User`. -/
structure UserAccount extends User where
  subAccountId : UInt16
  isBeingLiquidated : Bool
  isBankrupt : Bool

/-- `get_user_filter()` and `get_user_with_order_filter()`. -/
inductive Filter where
  | user
  | userWithOrder
deriving DecidableEq

inductive ScanScope where
  | usersWithOrders
  | allNonIdle
deriving DecidableEq

def ScanScope.filters : ScanScope → List Filter
  | usersWithOrders => [.user, .userWithOrder]
  | allNonIdle => [.user]

/-- The program accounts of drift, and the decoder of its users. -/
structure UserSource where
  /-- `get_program_accounts_with_config`. -/
  getProgramAccounts : List Filter → Except String (List (Pubkey × List UInt8))
  /-- `8 + size_of::<User>()`. -/
  expectedUserLen : ℕ
  /-- `User::try_deserialize`, which may panic. -/
  user : List UInt8 → Exec String UserAccount

structure LiqCandidate where
  pubkey : Pubkey
  authority : Pubkey
  totalCollateralQ6 : ℤ
  marginRequirementQ6 : ℕ
  /-- An `f64`; what is computed for it here is exact in both. -/
  health : ℚ
  nPerpPositions : ℕ
  nSpotPositions : ℕ

/-- The locals of the loop. -/
structure ScanState where
  candidates : List LiqCandidate
  sizeMismatch : ℕ
  decodeFailures : ℕ
  marginFailures : ℕ
  zeroMargin : ℕ
  alreadyLiquidating : ℕ

def ScanState.new : ScanState := ⟨[], 0, 0, 0, 0, 0⟩

/-- The body of the loop. -/
def scanAccount (R : UserSource) (s : ScanState) (account : Pubkey × List UInt8) : ScanState :=
  if account.2.length ≠ R.expectedUserLen then { s with sizeMismatch := s.sizeMismatch + 1 }
  else
    match R.user account.2 with
    | .panic _ => { s with decodeFailures := s.decodeFailures + 1 }
    | .err _ => { s with decodeFailures := s.decodeFailures + 1 }
    | .ok user =>
        if user.isBeingLiquidated || user.isBankrupt then
          { s with alreadyLiquidating := s.alreadyLiquidating + 1 }
        else
          let totalCollateral : ℤ := 0
          let marginRequirement : ℕ := 1
          if marginRequirement = 0 then { s with zeroMargin := s.zeroMargin + 1 }
          else
            { s with
              candidates := s.candidates ++ [{
                pubkey := account.1
                authority := user.authority
                totalCollateralQ6 := totalCollateral
                marginRequirementQ6 := marginRequirement
                health := totalCollateral / marginRequirement
                nPerpPositions := (user.perpPositions.filter fun p => !p.isAvailable).length
                nSpotPositions := (user.spotPositions.filter fun p => !p.isAvailable).length }] }

def scanAll (R : UserSource) (accounts : List (Pubkey × List UInt8)) : ScanState :=
  accounts.foldl (scanAccount R) ScanState.new

def scanUsers (R : UserSource) (scope : ScanScope) (maxCandidates : ℕ) :
    Except Error (List LiqCandidate) :=
  match R.getProgramAccounts scope.filters with
  | .error e => .error ["get_program_accounts_with_config", e]
  | .ok accounts =>
      .ok (((scanAll R accounts).candidates.mergeSort fun a b => decide (a.health ≤ b.health)).take
        maxCandidates)

/-! ## What is made of a scan -/

structure Candidate where
  pubkey : Pubkey
  data : UserAccount

/-- The loop of `pick_candidate_with_perp_position`. -/
def pickFrom (R : UserSource) : List (Pubkey × List UInt8) → Option Candidate
  | [] => none
  | (pk, data) :: accounts =>
      if data.length ≠ R.expectedUserLen then pickFrom R accounts
      else
        match R.user data with
        | .panic _ => pickFrom R accounts
        | .err _ => pickFrom R accounts
        | .ok user =>
            if user.isBeingLiquidated || user.isBankrupt then pickFrom R accounts
            else if user.perpPositions.any fun p => !p.isAvailable then some ⟨pk, user⟩
            else pickFrom R accounts

def LiqCandidate.positions (c : LiqCandidate) : ℕ := c.nPerpPositions + c.nSpotPositions

/-- What `paper` prints of a scan: its lines, and the total below them. -/
def paperListing (candidates : List LiqCandidate) : List LiqCandidate × ℕ :=
  let sorted := candidates.mergeSort fun a b => decide (b.positions ≤ a.positions)
  (sorted.take 20, (sorted.map LiqCandidate.positions).sum)

/-- The second argument of `paper`. -/
def scanScope (arg : Option String) : ScanScope :=
  match arg.getD "orders" with
  | "all" => .allNonIdle
  | _ => .usersWithOrders

/-- `paper::run`, once its clients are connected. -/
def paper (R : UserSource) (arg : Option String) : Except Error (List LiqCandidate × ℕ) :=
  match scanUsers R (scanScope arg) 20 with
  | .error es => .error ("scan_users" :: es)
  | .ok candidates => .ok (paperListing candidates)

/-! ## Which accounts are candidates -/

/-- What a scan makes of one account. -/
def userOf (R : UserSource) (account : Pubkey × List UInt8) : Option Candidate :=
  if account.2.length = R.expectedUserLen then
    match R.user account.2 with
    | .ok user =>
        if user.isBeingLiquidated || user.isBankrupt then none else some ⟨account.1, user⟩
    | _ => none
  else none

def Candidate.liqCandidate (c : Candidate) : LiqCandidate where
  pubkey := c.pubkey
  authority := c.data.authority
  totalCollateralQ6 := 0
  marginRequirementQ6 := 1
  health := 0
  nPerpPositions := (c.data.perpPositions.filter fun p => !p.isAvailable).length
  nSpotPositions := (c.data.spotPositions.filter fun p => !p.isAvailable).length

def Candidate.hasPerp (c : Candidate) : Bool := c.data.perpPositions.any fun p => !p.isAvailable

/-- The six counts of the log line. -/
def ScanState.counted (s : ScanState) : ℕ :=
  s.candidates.length + s.sizeMismatch + s.decodeFailures + s.marginFailures + s.zeroMargin +
    s.alreadyLiquidating

section Scan

variable {R : UserSource} {s : ScanState} {account : Pubkey × List UInt8}

theorem candidates_scanAccount : (scanAccount R s account).candidates =
    s.candidates ++ ((userOf R account).map Candidate.liqCandidate).toList := by
  unfold scanAccount userOf
  by_cases hlen : account.2.length = R.expectedUserLen
  · rw [if_neg (not_not.mpr hlen), if_pos hlen]
    cases R.user account.2 with
    | ok user =>
        cases hskip : user.isBeingLiquidated || user.isBankrupt with
        | true => simp [hskip]
        | false => simp [hskip, Candidate.liqCandidate]
    | err e => simp
    | panic p => simp
  · rw [if_pos hlen, if_neg hlen]
    simp

theorem counted_scanAccount : (scanAccount R s account).counted = s.counted + 1 := by
  unfold scanAccount ScanState.counted
  split
  · dsimp only
    ring
  · split
    · dsimp only
      ring
    · dsimp only
      ring
    · split
      · dsimp only
        ring
      · simp only [one_ne_zero, if_false, List.length_append, List.length_singleton]
        ring

/-- Neither of the two counts of the margin moves. -/
theorem margin_scanAccount : (scanAccount R s account).marginFailures = s.marginFailures ∧
    (scanAccount R s account).zeroMargin = s.zeroMargin := by
  unfold scanAccount
  split
  · exact ⟨rfl, rfl⟩
  · split
    · exact ⟨rfl, rfl⟩
    · exact ⟨rfl, rfl⟩
    · split
      · exact ⟨rfl, rfl⟩
      · simp

end Scan

theorem scan_foldl {R : UserSource} {accounts : List (Pubkey × List UInt8)} {s : ScanState} :
    (accounts.foldl (scanAccount R) s).candidates =
        s.candidates ++ (accounts.filterMap (userOf R)).map Candidate.liqCandidate ∧
      (accounts.foldl (scanAccount R) s).counted = s.counted + accounts.length ∧
      (accounts.foldl (scanAccount R) s).marginFailures = s.marginFailures ∧
      (accounts.foldl (scanAccount R) s).zeroMargin = s.zeroMargin := by
  induction accounts generalizing s with
  | nil => simp
  | cons account accounts ih =>
      obtain ⟨hcandidates, hcounted, hfailures, hzero⟩ := ih (s := scanAccount R s account)
      rw [List.foldl_cons]
      refine ⟨?_, ?_, ?_, ?_⟩
      · rw [hcandidates, candidates_scanAccount, List.append_assoc, List.filterMap_cons]
        cases userOf R account with
        | none => rfl
        | some c => rfl
      · rw [hcounted, counted_scanAccount, List.length_cons]
        ring
      · rw [hfailures, margin_scanAccount.1]
      · rw [hzero, margin_scanAccount.2]

/-- All healths are equal, so the ranking moves nothing. -/
theorem mergeSort_liqCandidate (cs : List Candidate) :
    (cs.map Candidate.liqCandidate).mergeSort (fun a b => decide (a.health ≤ b.health)) =
      cs.map Candidate.liqCandidate := by
  apply List.mergeSort_of_pairwise
  rw [List.pairwise_map]
  apply List.pairwise_of_forall
  intro a b
  exact decide_eq_true le_rfl

theorem scanUsers_eq {R : UserSource} {scope : ScanScope} {maxCandidates : ℕ}
    {accounts : List (Pubkey × List UInt8)}
    (h : R.getProgramAccounts scope.filters = .ok accounts) :
    scanUsers R scope maxCandidates =
      .ok (((accounts.filterMap (userOf R)).map Candidate.liqCandidate).take maxCandidates) := by
  unfold scanUsers scanAll
  rw [h]
  show Except.ok (List.take _ (List.mergeSort _ _)) = _
  rw [scan_foldl.1]
  show Except.ok (List.take _ (List.mergeSort (List.map _ _) _)) = _
  rw [mergeSort_liqCandidate]

theorem pickFrom_eq {R : UserSource} {accounts : List (Pubkey × List UInt8)} :
    pickFrom R accounts = (accounts.filterMap (userOf R)).find? Candidate.hasPerp := by
  induction accounts with
  | nil => rfl
  | cons account accounts ih =>
      obtain ⟨pk, data⟩ := account
      unfold pickFrom
      rw [List.filterMap_cons]
      by_cases hlen : data.length = R.expectedUserLen
      · rw [if_neg (not_not.mpr hlen)]
        unfold userOf
        rw [if_pos hlen]
        dsimp only
        cases R.user data with
        | ok user =>
            dsimp only
            split
            · exact ih
            · rw [List.find?_cons]
              show (if Candidate.hasPerp ⟨pk, user⟩ then _ else _) = _
              cases Candidate.hasPerp ⟨pk, user⟩ with
              | true => rfl
              | false => exact ih
        | err e => exact ih
        | panic p => exact ih
      · rw [if_pos hlen]
        unfold userOf
        rw [if_neg hlen]
        exact ih

/-! ## The listing -/

/-- A stable sort keeps the order within a class of equals. -/
theorem filter_mergeSort {α : Type} {le : α → α → Bool} {p : α → Bool} {xs : List α}
    (htrans : ∀ a b c, le a b = true → le b c = true → le a c = true)
    (htotal : ∀ a b, (le a b || le b a) = true)
    (hp : ∀ a b, p a = true → p b = true → le a b = true) :
    (xs.mergeSort le).filter p = xs.filter p := by
  have hclass : (xs.filter p).Pairwise fun a b => le a b = true := by
    rw [List.pairwise_iff_forall_sublist]
    intro a b hab
    apply hp
    · exact List.of_mem_filter (hab.subset List.mem_cons_self)
    · exact List.of_mem_filter (hab.subset (List.mem_cons_of_mem a List.mem_cons_self))
  have hsub : (xs.filter p).Sublist (xs.mergeSort le) :=
    List.sublist_mergeSort htrans htotal hclass List.filter_sublist
  have hkept : ((xs.filter p).filter p).Sublist ((xs.mergeSort le).filter p) := hsub.filter p
  rw [List.filter_filter] at hkept
  simp only [Bool.and_self] at hkept
  symm
  apply hkept.eq_of_length
  exact ((List.mergeSort_perm xs le).filter p).length_eq.symm

theorem hasPerp_iff {c : Candidate} : c.hasPerp = true ↔ 0 < c.liqCandidate.nPerpPositions := by
  unfold Candidate.hasPerp Candidate.liqCandidate
  rw [List.any_eq_true, List.length_pos_iff_exists_mem]
  simp only [List.mem_filter]

/-- The candidate of `simulate` is the first user of the scan with an open perp position. -/
theorem pickFrom_eq_scan {R : UserSource} {accounts : List (Pubkey × List UInt8)} :
    (pickFrom R accounts).map Candidate.liqCandidate =
      ((accounts.filterMap (userOf R)).map Candidate.liqCandidate).find?
        fun c => decide (0 < c.nPerpPositions) := by
  rw [pickFrom_eq, List.find?_map]
  congr 2
  funext c
  show c.hasPerp = decide (0 < c.liqCandidate.nPerpPositions)
  rw [Bool.eq_iff_iff, decide_eq_true_iff, hasPerp_iff]

/-- **The listing of `paper`.** Its lines are the first twenty users of the RPC's
answer, the ones with more open positions first and otherwise in that order; the
total is theirs, and the counts of the scan account for every account. -/
theorem paper_lists_first_twenty (R : UserSource) (arg : Option String)
    (accounts : List (Pubkey × List UInt8))
    (h : R.getProgramAccounts (scanScope arg).filters = .ok accounts) :
    ∃ (lines : List LiqCandidate) (total : ℕ), paper R arg = .ok (lines, total) ∧
      (let first := ((accounts.filterMap (userOf R)).map Candidate.liqCandidate).take 20
      lines.Perm first ∧ lines.Pairwise (fun a b => b.positions ≤ a.positions) ∧
      (∀ n, lines.filter (fun c => decide (c.positions = n)) =
        first.filter fun c => decide (c.positions = n)) ∧
      total = (first.map LiqCandidate.positions).sum) ∧
      (scanAll R accounts).counted = accounts.length ∧
      (scanAll R accounts).marginFailures = 0 ∧ (scanAll R accounts).zeroMargin = 0 := by
  obtain ⟨_, hcounted, hfailures, hzero⟩ :=
    @scan_foldl R accounts ScanState.new
  let first := ((accounts.filterMap (userOf R)).map Candidate.liqCandidate).take 20
  let le : LiqCandidate → LiqCandidate → Bool := fun a b => decide (b.positions ≤ a.positions)
  have htrans : ∀ a b c, le a b = true → le b c = true → le a c = true := by
    intro a b c hab hbc
    apply decide_eq_true
    exact (of_decide_eq_true hbc).trans (of_decide_eq_true hab)
  have htotal : ∀ a b, (le a b || le b a) = true := by
    intro a b
    rw [Bool.or_eq_true]
    rcases le_total b.positions a.positions with hle | hle
    · exact Or.inl (decide_eq_true hle)
    · exact Or.inr (decide_eq_true hle)
  have hperm : (first.mergeSort le).Perm first := List.mergeSort_perm first le
  have htake : (first.mergeSort le).take 20 = first.mergeSort le := by
    apply List.take_of_length_le
    rw [hperm.length_eq]
    exact List.length_take_le 20 _
  refine ⟨first.mergeSort le, ((first.mergeSort le).map LiqCandidate.positions).sum, ?_, ?_, ?_,
    hfailures, hzero⟩
  · unfold paper
    rw [scanUsers_eq h]
    show Except.ok ((first.mergeSort le).take 20, _) = _
    rw [htake]
  · refine ⟨hperm, ?_, ?_, (hperm.map _).sum_eq⟩
    · exact (List.pairwise_mergeSort htrans htotal first).imp of_decide_eq_true
    · intro n
      apply filter_mergeSort htrans htotal
      intro a b ha hb
      apply decide_eq_true
      rw [of_decide_eq_true ha, of_decide_eq_true hb]
  · unfold scanAll
    rw [hcounted]
    exact Nat.zero_add _

/-! Of four accounts one has the wrong size and one does not decode. -/

def sampleSource : UserSource where
  getProgramAccounts _ := .ok [(Bytes.zero 32, [1]), (Bytes.zero 32, [0, 0]), (Bytes.zero 32, [2]),
    (Bytes.zero 32, [0])]
  expectedUserLen := 1
  user data :=
    match data with
    | [1] => .ok ⟨⟨Bytes.zero 32, [⟨0, false⟩], []⟩, 0, false, false⟩
    | [2] => .ok ⟨⟨Bytes.zero 32, [⟨0, false⟩, ⟨3, true⟩], [⟨1, false⟩]⟩, 7, false, false⟩
    | _ => .panic .lengthMismatch

theorem paper_lists_first_twenty_sample :
    ∃ lines : List LiqCandidate, paper sampleSource none = .ok (lines, 3) ∧
      lines.Pairwise fun a b => b.positions ≤ a.positions := by
  obtain ⟨lines, total, hpaper, ⟨_, hsorted, _, htotal⟩, _⟩ :=
    paper_lists_first_twenty sampleSource none _ rfl
  have h : total = 3 := htotal.trans (by decide)
  subst h
  exact ⟨lines, hpaper, hsorted⟩

end Lattica.Liquidator
