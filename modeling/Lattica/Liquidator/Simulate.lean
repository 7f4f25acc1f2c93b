import Lattica.Liquidator.Scanner
import Mathlib.Data.List.Infix

/-!
# The simulation

`run` of `crates/liquidator/src/simulate.rs`: markets, candidate, instruction,
simulation, verdict. The one step that can panic is the builder, and it does
where the candidate has a position in a market the cache stops short of.
-/

namespace Lattica.Liquidator

open Foundation

/-- `str::contains`. -/
def contains (line s : String) : Bool := decide (s.toList <:+: line.toList)

/-- Seeds `[b"user", authority, sub_account_id]`. -/
def Program.userPda (D : Program) (authority : Pubkey) (subAccountId : UInt16) : Pubkey :=
  (D.findProgramAddress [[117, 115, 101, 114], authority.1, toLe 2 subAccountId.toNat]
    D.programId).1

section Pick

variable {R : UserSource} {c : Candidate}

/-- The first user with an open perp position among the accounts of the RPC. -/
def Picked (R : UserSource) (c : Candidate) : Prop :=
  ∃ accounts, R.getProgramAccounts [.user, .userWithOrder] = .ok accounts ∧
    (accounts.filterMap (userOf R)).find? Candidate.hasPerp = some c

/-- The target is there: the candidate was picked for it. -/
theorem Picked.target (h : Picked R c) :
    ∃ p ∈ c.data.perpPositions, p.isAvailable = false ∧
      c.data.perpPositions.find? (!·.isAvailable) = some p := by
  obtain ⟨accounts, _, hfind⟩ := h
  have hperp : c.hasPerp = true := List.find?_some hfind
  unfold Candidate.hasPerp at hperp
  rw [List.any_eq_true] at hperp
  obtain ⟨q, hq, havail⟩ := hperp
  cases htarget : c.data.perpPositions.find? (!·.isAvailable) with
  | none =>
      rw [List.find?_eq_none] at htarget
      exact absurd havail (htarget q hq)
  | some p =>
      refine ⟨p, List.mem_of_find?_eq_some htarget, ?_, rfl⟩
      simpa using List.find?_some htarget

end Pick

/-! ## The run -/

section Run

variable {D : Program} {N : Node} {R : UserSource} {S : Simulator}

/-- The instruction for a candidate. -/
def built (D : Program) (markets : Markets) (c : Candidate) (marketIndex : UInt16) :
    Exec Empty Instruction :=
  buildLiquidatePerpIx D c.data.authority (D.userPda c.data.authority c.data.subAccountId)
    c.data.toUser c.pubkey c.data.toUser marketIndex (.ofNat (2 ^ 64 - 1)) none markets

end Run

end Lattica.Liquidator
