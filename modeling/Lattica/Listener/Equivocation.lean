import Lattica.Listener.Marker
import Lattica.Listener.Protocol

/-!
# Equivocation

A shred accepted under another root than its set's. While the set is pending the
call returns the rejection and nothing else; once the set is reconstructed the
roots are not compared any more, and nothing is reported of the set.
-/

namespace Lattica.Listener

open Foundation Shred Reedsol

variable {C : Crates} {P : Profile} {a : FecAssembler} {x : Admitted} {st : FecState}
  {ss : SlotState} {es : List FecEvent}

/-- The reason a diverging shred is rejected with. -/
def divergesReason : String := "merkle root diverges within FEC set (leader equivocation?)"

theorem Exit.diverging (hexit : Exit C a x st ss es) {r : Bytes 32}
    (hroot : (a.stateOf x.key).merkleRoot = some r) (hne : r ≠ x.root) :
    ((a.stateOf x.key).reconstructed = false → es = [.rejected divergesReason]) ∧
      ((a.stateOf x.key).reconstructed = true → ∀ e ∈ es, e.isSlotFinalized = true) := by
  -- no other exit compares the roots and goes on
  have hclosed : ¬ Open a x := fun hopen => hne (hopen.root r hroot)
  cases hexit with
  | settled hrec hc =>
      refine ⟨fun hpend => absurd (hpend.symm.trans hrec) (by decide), fun _ e he => ?_⟩
      cases hc with
      | waiting _ => cases he
      | final _ =>
          rw [List.mem_singleton.mp he]
          rfl
  | diverges hpend _ _ =>
      exact ⟨fun _ => rfl, fun hrec => absurd (hpend.symm.trans hrec) (by decide)⟩
  | outOfRange hopen _ => exact absurd hopen hclosed
  | duplicate hopen _ => exact absurd hopen hclosed
  | accepted hopen _ _ => exact absurd hopen hclosed
  | failed hopen _ _ _ => exact absurd hopen hclosed
  | recovered hopen _ _ _ _ => exact absurd hopen hclosed

/-! ## Two lone shreds of one set -/

/-- The state after the lone shred with flags 0x80. -/
theorem loneRun : ∃ a es, ingestAll (referenceCrates sha256) ⟨true⟩ .new [loneCall 0x80] =
      .ok (a, es) ∧ (a.stateOf ⟨0, 0⟩).merkleRoot = some (loneAdmitted 0x80).root ∧
      (a.stateOf ⟨0, 0⟩).reconstructed = false := by
  have hgates : ∀ c ∈ [loneCall 0x80],
      ∃ x, gate (referenceCrates sha256) ⟨true⟩ c.leaders c.raw = .ok (.ok x) := by
    intro c hc
    rw [List.mem_singleton.mp hc]
    exact ⟨_, gate_lone 0x80⟩
  obtain ⟨a, es, hrun⟩ := run_of_admits hgates
  have hH : admitted (referenceCrates sha256) ⟨true⟩ [loneCall 0x80] = [loneAdmitted 0x80] := by
    rw [admitted, List.filterMap_cons, admit_of_gate (gate_lone 0x80), List.filterMap_nil]
  obtain ⟨hwf, ht⟩ := run_tracks hrun
  have hone : ∀ y ∈ admitted (referenceCrates sha256) ⟨true⟩ [loneCall 0x80], y.key = ⟨0, 0⟩ →
      y.root = (loneAdmitted 0x80).root := by
    intro y hy _
    rw [hH] at hy
    rw [List.mem_singleton.mp hy]
  refine ⟨a, es, hrun, ?_, ?_⟩
  · rw [ht.root]
    exact firstRoot_of_one hone ⟨_, by rw [hH]; exact List.mem_singleton_self _, lone_key 0x80⟩
  · -- one shred is not 32
    rw [← Bool.not_eq_true, ht.reconstructed_iff hwf (fun _ => length_of_mem_admitted)
      referenceCrates_decodesMds.reconstructsEqualLengths hone]
    have hsub : positions (admitted (referenceCrates sha256) ⟨true⟩ [loneCall 0x80]) ⟨0, 0⟩ ⊆
        Finset.univ.filter fun i : Fin 64 => i.1 = (loneAdmitted 0x80).idx := by
      intro i hi
      obtain ⟨y, hy, _, hidx⟩ := mem_positions.mp hi
      rw [hH] at hy
      rw [Finset.mem_filter, ← hidx, List.mem_singleton.mp hy]
      exact ⟨Finset.mem_univ i, rfl⟩
    have hcard : (Finset.univ.filter fun i : Fin 64 => i.1 = (loneAdmitted 0x80).idx).card ≤ 1 := by
      rw [Finset.card_le_one]
      intro i hi j hj
      rw [Finset.mem_filter] at hi hj
      exact Fin.ext (hi.2.trans hj.2.symm)
    exact fun hmany => absurd (hmany.trans ((Finset.card_le_card hsub).trans hcard)) (by decide)

/-! ## What is reported -/

/-- **Equivocation is reported while the set is pending**, and not afterwards. -/
theorem equivocation_reported (C : Crates) (P : Profile) (a : FecAssembler)
    (ha : Reachable C P a) (c : Call) (w : VerifiedShred) (hw : c.Accepts C P w) (r : Bytes 32)
    (hroot : (a.stateOf ⟨w.slot, w.fecSetIndex⟩).merkleRoot = some r) (hne : r ≠ w.merkleRoot) :
    ∃ a' es, ingest C P c.leaders a c.raw = .ok (a', es) ∧
      ((a.stateOf ⟨w.slot, w.fecSetIndex⟩).reconstructed = false →
        es = [.rejected divergesReason]) ∧
      ((a.stateOf ⟨w.slot, w.fecSetIndex⟩).reconstructed = true →
        ∀ e ∈ es, e.isSlotFinalized = true) := by
  obtain ⟨x, hgate, rfl⟩ := gate_of_accepts hw
  obtain ⟨st, ss, es, hstep, hexit⟩ := ingest_admitted ha.wellFormed hgate
  exact ⟨_, es, hstep, hexit.diverging hroot hne⟩

/-- The lone shred with flags 0xc0, after the one with 0x80. -/
theorem equivocation_reported_lone : ∃ a a', Reachable (referenceCrates sha256) ⟨true⟩ a ∧
    ingest (referenceCrates sha256) ⟨true⟩ (loneCall 0xc0).leaders a (loneCall 0xc0).raw =
      .ok (a', [.rejected divergesReason]) := by
  obtain ⟨a, es, hrun, hroot, hpend⟩ := loneRun
  have hkey : (⟨(loneAdmitted 0xc0).shred.slot, (loneAdmitted 0xc0).shred.fecSetIndex⟩ : FecKey) =
      ⟨0, 0⟩ := lone_key 0xc0
  have hne : (loneAdmitted 0x80).root ≠ (loneAdmitted 0xc0).shred.merkleRoot := by
    intro heq
    exact sha256_lone_ne (by rw [← lone_root, ← lone_root]; exact heq)
  obtain ⟨a', es', hstep, hreport, _⟩ := equivocation_reported _ ⟨true⟩ a ⟨_, es, hrun⟩
    (loneCall 0xc0) _ (accepts_of_gate (gate_lone 0xc0)) _ (by rw [hkey, hroot]) hne
  rw [hkey] at hreport
  exact ⟨a, a', ⟨_, es, hrun⟩, by rw [hstep, hreport hpend]⟩

/-- A reconstructed set takes a diverging shred without a word. -/
theorem equivocation_unreported : ∃ (a : FecAssembler) (c : Call) (w : VerifiedShred)
    (r : Bytes 32) (a' : FecAssembler) (es : List FecEvent),
    Reachable (referenceCrates sha256) ⟨true⟩ a ∧
    c.Accepts (referenceCrates sha256) ⟨true⟩ w ∧
    (a.stateOf ⟨w.slot, w.fecSetIndex⟩).merkleRoot = some r ∧ r ≠ w.merkleRoot ∧
    ingest (referenceCrates sha256) ⟨true⟩ c.leaders a c.raw = .ok (a', es) ∧
    ∀ reason, .rejected reason ∉ es := by
  obtain ⟨_, a, es, _, hrun, hrec⟩ := exists_sampleRun 0 0 (by decide)
  have hwf := run_wellFormed hrun
  obtain ⟨r, hroot⟩ := hwf.root (stateOf_eq_of_reconstructed hrec)
  obtain ⟨flags, _, hne⟩ := exists_lone_ne r
  obtain ⟨st, ss, es', hstep, hexit⟩ := ingest_admitted hwf (gate_lone flags)
  have hkey := lone_key flags
  rw [← hkey] at hroot hrec
  refine ⟨a, loneCall flags, (loneAdmitted flags).shred, r, _, es', ⟨_, es, hrun⟩,
    accepts_of_gate (gate_lone flags), hroot, Ne.symm hne, hstep, fun reason hmem => ?_⟩
  have hfin := (hexit.diverging hroot (Ne.symm hne)).2 hrec _ hmem
  cases hfin

end Lattica.Listener
