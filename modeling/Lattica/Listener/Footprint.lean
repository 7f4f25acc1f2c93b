import Lattica.Listener.Run
import Lattica.Shred.Binding
import Lattica.Shred.Footprint

/-!
# Bytes that have no influence

The assembler reads a datagram through the gate: the parsed fields, the verdict
of the verifier and the 987 bytes of the erasure region, which end before the
least place a proof can end. So the retransmitter signature and whatever trails
the shred change neither the events of a call nor the assembler.
-/

namespace Lattica.Listener

open Foundation Shred Reedsol

variable {C : Crates} {P : Profile} {a : FecAssembler} {raw raw' : List UInt8} {v : ShredVariant}
  {leaders : Leaders}

/-- The erasure region ends before every proof does. -/
theorem region_le_proofEnd (v : ShredVariant) : regionOffset v.kind + 987 ≤ v.proofEnd := by
  have hresign := v.resignBytes_le
  unfold ShredVariant.proofEnd ShredVariant.expectedLen regionOffset
  cases v.kind with
  | data =>
      simp only [dataShredPayloadSize, sizeOfSignature]
      omega
  | code =>
      simp only [codingShredPayloadSize]
      omega

section Prefix

variable (hv : ShredVariant.decode (raw.getD 64 0) = .ok v) (hlen : v.expectedLen ≤ raw.length)
  (hlen' : v.expectedLen ≤ raw'.length) (hpre : raw.take v.proofEnd = raw'.take v.proofEnd)

include hv hlen hlen' hpre

/-- The gate rejects or admits both buffers alike. -/
theorem gate_of_agree : gate C P leaders raw' = gate C P leaders raw := by
  unfold gate
  rw [parseShred_of_agree hv hlen hlen' hpre]
  cases parseShred P raw with
  | panic q => rfl
  | err e => rfl
  | ok p =>
      simp only [Exec.ok_bind, Exec.attempt_ok]
      cases leaders p.header.slot with
      | none => rfl
      | some pk =>
          simp only
          rw [verifyShred_of_agree hv hlen hlen' hpre]
          cases hw : verifyShred C P raw pk with
          | panic q => rfl
          | err e => rfl
          | ok w =>
              obtain ⟨u, i, hu, rfl⟩ := verifyShred_eq_ok hw
              have hkind : u = v := by
                have hdecodes := hu.decodes
                rw [hv] at hdecodes
                exact (Except.ok.inj hdecodes).symm
              subst hkind
              simp only [Exec.attempt_ok, Exec.ok_bind, verifiedOf_kind, erasureShardSize]
              rw [cut_of_take_eq hpre _ (region_le_proofEnd u)]

theorem ingest_of_agree (a : FecAssembler) :
    ingest C P leaders a raw' = ingest C P leaders a raw := by
  rw [ingest_eq_gate, ingest_eq_gate, gate_of_agree hv hlen hlen' hpre]

end Prefix

/-- **What is not signed and proven has no influence**: accepted buffers are
tiled, and buffers with the same bytes up to the end of the proof are parsed,
verified and ingested alike. -/
theorem unproven_bytes_inert (C : Crates) (P : Profile) :
    (∀ (raw : List UInt8) (p : ParsedShred), parseShred P raw = .ok p → Tiled raw p) ∧
    ∀ (raw raw' : List UInt8) (v : ShredVariant),
      ShredVariant.decode (raw.getD 64 0) = .ok v →
      v.expectedLen ≤ raw.length → v.expectedLen ≤ raw'.length →
      raw.take v.proofEnd = raw'.take v.proofEnd →
      parseShred P raw' = (parseShred P raw >>= fun p => .ok { p with raw := raw' }) ∧
      (∀ pk : Bytes 32, verifyShred C P raw' pk = verifyShred C P raw pk) ∧
      ∀ (leaders : Leaders) (a : FecAssembler), Reachable C P a →
        ingest C P leaders a raw' = ingest C P leaders a raw := by
  refine ⟨fun raw p h => parseShred_tiled h, ?_⟩
  intro raw raw' v hv hlen hlen' hpre
  refine ⟨parseShred_of_agree hv hlen hlen' hpre, ?_, ?_⟩
  · intro pk
    exact verifyShred_of_agree hv hlen hlen' hpre pk
  · intro leaders a _
    exact ingest_of_agree hv hlen hlen' hpre a

/-- A resigned shred whose retransmitter signature is overwritten, with six more
bytes behind it. -/
noncomputable def overwritten : List UInt8 :=
  (relayed 1).take relayVariant.proofEnd ++ List.replicate 70 9

theorem length_overwritten : overwritten.length = 1209 := by
  have hfull : 1203 ≤ (relayed 1).length := (verified_relayed 1).full
  have hend : relayVariant.proofEnd = 1139 := rfl
  rw [overwritten, List.length_append, List.length_take, List.length_replicate, hend]
  omega

theorem take_overwritten :
    (relayed 1).take relayVariant.proofEnd = overwritten.take relayVariant.proofEnd := by
  have hfull : 1203 ≤ (relayed 1).length := (verified_relayed 1).full
  have hend : relayVariant.proofEnd = 1139 := rfl
  rw [overwritten, List.take_left']
  rw [List.length_take, hend]
  omega

theorem unproven_bytes_inert_overwritten :
    Tiled (relayed 1) (parsed (relayed 1) relayVariant 0) ∧
    parseShred ⟨true⟩ overwritten = (parseShred ⟨true⟩ (relayed 1) >>= fun p =>
      .ok { p with raw := overwritten }) ∧
    (∀ pk : Bytes 32, verifyShred (referenceCrates sha256) ⟨true⟩ overwritten pk =
      verifyShred (referenceCrates sha256) ⟨true⟩ (relayed 1) pk) ∧
    ingest (referenceCrates sha256) ⟨true⟩
        (fun _ => some ((referenceCrates sha256).verifyingKey (sampleKey sha256))) .new
        overwritten =
      ingest (referenceCrates sha256) ⟨true⟩
        (fun _ => some ((referenceCrates sha256).verifyingKey (sampleKey sha256))) .new
        (relayed 1) := by
  have hverified := verified_relayed 1
  have hparse : parseShred ⟨true⟩ (relayed 1) = .ok (parsed (relayed 1) relayVariant 0) := by
    rw [parseShred_eq hverified.decodes hverified.full, hverified.index]
    rfl
  obtain ⟨htiled, hinert⟩ := unproven_bytes_inert (referenceCrates sha256) ⟨true⟩
  obtain ⟨hp, hw, hi⟩ := hinert (relayed 1) overwritten relayVariant hverified.decodes
    hverified.full (by rw [length_overwritten]; decide) take_overwritten
  exact ⟨htiled _ _ hparse, hp, hw, hi _ _ reachable_new⟩

end Lattica.Listener
