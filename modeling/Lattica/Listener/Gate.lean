import Lattica.Listener.Assembler

/-!
# The gate of `ingest`

Parser, leader lookup and signature decide, without looking at the assembler,
whether a datagram is admitted and as what. `ingest` is the gate followed by
`ingestAdmitted`, and the gate panics only where the parser does.
-/

namespace Lattica.Listener

open Foundation Shred Reedsol

variable {C : Crates} {P : Profile} {a : FecAssembler} {raw : List UInt8} {leaders : Leaders}

/-- An accepted shred: what `verify_shred` reports, and its erasure region. -/
structure Admitted where
  shred : VerifiedShred
  bytes : List UInt8

namespace Admitted

def key (x : Admitted) : FecKey := ⟨x.shred.slot, x.shred.fecSetIndex⟩

def root (x : Admitted) : Bytes 32 := x.shred.merkleRoot

def idx (x : Admitted) : ℕ := x.shred.erasureShardIndex

/-- A data shred with the LAST_IN_SLOT bit. -/
def isLast (x : Admitted) : Bool := x.shred.isLastInSlot

end Admitted

/-- The shred as the assembler takes it. -/
def admittedAs (C : Crates) (raw : List UInt8) (v : ShredVariant) (i : ℕ) : Admitted where
  shred := verifiedOf C raw v i
  bytes := cut raw (regionOffset v.kind) (regionOffset v.kind + erasureShardSize)

/-- The gate: the reason a datagram is rejected for, or the admitted shred. -/
def gate (C : Crates) (P : Profile) (leaderForSlot : Leaders) (raw : List UInt8) :
    Exec Empty (Except String Admitted) := do
  match ← (parseShred P raw).attempt with
  | .error e => return .error s!"parse: {e}"
  | .ok parsed =>
      match leaderForSlot parsed.header.slot with
      | none => return .error s!"no leader for slot {parsed.header.slot}"
      | some leaderPubkey =>
          match ← (verifyShred C P raw leaderPubkey).attempt with
          | .error e => return .error s!"verify: {e}"
          | .ok v =>
              return .ok ⟨v, cut raw (regionOffset v.kind) (regionOffset v.kind + erasureShardSize)⟩

/-- `ingest` past the gate. -/
def ingestAdmitted (C : Crates) (P : Profile) (a : FecAssembler) (x : Admitted) :
    Exec Empty (FecAssembler × List FecEvent) :=
  let st := a.stateOf x.key
  let a := (a.setState x.key st).setSlot x.key.slot (bookkeep x.shred (a.slotOf x.key.slot))
  if st.reconstructed then do
    let (a, ev) ← tryFinalizeSlot C P a x.key.slot
    return (a, ev.toList)
  else
    match recordRoot x.key x.root st with
    | none =>
        .ok (a, [.rejected "merkle root diverges within FEC set (leader equivocation?)"])
    | some (st, events) => storeShard C P (a.setState x.key st) x.key st x.idx x.bytes events

/-- The erasure region of an accepted shred is inside the datagram. -/
theorem region_le {v : ShredVariant} (hlen : v.expectedLen ≤ raw.length) :
    regionOffset v.kind + 987 ≤ raw.length := by
  cases hk : v.kind with
  | data =>
      simp only [ShredVariant.expectedLen, hk] at hlen
      simp only [regionOffset, dataShredPayloadSize, sizeOfSignature] at hlen ⊢
      omega
  | code =>
      simp only [ShredVariant.expectedLen, hk] at hlen
      simp only [regionOffset, codingShredPayloadSize] at hlen ⊢
      omega

theorem length_admittedAs {v : ShredVariant} {i : ℕ} (hlen : v.expectedLen ≤ raw.length) :
    (admittedAs C raw v i).bytes.length = 987 := by
  have hle := region_le hlen
  simp only [admittedAs, erasureShardSize]
  rw [length_cut hle, Nat.add_sub_cancel_left]

/-- What is admitted is an accepted shred of the slot's leader. -/
theorem gate_eq_admitted {x : Admitted} (h : gate C P leaders raw = .ok (.ok x)) :
    ∃ v i pk, leaders (headerOf raw v).slot = some pk ∧ Verified C P raw pk v i ∧
      x = admittedAs C raw v i := by
  unfold gate at h
  cases hp : parseShred P raw with
  | panic q => simp [hp] at h
  | err e => simp [hp] at h
  | ok p =>
      obtain ⟨v', i', hv', _, _, rfl⟩ := parseShred_eq_ok hp
      rw [hp] at h
      simp only [Exec.attempt_ok, Exec.ok_bind, parsed] at h
      cases hl : leaders (headerOf raw v').slot with
      | none => simp [hl] at h
      | some pk =>
          simp only [hl] at h
          cases hver : verifyShred C P raw pk with
          | panic q => simp [hver] at h
          | err e => simp [hver] at h
          | ok w =>
              obtain ⟨v, i, hverified, rfl⟩ := verifyShred_eq_ok hver
              simp only [hver, Exec.attempt_ok, Exec.ok_bind, Exec.pure_eq, Exec.ok.injEq,
                Except.ok.injEq] at h
              refine ⟨v, i, pk, ?_, hverified, h.symm⟩
              have hvv : v = v' := by
                have hd := hverified.decodes
                rw [hv'] at hd
                exact (Except.ok.inj hd).symm
              rw [hvv]
              exact hl

/-- An accepted shred of the slot's leader is admitted. -/
theorem Verified.gate_eq {pk : Bytes 32} {v : ShredVariant} {i : ℕ}
    (h : Verified C P raw pk v i) (hl : leaders (headerOf raw v).slot = some pk) :
    gate C P leaders raw = .ok (.ok (admittedAs C raw v i)) := by
  unfold gate
  rw [parseShred_eq h.decodes h.full, h.index, Exec.ok_bind]
  simp only [Exec.attempt_ok, Exec.ok_bind, parsed, hl]
  rw [h.verifyShred_eq]
  rfl

/-- The gate panics exactly where the parser does. -/
theorem gate_isPanic_iff : (gate C P leaders raw).IsPanic ↔ (parseShred P raw).IsPanic := by
  unfold gate
  cases hp : parseShred P raw with
  | panic q => simp
  | err e => simp
  | ok p =>
      simp only [Exec.attempt_ok, Exec.ok_bind]
      cases leaders p.header.slot with
      | none => simp
      | some pk =>
          have hver : (verifyShred C P raw pk).IsPanic ↔ _ := verifyShred_isPanic_iff pk
          rw [hp] at hver
          cases hw : verifyShred C P raw pk with
          | panic q =>
              rw [hw] at hver
              simp at hver
          | err e => simp [hw]
          | ok w => simp [hw]

/-- **`ingest` is the gate, then the assembler.** -/
theorem ingest_eq_gate (a : FecAssembler) :
    ingest C P leaders a raw = gate C P leaders raw >>= fun r =>
      match r with
      | .error reason => .ok (a, [.rejected reason])
      | .ok x => ingestAdmitted C P a x := by
  unfold ingest gate
  cases hp : parseShred P raw with
  | panic q => rfl
  | err e => rfl
  | ok p =>
      simp only [Exec.attempt_ok, Exec.ok_bind]
      cases hl : leaders p.header.slot with
      | none => rfl
      | some pk =>
          simp only
          cases hw : verifyShred C P raw pk with
          | panic q => rfl
          | err e => rfl
          | ok w =>
              obtain ⟨v, i, hverified, rfl⟩ := verifyShred_eq_ok hw
              rw [parseShred_eq hverified.decodes hverified.full, hverified.index] at hp
              cases hp
              have hle := region_le hverified.full
              simp only [Exec.attempt_ok, Exec.ok_bind, Exec.pure_eq, ingestVerified,
                ingestAdmitted, verifiedOf_kind]
              rw [slice_eq (by omega) (by simpa using hle)]
              rfl

end Lattica.Listener
