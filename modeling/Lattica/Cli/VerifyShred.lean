import Lattica.Foundation.Hex
import Lattica.Listener.Deliveries
import Lattica.Listener.LeaderRpc

/-!
# Verifying a shred from a file

`verify-shred` of `crates/cli/src/main.rs` takes a file for a hex dump if all
its bytes are digits or white space, and for the shred itself otherwise. No
shred that verifies has only such bytes, so the guess never costs a valid one.
-/

namespace Lattica.Cli

open Foundation Shred Listener

/-- `pubkey_from_b58`, with its `expect` and its assertion. -/
def pubkeyFromB58 {ε : Type} (E : Bs58) (s : String) : Exec ε (Bytes 32) :=
  match E.decode s with
  | .error _ => .panic .unwrap
  | .ok v => toArray 32 v

/-! ## The file -/

/-- `u8::is_ascii_hexdigit`. -/
def isAsciiHexdigit (b : UInt8) : Bool := Hex.isDigit (.ofNat b.toNat)

/-- `u8::is_ascii_whitespace`: no vertical tab. -/
def isAsciiWhitespace (b : UInt8) : Bool :=
  b = 32 || b = 9 || b = 10 || b = 12 || b = 13

/-- `cleaned`. -/
def cleaned (bytes : List UInt8) : List Char :=
  (bytes.filter fun b => !isAsciiWhitespace b).map fun b => .ofNat b.toNat

/-- `raw`, of the bytes of the file. -/
def readShred (bytes : List UInt8) : Exec Empty (List UInt8) :=
  if bytes.all fun b => isAsciiHexdigit b || isAsciiWhitespace b then
    match Hex.decode (cleaned bytes) with
    | some raw => .ok raw
    | none => .panic .unwrap
  else .ok bytes

/-- `cmd_verify_shred`, from the bytes of the file on: what it prints, and its exit code. -/
def cmdVerifyShred (C : Crates) (P : Profile) (E : Bs58) (bytes : List UInt8)
    (leaderB58 : String) : Exec Empty (Except ShredError VerifiedShred) := do
  let raw ← readShred bytes
  let leader ← pubkeyFromB58 E leaderB58
  (verifyShred C P raw leader).attempt

/-! ## Dumps -/

/-- The file has digits and white space only. -/
def Textual (file : List UInt8) : Prop :=
  ∀ b ∈ file, (isAsciiHexdigit b || isAsciiWhitespace b) = true

/-- The file is the bytes in hexadecimal, in either case, with white space anywhere. -/
def Dumps (file raw : List UInt8) : Prop := (cleaned file).map Char.toLower = Hex.encode raw

section File

variable {file raw : List UInt8}

theorem Dumps.textual (h : Dumps file raw) : Textual file := by
  intro b hb
  rw [Bool.or_eq_true]
  cases hspace : isAsciiWhitespace b with
  | true => exact Or.inr rfl
  | false =>
      left
      have hmem : Char.ofNat b.toNat ∈ cleaned file := by
        apply List.mem_map_of_mem
        rw [List.mem_filter, hspace]
        exact ⟨hb, rfl⟩
      have hlower := List.mem_map_of_mem (f := Char.toLower) hmem
      rw [h] at hlower
      exact Hex.isDigit_of_toLower (Hex.isDigit_of_mem_encode _ hlower)

theorem isDigit_of_mem_cleaned (h : Textual file) : ∀ c ∈ cleaned file, Hex.isDigit c = true := by
  intro c hc
  obtain ⟨b, hb, rfl⟩ := List.mem_map.mp hc
  obtain ⟨hb, hspace⟩ := List.mem_filter.mp hb
  have htext := h b hb
  rw [Bool.not_eq_true'] at hspace
  rw [hspace, Bool.or_false] at htext
  exact htext

theorem all_eq_true_iff : (file.all fun b => isAsciiHexdigit b || isAsciiWhitespace b) = true ↔
    Textual file := List.all_eq_true

/-- A dump is read as the bytes it shows, any other file as it is. -/
theorem readShred_eq_ok : readShred file = .ok raw ↔
    Dumps file raw ∨ ¬ Textual file ∧ raw = file := by
  unfold readShred
  by_cases htext : Textual file
  · rw [if_pos (all_eq_true_iff.mpr htext)]
    simp only [htext, not_true_eq_false, false_and, or_false]
    unfold Dumps
    rw [← Hex.decode_eq_some_iff]
    cases Hex.decode (cleaned file) with
    | none => simp
    | some raw' => simp
  · rw [if_neg fun h => htext (all_eq_true_iff.mp h), Exec.ok.injEq]
    constructor
    · intro h
      exact Or.inr ⟨htext, h.symm⟩
    · rintro (h | ⟨_, h⟩)
      · exact absurd h.textual htext
      · exact h.symm

example : readShred [54, 98, 10, 55, 65] = .ok [0x6b, 0x7a] := rfl

/-- Only a text with a digit left over cannot be read. -/
theorem readShred_isPanic_iff : (readShred file).IsPanic ↔
    Textual file ∧ ¬ Even (cleaned file).length := by
  unfold readShred
  by_cases htext : Textual file
  · rw [if_pos (all_eq_true_iff.mpr htext)]
    have hread : (∃ bs, Hex.decode (cleaned file) = some bs) ↔ Even (cleaned file).length := by
      rw [Hex.exists_decode_iff]
      exact and_iff_left (isDigit_of_mem_cleaned htext)
    rw [← hread]
    cases Hex.decode (cleaned file) with
    | none => simp [htext]
    | some raw' => simp
  · rw [if_neg fun h => htext (all_eq_true_iff.mp h)]
    simp [htext]

end File

/-! ## Shreds are no text -/

/-- The variant bytes that are text are those of coding shreds with a short proof. -/
theorem variant_of_textual {b : UInt8} {v : ShredVariant}
    (h : (isAsciiHexdigit b || isAsciiWhitespace b) = true) (hv : ShredVariant.decode b = .ok v) :
    v.kind = .code ∧ v.proofSize.toNat ≤ 6 := by
  have hbytes : ∀ n : Fin 256,
      (isAsciiHexdigit (.ofFin n) || isAsciiWhitespace (.ofFin n)) = true →
      UInt8.ofFin n &&& 0xf0 ≠ 0x90 ∧ UInt8.ofFin n &&& 0xf0 ≠ 0xb0 ∧
        (UInt8.ofFin n &&& 0xf0 = 0x60 ∨ UInt8.ofFin n &&& 0xf0 = 0x70 →
          (UInt8.ofFin n &&& 0x0f).toNat ≤ 6) := by
    decide +kernel
  obtain ⟨hdata, hresigned, hsize⟩ := hbytes b.toFin h
  unfold ShredVariant.decode at hv
  dsimp only at hv
  split_ifs at hv with h6 h7 h9 hb
  · cases hv
    exact ⟨rfl, hsize (Or.inl h6)⟩
  · cases hv
    exact ⟨rfl, hsize (Or.inr h7)⟩
  · exact absurd h9 hdata
  · exact absurd hb hresigned

theorem not_textual_zero : ¬ (isAsciiHexdigit 0 || isAsciiWhitespace 0) = true := by decide

section Verified

variable {C : Crates} {P : Profile} {raw : List UInt8} {pk : Bytes 32} {v : ShredVariant} {i : ℕ}

theorem Textual.getD {file : List UInt8} (h : Textual file) {k : ℕ} (hk : k < file.length) :
    (isAsciiHexdigit (file.getD k 0) || isAsciiWhitespace (file.getD k 0)) = true := by
  rw [List.getD_eq_getElem _ _ hk]
  exact h _ (List.getElem_mem hk)

/-- A shred that verifies has a byte that is no text: the variant, or the upper
half of a position below 32. -/
theorem not_textual_of_verified (h : Verified C P raw pk v i) : ¬ Textual raw := by
  intro htext
  have hlen : 89 ≤ raw.length := (le_trans (by decide) v.expectedLen_le.1).trans h.full
  obtain ⟨hcode, hsize⟩ := variant_of_textual (htext.getD (by omega)) h.decodes
  have hindex := h.index
  rw [indexOf_code hcode hlen] at hindex
  injection hindex with hindex
  have hlt : i < 2 ^ 6 := h.index_lt.trans_le (Nat.pow_le_pow_right (by decide) hsize)
  have hposition : cut raw 87 89 = [raw.getD 87 0, raw.getD 88 0] := by
    apply List.ext_getElem
    · rw [length_cut hlen]
      rfl
    · intro k hk hk'
      rw [← List.getD_eq_getElem _ 0 hk, ← List.getD_eq_getElem _ 0 hk']
      match k, hk' with
      | 0, _ => exact getD_cut raw (by decide)
      | 1, _ => exact getD_cut raw (by decide)
  rw [hposition] at hindex
  have hzero : raw.getD 88 0 = 0 := by
    apply UInt8.toNat_inj.mp
    show (raw.getD 88 0).toNat = 0
    have hsum : fromLe [raw.getD 87 0, raw.getD 88 0] =
        (raw.getD 87 0).toNat + 256 * ((raw.getD 88 0).toNat + 256 * 0) := rfl
    omega
  have hbyte := htext.getD (k := 88) (by omega)
  rw [hzero] at hbyte
  exact not_textual_zero hbyte

/-- A file that is the shred is taken for the shred. -/
theorem readShred_of_verified (h : Verified C P raw pk v i) : readShred raw = .ok raw :=
  readShred_eq_ok.mpr (Or.inr ⟨not_textual_of_verified h, rfl⟩)

end Verified

/-! ## The command -/

section Command

variable {E : Bs58} {s : String}

theorem pubkeyFromB58_eq_ok {ε : Type} {pk : Bytes 32} :
    (pubkeyFromB58 E s : Exec ε (Bytes 32)) = .ok pk ↔ E.decode s = .ok pk.1 := by
  unfold pubkeyFromB58
  cases hdecode : E.decode s with
  | error e => simp
  | ok bytes =>
      dsimp only
      rw [Except.ok.injEq]
      constructor
      · intro h
        unfold toArray at h
        split at h
        · injection h with h
          rw [← h]
        · cases h
      · rintro rfl
        rw [toArray_eq_asArray pk.2, asArray_self]

theorem pubkeyFromB58_isPanic_iff {ε : Type} :
    (pubkeyFromB58 E s : Exec ε (Bytes 32)).IsPanic ↔ ¬ ∃ pk : Bytes 32, E.decode s = .ok pk.1 := by
  unfold pubkeyFromB58
  cases hdecode : E.decode s with
  | error e => simp
  | ok bytes =>
      dsimp only
      unfold toArray
      split
      · next hlen =>
          simp only [Exec.not_isPanic_ok, false_iff, not_not]
          exact ⟨⟨bytes, hlen⟩, rfl⟩
      · next hlen =>
          simp only [Exec.isPanic_panic, true_iff]
          rintro ⟨pk, h⟩
          injection h with h
          rw [h] at hlen
          exact hlen pk.2

variable {C : Crates} {P : Profile} {file : List UInt8} {w : VerifiedShred}

theorem cmdVerifyShred_eq_ok : cmdVerifyShred C P E file s = .ok (.ok w) ↔
    ∃ (raw : List UInt8) (leader : Bytes 32), (file = raw ∨ Dumps file raw) ∧
      E.decode s = .ok leader.1 ∧ verifyShred C P raw leader = .ok w := by
  unfold cmdVerifyShred
  rw [Exec.bind_eq_ok]
  constructor
  · rintro ⟨raw, hraw, h⟩
    obtain ⟨leader, hleader, h⟩ := Exec.bind_eq_ok.mp h
    refine ⟨raw, leader, ?_, pubkeyFromB58_eq_ok.mp hleader, Exec.attempt_eq_ok_ok.mp h⟩
    rcases readShred_eq_ok.mp hraw with hdump | ⟨_, heq⟩
    · exact Or.inr hdump
    · exact Or.inl heq.symm
  · rintro ⟨raw, leader, hfile, hleader, hverify⟩
    have hraw : readShred file = .ok raw := by
      rcases hfile with rfl | hdump
      · obtain ⟨v, i, hverified, _⟩ := verifyShred_eq_ok hverify
        exact readShred_of_verified hverified
      · exact readShred_eq_ok.mpr (Or.inl hdump)
    refine ⟨raw, hraw, ?_⟩
    rw [pubkeyFromB58_eq_ok.mpr hleader, Exec.ok_bind]
    exact Exec.attempt_eq_ok_ok.mpr hverify

/-- What `build_fec_set` makes passes, in a file of its own or dumped. -/
theorem cmdVerifyShred_built (hC : C.AcceptsHonestSignatures) (hE : E.RoundTrips)
    (B : BuiltSet C P) (i : Fin 64) (hfile : file = B.shred i ∨ Dumps file (B.shred i)) :
    cmdVerifyShred C P E file (E.encode B.set.leaderPubkey.1) =
      .ok (.ok (B.admission i).shred) := by
  apply cmdVerifyShred_eq_ok.mpr
  exact ⟨B.shred i, B.set.leaderPubkey, hfile, hE _, (B.verified hC i).verifyShred_eq⟩

end Command

/-- **The guess is right.** A file is accepted exactly if it is a shred that
verifies, as it is or dumped, and never both; and the command panics exactly on a
text with a digit left over, a key that is none, or a shred that underflows. -/
theorem verify_shred_file_exact (C : Crates) (P : Profile) (E : Bs58) (file : List UInt8)
    (leaderB58 : String) :
    (∀ w, cmdVerifyShred C P E file leaderB58 = .ok (.ok w) ↔
      ∃ (raw : List UInt8) (leader : Bytes 32), (file = raw ∨ Dumps file raw) ∧
        E.decode leaderB58 = .ok leader.1 ∧ verifyShred C P raw leader = .ok w) ∧
    (∀ raw leader w, Dumps file raw → verifyShred C P file leader ≠ .ok w) ∧
    ((cmdVerifyShred C P E file leaderB58).IsPanic ↔
      (Textual file ∧ ¬ Even (cleaned file).length) ∨
      ∃ raw, (Dumps file raw ∨ ¬ Textual file ∧ raw = file) ∧
        ((¬ ∃ leader : Bytes 32, E.decode leaderB58 = .ok leader.1) ∨
          IndexUnderflow raw ∧ P.overflowChecks = true)) := by
  refine ⟨fun _ => cmdVerifyShred_eq_ok, ?_, ?_⟩
  · intro raw leader w hdump hverify
    obtain ⟨v, i, hverified, _⟩ := verifyShred_eq_ok hverify
    exact not_textual_of_verified hverified hdump.textual
  · unfold cmdVerifyShred
    rw [Exec.bind_isPanic_iff, readShred_isPanic_iff]
    apply or_congr_right
    apply exists_congr
    intro raw
    rw [readShred_eq_ok]
    apply and_congr_right
    intro _
    rw [Exec.bind_isPanic_iff, pubkeyFromB58_isPanic_iff]
    simp only [pubkeyFromB58_eq_ok, Exec.attempt_isPanic_iff, verifyShred_isPanic_iff,
      parseShred_isPanic_iff]
    constructor
    · rintro (hbad | ⟨leader, _, hpanic⟩)
      · exact Or.inl hbad
      · exact Or.inr hpanic
    · rintro (hbad | hpanic)
      · exact Or.inl hbad
      · by_cases hleader : ∃ leader : Bytes 32, E.decode leaderB58 = .ok leader.1
        · obtain ⟨leader, hleader⟩ := hleader
          exact Or.inr ⟨leader, hleader, hpanic⟩
        · exact Or.inl hleader

end Lattica.Cli
