import Lattica.Attest.Attestation
import Lattica.Foundation.Hex
import Lattica.Foundation.Json

/-!
# The JavaScript boundary

`verify_slot_delta_js` of `crates/wasm-verify/src/lib.rs`, once its two
arguments are deserialized or are not. It checks the lengths that the types of
Rust carry, calls the verifier, and turns every way to fail into a text. What
is returned is the verdict of the native verifier, and the text tells which
failure it was.
-/

namespace Lattica.WasmVerify

open Foundation Lthash Attest

structure JsAccount where
  lamports : UInt64
  data : List UInt8
  executable : Bool
  owner : List UInt8
  pubkey : List UInt8

structure JsTransition where
  old : Option JsAccount
  new : Option JsAccount

/-- `lamports_serde::deserialize`, on the value it deserializes first. -/
def deserializeLamports : Json → Except String UInt64
  | .number n =>
      match (Json.number n).asU64 with
      | some n => .ok n
      | none => .error "lamports number out of u64 range"
  | .string s =>
      match Decimal.parseU64 s with
      | some n => .ok n
      | none => .error "lamports string not u64"
  | _ => .error "lamports must be number or string"

def accountForHash (a : JsAccount) : Except String AccountForHash :=
  if a.owner.length ≠ 32 then .error ("owner must be 32 bytes, got " ++ a.owner.length.repr)
  else if a.pubkey.length ≠ 32 then .error ("pubkey must be 32 bytes, got " ++ a.pubkey.length.repr)
  else .ok {
    lamports := a.lamports
    data := a.data
    executable := a.executable
    owner := asArray 32 a.owner
    pubkey := asArray 32 a.pubkey }

/-- One side of a transition. -/
def sideForHash : Option JsAccount → Except String (Option AccountForHash)
  | some a => (accountForHash a).map some
  | none => .ok none

/-- The body of the conversion loop. -/
def accountTransition (t : JsTransition) : Except String AccountTransition := do
  let old ← sideForHash t.old
  let new ← sideForHash t.new
  return ⟨old, new⟩

/-- The arms of the final `match`. -/
def errorText : VerifyError → String
  | .emptyTransition => "empty_transition"
  | .malformedDelta => "malformed_delta"
  | .deltaMismatch attested recomputed =>
      "mismatch: " ++ Hex.text attested.1 ++ " != " ++ Hex.text recomputed.1

/-- `verify_slot_delta_js`, with what `from_value` makes of its arguments. -/
def verifySlotDeltaJs (B : Blake3) (attestation : Except String Attestation)
    (transitions : Except String (List JsTransition)) : Except String Unit := do
  let attestation ← attestation.mapError fun e => "attestation parse: " ++ e
  let jsTransitions ← transitions.mapError fun e => "transitions parse: " ++ e
  let transitions ← jsTransitions.mapM accountTransition
  (verifySlotDelta B attestation transitions).mapError errorText

/-! ## Why an input is refused -/

inductive Refusal where
  | attestation (e : String)
  | transitions (e : String)
  | owner (length : ℕ)
  | pubkey (length : ℕ)
  | emptyTransition
  | malformedDelta
  | deltaMismatch (attested recomputed : Bytes 32)

namespace Refusal

def ofVerify : VerifyError → Refusal
  | .emptyTransition => emptyTransition
  | .malformedDelta => malformedDelta
  | .deltaMismatch attested recomputed => deltaMismatch attested recomputed

def text : Refusal → String
  | attestation e => "attestation parse: " ++ e
  | transitions e => "transitions parse: " ++ e
  | owner length => "owner must be 32 bytes, got " ++ length.repr
  | pubkey length => "pubkey must be 32 bytes, got " ++ length.repr
  | emptyTransition => "empty_transition"
  | malformedDelta => "malformed_delta"
  | deltaMismatch attested recomputed =>
      "mismatch: " ++ Hex.text attested.1 ++ " != " ++ Hex.text recomputed.1

theorem text_ofVerify (e : VerifyError) : (ofVerify e).text = errorText e := by
  cases e with
  | emptyTransition => rfl
  | malformedDelta => rfl
  | deltaMismatch attested recomputed => rfl

end Refusal

/-- The lengths of an account are those of the native type. -/
def Sized (a : JsAccount) : Prop := a.owner.length = 32 ∧ a.pubkey.length = 32

/-- What is wrong with an account, the owner first. -/
def complaint (a : JsAccount) : Option Refusal :=
  if a.owner.length ≠ 32 then some (.owner a.owner.length)
  else if a.pubkey.length ≠ 32 then some (.pubkey a.pubkey.length)
  else none

/-- The accounts of a list of transitions, in the order of the loop. -/
def accounts (ts : List JsTransition) : List JsAccount :=
  ts.flatMap fun t => t.old.toList ++ t.new.toList

/-- The account as the native verifier has it. -/
def native (a : JsAccount) : AccountForHash where
  lamports := a.lamports
  data := a.data
  executable := a.executable
  owner := asArray 32 a.owner
  pubkey := asArray 32 a.pubkey

def nativeTransition (t : JsTransition) : AccountTransition := ⟨t.old.map native, t.new.map native⟩

/-- The verdict, before it is put into words. -/
def verdict (B : Blake3) (attestation : Except String Attestation)
    (transitions : Except String (List JsTransition)) : Except Refusal Unit :=
  match attestation, transitions with
  | .error e, _ => .error (.attestation e)
  | .ok _, .error e => .error (.transitions e)
  | .ok att, .ok ts =>
      match (accounts ts).findSome? complaint with
      | some r => .error r
      | none => (verifySlotDelta B att (ts.map nativeTransition)).mapError .ofVerify

theorem complaint_eq_none_iff {a : JsAccount} : complaint a = none ↔ Sized a := by
  unfold complaint Sized
  split
  · next h => simp [h]
  · next h =>
      rw [not_not] at h
      split
      · next h' => simp [h, h']
      · next h' =>
          rw [not_not] at h'
          simp [h, h']

theorem accountForHash_eq (a : JsAccount) : accountForHash a =
    match complaint a with
    | some r => .error r.text
    | none => .ok (native a) := by
  unfold accountForHash complaint
  split
  · rfl
  · split
    · rfl
    · rfl

theorem sideForHash_eq (side : Option JsAccount) : sideForHash side =
    match side.toList.findSome? complaint with
    | some r => .error r.text
    | none => .ok (side.map native) := by
  cases side with
  | none => rfl
  | some a =>
      show (accountForHash a).map some = _
      rw [accountForHash_eq, Option.toList_some, List.findSome?_singleton]
      cases complaint a with
      | some r => rfl
      | none => rfl

theorem accountTransition_eq (t : JsTransition) : accountTransition t =
    match (t.old.toList ++ t.new.toList).findSome? complaint with
    | some r => .error r.text
    | none => .ok (nativeTransition t) := by
  unfold accountTransition
  rw [sideForHash_eq, sideForHash_eq, List.findSome?_append]
  cases t.old.toList.findSome? complaint with
  | some r => rfl
  | none =>
      cases t.new.toList.findSome? complaint with
      | some r => rfl
      | none => rfl

/-- The loop stops at the first account with a wrong length. -/
theorem mapM_accountTransition (ts : List JsTransition) : ts.mapM accountTransition =
    match (accounts ts).findSome? complaint with
    | some r => .error r.text
    | none => .ok (ts.map nativeTransition) := by
  induction ts with
  | nil => rfl
  | cons t ts ih =>
      have happend : (accounts (t :: ts)).findSome? complaint =
          ((t.old.toList ++ t.new.toList).findSome? complaint).or
            ((accounts ts).findSome? complaint) := List.findSome?_append
      rw [List.mapM_cons, accountTransition_eq, ih, happend]
      cases (t.old.toList ++ t.new.toList).findSome? complaint with
      | some r => rfl
      | none =>
          cases (accounts ts).findSome? complaint with
          | some r => rfl
          | none => rfl

/-- The boundary is the verdict put into words. -/
theorem verifySlotDeltaJs_eq (B : Blake3) (attestation : Except String Attestation)
    (transitions : Except String (List JsTransition)) :
    verifySlotDeltaJs B attestation transitions =
      (verdict B attestation transitions).mapError Refusal.text := by
  unfold verifySlotDeltaJs verdict
  cases attestation with
  | error e => rfl
  | ok att =>
      cases transitions with
      | error e => rfl
      | ok ts =>
          show (ts.mapM accountTransition >>= _) = _
          rw [mapM_accountTransition]
          dsimp only
          cases (accounts ts).findSome? complaint with
          | some r => rfl
          | none =>
              show (verifySlotDelta B att (ts.map nativeTransition)).mapError errorText = _
              cases verifySlotDelta B att (ts.map nativeTransition) with
              | ok u => rfl
              | error e => exact congrArg Except.error (Refusal.text_ofVerify e).symm

/-! ## The text tells the refusal -/

/-- The two digests of a mismatch are printed at a fixed width. -/
theorem mismatch_injective {a a' r r' : Bytes 32}
    (h : (Refusal.deltaMismatch a r).text = (Refusal.deltaMismatch a' r').text) :
    a = a' ∧ r = r' := by
  have hwidth : (Hex.text a.1).toList.length = (Hex.text a'.1).toList.length := by
    rw [Hex.length_text, Hex.length_text, a.2, a'.2]
  have h : "mismatch: " ++ Hex.text a.1 ++ " != " ++ Hex.text r.1 =
      "mismatch: " ++ Hex.text a'.1 ++ " != " ++ Hex.text r'.1 := h
  rw [String.append_assoc, String.append_assoc, String.append_assoc, String.append_assoc] at h
  obtain ⟨hattested, hrest⟩ := Text.append_injective hwidth (Text.append_left_injective h)
  exact ⟨Subtype.ext (Hex.text_injective hattested),
    Subtype.ext (Hex.text_injective (Text.append_left_injective hrest))⟩

namespace Refusal

/-- The second letter of a text. -/
def letter : Refusal → Char
  | attestation _ => 't'
  | transitions _ => 'r'
  | owner _ => 'w'
  | pubkey _ => 'u'
  | emptyTransition => 'm'
  | malformedDelta => 'a'
  | deltaMismatch _ _ => 'i'

theorem letter_append (d c : Char) (cs : List Char) {s t : String}
    (h : s.toList = d :: c :: cs) : (s ++ t).toList[1]? = some c := by
  rw [String.toList_append, h]
  rfl

theorem letter_text : ∀ r : Refusal, r.text.toList[1]? = some r.letter
  | attestation e => letter_append 'a' 't' "testation parse: ".toList (by decide)
  | transitions e => letter_append 't' 'r' "ansitions parse: ".toList (by decide)
  | owner length => letter_append 'o' 'w' "ner must be 32 bytes, got ".toList (by decide)
  | pubkey length => letter_append 'p' 'u' "bkey must be 32 bytes, got ".toList (by decide)
  | emptyTransition => by decide
  | malformedDelta => by decide
  | deltaMismatch a r => by
      show ("mismatch: " ++ Hex.text a.1 ++ " != " ++ Hex.text r.1).toList[1]? = some 'i'
      rw [String.append_assoc, String.append_assoc]
      exact letter_append 'm' 'i' "smatch: ".toList (by decide)

theorem text_injective {r r' : Refusal} (h : r.text = r'.text) : r = r' := by
  have hletter : some r.letter = some r'.letter := by
    rw [← letter_text, ← letter_text, h]
  cases r with
  | attestation e =>
      cases r' with
      | attestation e' => exact congrArg attestation (Text.append_left_injective h)
      | _ => simp [letter] at hletter
  | transitions e =>
      cases r' with
      | transitions e' => exact congrArg transitions (Text.append_left_injective h)
      | _ => simp [letter] at hletter
  | owner n =>
      cases r' with
      | owner n' => exact congrArg owner (Decimal.repr_injective (Text.append_left_injective h))
      | _ => simp [letter] at hletter
  | pubkey n =>
      cases r' with
      | pubkey n' => exact congrArg pubkey (Decimal.repr_injective (Text.append_left_injective h))
      | _ => simp [letter] at hletter
  | emptyTransition =>
      cases r' with
      | emptyTransition => rfl
      | _ => simp [letter] at hletter
  | malformedDelta =>
      cases r' with
      | malformedDelta => rfl
      | _ => simp [letter] at hletter
  | deltaMismatch a b =>
      cases r' with
      | deltaMismatch a' b' =>
          obtain ⟨rfl, rfl⟩ := mismatch_injective h
          rfl
      | _ => simp [letter] at hletter

end Refusal

/-! ## The verdict -/

section Verdict

variable {B : Blake3} {attestation : Except String Attestation}
  {transitions : Except String (List JsTransition)}

theorem verdict_eq_ok_iff : verdict B attestation transitions = .ok () ↔
    ∃ att ts, attestation = .ok att ∧ transitions = .ok ts ∧ (∀ a ∈ accounts ts, Sized a) ∧
      verifySlotDelta B att (ts.map nativeTransition) = .ok () := by
  unfold verdict
  constructor
  · intro h
    split at h
    · cases h
    · cases h
    · next att ts =>
        split at h
        · cases h
        · next hnone =>
            refine ⟨att, ts, rfl, rfl, ?_, Exec.mapError_eq_ok.mp h⟩
            intro a ha
            exact complaint_eq_none_iff.mp (List.findSome?_eq_none_iff.mp hnone a ha)
  · rintro ⟨att, ts, rfl, rfl, hsized, hok⟩
    have hnone : (accounts ts).findSome? complaint = none := by
      rw [List.findSome?_eq_none_iff]
      intro a ha
      exact complaint_eq_none_iff.mpr (hsized a ha)
    dsimp only
    rw [hnone, hok]
    rfl

/-- A native account as JavaScript has it. -/
def toJs (acct : AccountForHash) : JsAccount where
  lamports := acct.lamports
  data := acct.data
  executable := acct.executable
  owner := acct.owner.1
  pubkey := acct.pubkey.1

def toJsTransition (t : AccountTransition) : JsTransition := ⟨t.old.map toJs, t.new.map toJs⟩

theorem native_toJs (acct : AccountForHash) : native (toJs acct) = acct := by
  unfold native toJs
  simp only [asArray_self]

theorem nativeTransition_toJs (t : AccountTransition) :
    nativeTransition (toJsTransition t) = t := by
  unfold nativeTransition toJsTransition
  simp only [Option.map_map, Function.comp_def, native_toJs, Option.map_id_fun', id_eq]

theorem sized_toJs {ts : List AccountTransition} :
    ∀ a ∈ accounts (ts.map toJsTransition), Sized a := by
  have hside : ∀ (side : Option AccountForHash), ∀ a ∈ (side.map toJs).toList, Sized a := by
    intro side a ha
    rw [Option.mem_toList, Option.map_eq_some_iff] at ha
    obtain ⟨acct, _, rfl⟩ := ha
    exact ⟨acct.owner.2, acct.pubkey.2⟩
  intro a ha
  obtain ⟨t, ht, ha⟩ := List.mem_flatMap.mp ha
  obtain ⟨t', _, rfl⟩ := List.mem_map.mp ht
  rcases List.mem_append.mp ha with ha | ha
  · exact hside t'.old a ha
  · exact hside t'.new a ha

theorem verdict_toJs (att : Attestation) (ts : List AccountTransition) :
    verdict B (.ok att) (.ok (ts.map toJsTransition)) =
      (verifySlotDelta B att ts).mapError .ofVerify := by
  have hnone : (accounts (ts.map toJsTransition)).findSome? complaint = none := by
    rw [List.findSome?_eq_none_iff]
    intro a ha
    exact complaint_eq_none_iff.mpr (sized_toJs a ha)
  have hnative : (ts.map toJsTransition).map nativeTransition = ts := by
    rw [List.map_map]
    exact (List.map_congr_left fun t _ => nativeTransition_toJs t).trans (List.map_id ts)
  unfold verdict
  dsimp only
  rw [hnone, hnative]

end Verdict

theorem deserializeLamports_ok_iff {v : Json} {n : UInt64} : deserializeLamports v = .ok n ↔
    v = .number (.posInt n) ∨ ∃ s, v = .string s ∧ Decimal.parseU64 s = some n := by
  unfold deserializeLamports
  split
  · next m =>
      cases hm : (Json.number m).asU64 with
      | none =>
          constructor
          · intro h
            cases h
          · rintro (h | ⟨s, h, _⟩)
            · rw [Json.asU64_eq_some_iff.mpr h] at hm
              cases hm
            · cases h
      | some n' =>
          rw [Json.asU64_eq_some_iff] at hm
          rw [hm]
          simp [eq_comm]
  · next s =>
      cases hs : Decimal.parseU64 s with
      | none => simp [hs]
      | some n' => simp [hs]
  · next hnumber hstring =>
      constructor
      · intro h
        cases h
      · rintro (rfl | ⟨s, rfl, _⟩)
        · exact absurd rfl (hnumber _)
        · exact absurd rfl (hstring s)

/-- **The JavaScript boundary.** It returns `null` exactly if both arguments are
read, every owner and pubkey has 32 bytes and the native verifier accepts; any
other text it returns is that of one refusal and of no other; a native input
that is passed through it gets the native verdict; and lamports are read from
every number and every decimal text of a `u64`. -/
theorem js_verdict_exact (B : Blake3) :
    (∀ attestation transitions, verifySlotDeltaJs B attestation transitions = .ok () ↔
      ∃ att ts, attestation = .ok att ∧ transitions = .ok ts ∧ (∀ a ∈ accounts ts, Sized a) ∧
        verifySlotDelta B att (ts.map nativeTransition) = .ok ()) ∧
    (∀ attestation transitions text,
      verifySlotDeltaJs B attestation transitions = .error text ↔
        ∃ r : Refusal, verdict B attestation transitions = .error r ∧ r.text = text) ∧
    (∀ r r' : Refusal, r.text = r'.text → r = r') ∧
    (∀ att ts, verifySlotDeltaJs B (.ok att) (.ok (ts.map toJsTransition)) =
      (verifySlotDelta B att ts).mapError errorText) ∧
    ∀ n : UInt64, deserializeLamports (.number (.posInt n)) = .ok n ∧
      deserializeLamports (.string n.toNat.repr) = .ok n := by
  refine ⟨?_, ?_, fun r r' => Refusal.text_injective, ?_, ?_⟩
  · intro attestation transitions
    rw [verifySlotDeltaJs_eq, Exec.mapError_eq_ok, verdict_eq_ok_iff]
  · intro attestation transitions text
    rw [verifySlotDeltaJs_eq, Exec.mapError_eq_error]
  · intro att ts
    rw [verifySlotDeltaJs_eq, verdict_toJs]
    cases verifySlotDelta B att ts with
    | ok u => rfl
    | error e => exact congrArg Except.error (Refusal.text_ofVerify e)
  · intro n
    rw [deserializeLamports_ok_iff, deserializeLamports_ok_iff]
    exact ⟨Or.inl rfl, Or.inr ⟨_, rfl, Decimal.parseU64_repr n⟩⟩

end Lattica.WasmVerify
