import Lattica.Attest.Attestation

/-!
# Edited transition lists

What the verifier makes of a list that differs from an accepted one by a single
edit. It compares one sum, so an edit is seen exactly when the terms it adds and
removes do not cancel: an account without lamports weighs as much as no account,
and new sides that change places leave the sum as it is. Every other edit is
seen, as long as the live accounts it touches hash apart.
-/

namespace Lattica.Attest

open Foundation KeyedSum Lthash

variable {B : Blake3}

/-! ## What a state weighs -/

/-- The state the hash can tell: one without lamports is none. -/
def live (state : Option AccountForHash) : Option AccountForHash :=
  state.filter fun acct => acct.lamports ≠ 0

theorem live_some {acct : AccountForHash} (h : acct.lamports ≠ 0) :
    live (some acct) = some acct := by
  rw [live, Option.filter_some, if_pos (decide_eq_true h)]

theorem live_tombstone {acct : AccountForHash} (h : acct.lamports = 0) :
    live (some acct) = none := by
  rw [live, Option.filter_some, if_neg (by simpa using h)]

/-- Different live accounts among the states hash to different vectors, and none
of them to the identity. -/
def HashesApart (B : Blake3) (states : List (Option AccountForHash)) : Prop :=
  ∀ a, some a ∈ states → a.lamports ≠ 0 → hashAccount B a ≠ LtHash.identity ∧
    ∀ b, some b ∈ states → b.lamports ≠ 0 → hashAccount B a = hashAccount B b → a = b

theorem weight_live (state : Option AccountForHash) :
    weight (hashAccount B) (live state) = weight (hashAccount B) state := by
  cases state with
  | none => rfl
  | some acct =>
      by_cases h : acct.lamports = 0
      · rw [live_tombstone h, weight_none, weight_some, hashAccount_tombstone h]
      · rw [live_some h]

theorem eq_live {state : Option AccountForHash} {acct : AccountForHash}
    (h : live state = some acct) : state = some acct ∧ acct.lamports ≠ 0 := by
  obtain ⟨hmem, hne⟩ := Option.filter_eq_some_iff.mp h
  exact ⟨hmem, by simpa using hne⟩

/-- **States weigh the same when they are the same live state.** -/
theorem weight_eq_iff {states : List (Option AccountForHash)} (hapart : HashesApart B states)
    {x y : Option AccountForHash} (hx : x ∈ states) (hy : y ∈ states) :
    weight (hashAccount B) x = weight (hashAccount B) y ↔ live x = live y := by
  constructor
  · intro h
    -- tombstones are out of the way: both sides are none or live
    rw [← weight_live x, ← weight_live y] at h
    cases hlx : live x with
    | none =>
        cases hly : live y with
        | none => rfl
        | some b =>
            obtain ⟨rfl, hb⟩ := eq_live hly
            rw [hlx, hly] at h
            exact absurd h.symm (hapart b hy hb).1
    | some a =>
        obtain ⟨rfl, ha⟩ := eq_live hlx
        cases hly : live y with
        | none =>
            rw [hlx, hly] at h
            exact absurd h (hapart a hx ha).1
        | some b =>
            obtain ⟨rfl, hb⟩ := eq_live hly
            rw [hlx, hly] at h
            rw [(hapart a hx ha).2 b hy hb h]
  · intro h
    rw [← weight_live x, ← weight_live y, h]

/-! ## One edit -/

namespace AccountTransition

def withOld (t : AccountTransition) (old : Option AccountForHash) : AccountTransition :=
  { t with old := old }

def withNew (t : AccountTransition) (new : Option AccountForHash) : AccountTransition :=
  { t with new := new }

end AccountTransition

variable {att : Attestation} {ts ts' pre mid post : List AccountTransition}
  {t u : AccountTransition}

theorem builtDelta_cons : builtDelta B (t :: ts) = gain B t.change + builtDelta B ts := by
  rw [builtDelta_eq, builtDelta_eq, List.map_cons, List.map_cons, List.sum_cons]

theorem builtDelta_middle :
    builtDelta B (pre ++ t :: post) = gain B t.change + builtDelta B (pre ++ post) := by
  rw [builtDelta_perm List.perm_middle, builtDelta_cons]

/-- An edited list is accepted when it has the sum of the accepted one. -/
theorem accepted_iff (hok : verifySlotDelta B att ts = .ok ()) :
    verifySlotDelta B att ts' = .ok () ↔
      (∀ t ∈ ts', ¬ t.Empty) ∧ builtDelta B ts' = builtDelta B ts := by
  rw [verify_ok_iff] at hok ⊢
  rw [hok.2, Option.some.injEq, eq_comm]

theorem full_middle : (∀ v ∈ pre ++ t :: post, ¬ v.Empty) ↔
    ¬ t.Empty ∧ ∀ v ∈ pre ++ post, ¬ v.Empty := by
  rw [List.forall_mem_append, List.forall_mem_cons, List.forall_mem_append]
  exact and_left_comm

theorem gain_eq_zero_iff (hapart : HashesApart B [t.old, t.new]) :
    gain B t.change = 0 ↔ live t.old = live t.new := by
  rw [gain, sub_eq_zero, AccountTransition.change, eq_comm]
  exact weight_eq_iff hapart (by simp) (by simp)

theorem deletion_accepted_iff (hok : verifySlotDelta B att (pre ++ t :: post) = .ok ())
    (hapart : HashesApart B [t.old, t.new]) :
    verifySlotDelta B att (pre ++ post) = .ok () ↔ live t.old = live t.new := by
  have hrest := (full_middle.mp (verify_ok_iff.mp hok).1).2
  rw [accepted_iff hok, builtDelta_middle, right_eq_add, gain_eq_zero_iff hapart]
  exact and_iff_right hrest

theorem insertion_accepted_iff (hok : verifySlotDelta B att (pre ++ post) = .ok ())
    (hapart : HashesApart B [t.old, t.new]) :
    verifySlotDelta B att (pre ++ t :: post) = .ok () ↔ ¬ t.Empty ∧ live t.old = live t.new := by
  have hrest := (verify_ok_iff.mp hok).1
  rw [accepted_iff hok, builtDelta_middle, add_eq_right, gain_eq_zero_iff hapart, full_middle]
  rw [and_iff_left hrest]

/-- One transition in the place of another. -/
theorem replacement_accepted_iff (hok : verifySlotDelta B att (pre ++ t :: post) = .ok ()) :
    verifySlotDelta B att (pre ++ u :: post) = .ok () ↔
      ¬ u.Empty ∧ gain B u.change = gain B t.change := by
  have hrest := (full_middle.mp (verify_ok_iff.mp hok).1).2
  rw [accepted_iff hok, builtDelta_middle, builtDelta_middle, add_left_inj, full_middle,
    and_iff_left hrest]

theorem replaced_old_accepted_iff {old : Option AccountForHash}
    (hok : verifySlotDelta B att (pre ++ t :: post) = .ok ())
    (hapart : HashesApart B [t.old, old]) :
    verifySlotDelta B att (pre ++ t.withOld old :: post) = .ok () ↔
      ¬ (t.withOld old).Empty ∧ live t.old = live old := by
  rw [replacement_accepted_iff hok, gain, gain, AccountTransition.change,
    AccountTransition.change, AccountTransition.withOld, sub_right_inj]
  rw [weight_eq_iff hapart (x := old) (y := t.old) (by simp) (by simp), eq_comm]

theorem replaced_new_accepted_iff {new : Option AccountForHash}
    (hok : verifySlotDelta B att (pre ++ t :: post) = .ok ())
    (hapart : HashesApart B [t.new, new]) :
    verifySlotDelta B att (pre ++ t.withNew new :: post) = .ok () ↔
      ¬ (t.withNew new).Empty ∧ live t.new = live new := by
  rw [replacement_accepted_iff hok, gain, gain, AccountTransition.change,
    AccountTransition.change, AccountTransition.withNew, sub_left_inj]
  rw [weight_eq_iff hapart (x := new) (y := t.new) (by simp) (by simp), eq_comm]

/-- The new sides weigh the same in either place. -/
theorem exchange_accepted_iff (pre mid post : List AccountTransition)
    (hok : verifySlotDelta B att (pre ++ t :: (mid ++ u :: post)) = .ok ()) :
    verifySlotDelta B att (pre ++ t.withNew u.new :: (mid ++ u.withNew t.new :: post)) = .ok () ↔
      ¬ (t.withNew u.new).Empty ∧ ¬ (u.withNew t.new).Empty := by
  have hfull := (verify_ok_iff.mp hok).1
  rw [full_middle, ← List.append_assoc, full_middle] at hfull
  have hsum : builtDelta B (pre ++ t.withNew u.new :: (mid ++ u.withNew t.new :: post)) =
      builtDelta B (pre ++ t :: (mid ++ u :: post)) := by
    rw [builtDelta_middle, builtDelta_middle, ← List.append_assoc, ← List.append_assoc,
      builtDelta_middle, builtDelta_middle]
    -- the same two new weights minus the same two old ones
    simp only [gain, AccountTransition.change, AccountTransition.withNew]
    abel
  rw [accepted_iff hok, and_iff_left hsum, full_middle, ← List.append_assoc, full_middle,
    and_iff_left hfull.2.2]

/-- **Single edits of an accepted list.** Deleting, inserting and replacing are
seen when they change a live state; an exchange of new sides is seen only where
it leaves a transition without sides. -/
theorem edits_accepted_iff (hok : verifySlotDelta B att ts = .ok ()) :
    (∀ (pre post : List AccountTransition) (t : AccountTransition), ts = pre ++ t :: post →
      HashesApart B [t.old, t.new] →
      (verifySlotDelta B att (pre ++ post) = .ok () ↔ live t.old = live t.new)) ∧
    (∀ (pre post : List AccountTransition) (t : AccountTransition), ts = pre ++ post →
      HashesApart B [t.old, t.new] →
      (verifySlotDelta B att (pre ++ t :: post) = .ok () ↔
        ¬ t.Empty ∧ live t.old = live t.new)) ∧
    (∀ (pre post : List AccountTransition) (t : AccountTransition) (old : Option AccountForHash),
      ts = pre ++ t :: post → HashesApart B [t.old, old] →
      (verifySlotDelta B att (pre ++ t.withOld old :: post) = .ok () ↔
        ¬ (t.withOld old).Empty ∧ live t.old = live old)) ∧
    (∀ (pre post : List AccountTransition) (t : AccountTransition) (new : Option AccountForHash),
      ts = pre ++ t :: post → HashesApart B [t.new, new] →
      (verifySlotDelta B att (pre ++ t.withNew new :: post) = .ok () ↔
        ¬ (t.withNew new).Empty ∧ live t.new = live new)) ∧
    (∀ (pre mid post : List AccountTransition) (t u : AccountTransition),
      ts = pre ++ t :: (mid ++ u :: post) →
      (verifySlotDelta B att (pre ++ t.withNew u.new :: (mid ++ u.withNew t.new :: post)) =
          .ok () ↔
        ¬ (t.withNew u.new).Empty ∧ ¬ (u.withNew t.new).Empty)) := by
  refine ⟨?_, ?_, ?_, ?_, ?_⟩
  · rintro pre post t rfl hapart
    exact deletion_accepted_iff hok hapart
  · rintro pre post t rfl hapart
    exact insertion_accepted_iff hok hapart
  · rintro pre post t old rfl hapart
    exact replaced_old_accepted_iff hok hapart
  · rintro pre post t new rfl hapart
    exact replaced_new_accepted_iff hok hapart
  · rintro pre mid post t u rfl
    exact exchange_accepted_iff pre mid post hok

/-! ## Small lists -/

theorem hashesApart_of_limb {accts : List AccountForHash} (i : Fin nLimbs)
    (h : (0 :: accts.map fun acct => (hashAccount B acct).limbs i).Nodup) :
    HashesApart B (accts.map some) := by
  obtain ⟨hzero, hnodup⟩ := List.nodup_cons.mp h
  have hmem : ∀ acct, some acct ∈ accts.map some → acct ∈ accts := fun acct =>
    (List.mem_map_of_injective (Option.some_injective _)).mp
  intro a ha _
  refine ⟨fun heq => hzero ?_, ?_⟩
  · exact List.mem_map.mpr ⟨a, hmem a ha, congrFun (congrArg LtHash.limbs heq) i⟩
  · intro b hb _ heq
    exact List.inj_on_of_nodup_map hnodup (hmem a ha) (hmem b hb)
      (congrFun (congrArg LtHash.limbs heq) i)

/-- An attestation of the delta the transitions make. -/
def attestationFor (B : Blake3) (ts : List AccountTransition) : Attestation :=
  .fromDelta 42 0 (Bytes.zero 32) (Bytes.zero 32) (Bytes.zero 64) (builtDelta B ts)

/-- It accepts every full list with the same sum. -/
theorem verify_attestationFor (hfull : ∀ t ∈ ts', ¬ t.Empty)
    (hsum : builtDelta B ts' = builtDelta B ts) :
    verifySlotDelta B (attestationFor B ts) ts' = .ok () := by
  rw [verify_ok_iff, attestationFor, Attestation.deltaAsLthash_fromDelta, hsum]
  exact ⟨hfull, rfl⟩

/-- The account of a pubkey with every byte `key`. -/
def account (key : UInt8) (lamports : UInt64) : AccountForHash :=
  ⟨lamports, [], false, Bytes.zero 32, ⟨List.replicate 32 key, List.length_replicate⟩⟩

def firstUpdate : AccountTransition := ⟨some (account 1 1), some (account 1 2)⟩

def secondUpdate : AccountTransition := ⟨some (account 2 1), some (account 2 2)⟩

theorem account_hashesApart : HashesApart referenceBlake3
    [some (account 1 1), some (account 1 2), some (account 2 1), some (account 2 2)] := by
  have hlimb : (0 :: [account 1 1, account 1 2, account 2 1, account 2 2].map fun acct =>
      (hashAccount referenceBlake3 acct).limbs ⟨0, by decide⟩).Nodup := by
    decide +kernel
  exact hashesApart_of_limb _ hlimb

theorem HashesApart.mono {states states' : List (Option AccountForHash)}
    (h : HashesApart B states) (hsub : states' ⊆ states) : HashesApart B states' :=
  fun a ha hlive => ⟨(h a (hsub ha) hlive).1, fun b hb => (h a (hsub ha) hlive).2 b (hsub hb)⟩

theorem edits_accepted_iff_small :
    verifySlotDelta referenceBlake3 (attestationFor referenceBlake3 [firstUpdate, secondUpdate])
      [firstUpdate, secondUpdate] = .ok () ∧
    HashesApart referenceBlake3 [firstUpdate.old, firstUpdate.new] ∧
    (verifySlotDelta referenceBlake3 (attestationFor referenceBlake3 [firstUpdate, secondUpdate])
      [secondUpdate] = .ok () ↔ live firstUpdate.old = live firstUpdate.new) ∧
    live firstUpdate.old ≠ live firstUpdate.new := by
  have hok : verifySlotDelta referenceBlake3
      (attestationFor referenceBlake3 [firstUpdate, secondUpdate])
      [firstUpdate, secondUpdate] = .ok () := verify_attestationFor (by decide) rfl
  have hapart : HashesApart referenceBlake3 [firstUpdate.old, firstUpdate.new] :=
    account_hashesApart.mono (by decide)
  exact ⟨hok, hapart, (edits_accepted_iff hok).1 [] [secondUpdate] firstUpdate rfl hapart,
    by decide⟩

/-- The creation of an account without lamports. -/
def dustCreation (key : UInt8) : AccountTransition := ⟨none, some (account key 0)⟩

theorem builtDelta_dust (keys : List UInt8) : builtDelta B (keys.map dustCreation) = 0 := by
  induction keys with
  | nil => rfl
  | cons key keys ih =>
      rw [List.map_cons, builtDelta_cons, ih, add_zero, gain, AccountTransition.change,
        dustCreation, weight_none, weight_some, hashAccount_tombstone rfl, sub_zero]

theorem verify_dust (keys keys' : List UInt8) : verifySlotDelta B
    (attestationFor B (keys.map dustCreation)) (keys'.map dustCreation) = .ok () := by
  refine verify_attestationFor ?_ ?_
  · intro t ht
    obtain ⟨key, _, rfl⟩ := List.mem_map.mp ht
    rintro ⟨_, hnew⟩
    cases hnew
  · rw [builtDelta_dust, builtDelta_dust]

/-- Edits that pass: an account without lamports created, not created, created
twice or under another pubkey; and new sides exchanged between two pubkeys. -/
theorem edits_pass :
    ((dustCreation 1).old ≠ (dustCreation 1).new ∧
      HashesApart referenceBlake3 [(dustCreation 1).old, (dustCreation 1).new,
        (dustCreation 2).new] ∧
      ∀ ts ∈ [[dustCreation 1], [], [dustCreation 1, dustCreation 1], [dustCreation 2]],
        verifySlotDelta referenceBlake3 (attestationFor referenceBlake3 [dustCreation 1]) ts =
          .ok ()) ∧
    ((account 1 2).pubkey ≠ (account 2 2).pubkey ∧ firstUpdate.new ≠ secondUpdate.new ∧
      HashesApart referenceBlake3
        [firstUpdate.old, firstUpdate.new, secondUpdate.old, secondUpdate.new] ∧
      ∀ ts ∈ [[firstUpdate, secondUpdate],
          [firstUpdate.withNew secondUpdate.new, secondUpdate.withNew firstUpdate.new]],
        verifySlotDelta referenceBlake3
          (attestationFor referenceBlake3 [firstUpdate, secondUpdate]) ts = .ok ()) := by
  refine ⟨⟨by decide, ?_, ?_⟩, by decide, by decide, account_hashesApart, ?_⟩
  · intro a ha hlive
    simp only [dustCreation, List.mem_cons, List.not_mem_nil, or_false, reduceCtorEq, false_or,
      Option.some.injEq] at ha
    rcases ha with rfl | rfl
    · exact absurd rfl hlive
    · exact absurd rfl hlive
  · simp only [List.forall_mem_cons, List.not_mem_nil, false_implies, implies_true, and_true]
    exact ⟨verify_dust [1] [1], verify_dust [1] [], verify_dust [1] [1, 1], verify_dust [1] [2]⟩
  · have hok : verifySlotDelta referenceBlake3
        (attestationFor referenceBlake3 [firstUpdate, secondUpdate])
        [firstUpdate, secondUpdate] = .ok () := verify_attestationFor (by decide) rfl
    simp only [List.forall_mem_cons, List.not_mem_nil, false_implies, implies_true, and_true]
    exact ⟨hok, (exchange_accepted_iff [] [] [] hok).mpr (by decide)⟩

end Lattica.Attest
