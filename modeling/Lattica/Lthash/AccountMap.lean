import Lattica.Lthash.LtHash

/-!
# The state across slots

The state is a finite map from pubkeys to accounts and hashes to the sum of its
entries. A change writes one pubkey: its old side is the present entry, its new
side replaces it. A slot is a chain of changes and a history a chain of slots,
and `Foundation.Chain.value_eq` is used at both levels: the deltas of the slots,
mixed in whatever order, carry the hash of the first state to that of the last.
-/

namespace Lattica.Lthash

open Foundation KeyedSum

abbrev AccountMap : Type := Finmap fun _ : Bytes 32 => AccountForHash

variable (B : Blake3)

instance : RightCommutative fun (h : LtHash) (e : Σ _ : Bytes 32, AccountForHash) =>
    h.mixIn (hashAccount B e.2) where
  right_comm h d e := by
    rw [LtHash.mixIn_eq, LtHash.mixIn_eq, LtHash.mixIn_eq, LtHash.mixIn_eq]
    exact add_right_comm _ _ _

/-- `mix_in` of `hash_account` over the entries, from the identity. -/
def ltHash (m : AccountMap) : LtHash :=
  m.entries.foldl (fun h e => h.mixIn (hashAccount B e.2)) LtHash.identity

variable {B}

theorem foldl_mixIn {α : Type*} (f : α → LtHash) (h : LtHash) (xs : List α) :
    xs.foldl (fun h x => h.mixIn (f x)) h = h + (xs.map f).sum := by
  induction xs generalizing h with
  | nil => rw [List.foldl_nil, List.map_nil, List.sum_nil, add_zero]
  | cons x xs ih =>
      rw [List.foldl_cons, ih, LtHash.mixIn_eq, List.map_cons, List.sum_cons, add_assoc]

theorem ltHash_eq_total (m : AccountMap) : ltHash B m = total (hashAccount B) m := by
  rw [ltHash, total]
  induction m.entries using Quotient.inductionOn with
  | _ es =>
      -- any listing of the entries will do
      show es.foldl (fun h e => h.mixIn (hashAccount B e.2)) LtHash.identity =
        (es.map fun e => hashAccount B e.2).sum
      rw [foldl_mixIn fun e : Σ _ : Bytes 32, AccountForHash => hashAccount B e.2,
        LtHash.identity_eq, zero_add]

/-! ## Runs -/

/-- The change replaces the entry of one pubkey. -/
def Applies (m : AccountMap) (c : Change) (m' : AccountMap) : Prop :=
  ∃ pubkey, c.1 = m.lookup pubkey ∧ (∀ acct, c.2 = some acct → acct.pubkey = pubkey) ∧
    m' = put m pubkey c.2

theorem Applies.ltHash_eq {m m' : AccountMap} {c : Change} (h : Applies m c m') :
    ltHash B m' = ltHash B m + gain B c := by
  obtain ⟨pubkey, hold, _, rfl⟩ := h
  rw [ltHash_eq_total, ltHash_eq_total, total_put, gain, hold]

/-- A slot moves the hash by its delta. -/
theorem slot_ltHash_eq {m m' : AccountMap} {cs : List Change} (h : Chain Applies m cs m') :
    ltHash B m' = ltHash B m + (slotDelta B cs).delta := by
  rw [slotDelta_delta]
  exact h.value_eq fun hc => hc.ltHash_eq

/-- **Deltas carry the state.** Mixing the delta of every slot, in any order,
into the hash of the first state gives the hash of the last. -/
theorem deltas_carry_state {m m' : AccountMap} {slots order : List (List Change)}
    (hrun : Chain (Chain Applies) m slots m') (horder : order.Perm slots) :
    order.foldl (fun h cs => h.mixIn (slotDelta B cs).delta) (ltHash B m) = ltHash B m' := by
  -- the inner chains are slots, the outer one is the history
  have hsum : ltHash B m' = ltHash B m + (slots.map fun cs => (slotDelta B cs).delta).sum :=
    hrun.value_eq fun hs => slot_ltHash_eq hs
  have hperm := (horder.map fun cs => (slotDelta B cs).delta).sum_eq
  rw [foldl_mixIn fun cs => (slotDelta B cs).delta, hsum, hperm]

/-! A small history: one account, under the zero pubkey. -/

def sampleAccount (lamports : UInt64) : AccountForHash :=
  ⟨lamports, [], false, Bytes.zero 32, Bytes.zero 32⟩

def sampleMap (lamports : UInt64) : AccountMap :=
  put ∅ (Bytes.zero 32) (some (sampleAccount lamports))

theorem applies_create (x : UInt64) : Applies ∅ (none, some (sampleAccount x)) (sampleMap x) := by
  refine ⟨Bytes.zero 32, ?_, ?_, rfl⟩
  · rw [Finmap.lookup_empty]
  · intro acct h
    cases h
    rfl

theorem applies_update (x y : UInt64) :
    Applies (sampleMap x) (some (sampleAccount x), some (sampleAccount y)) (sampleMap y) := by
  refine ⟨Bytes.zero 32, (lookup_put_self _ _ _).symm, ?_, (put_put _ _ _ _).symm⟩
  intro acct h
  cases h
  rfl

theorem applies_close (x : UInt64) : Applies (sampleMap x) (some (sampleAccount x), none) ∅ := by
  refine ⟨Bytes.zero 32, (lookup_put_self _ _ _).symm, ?_, ?_⟩
  · intro acct h
    cases h
  · have hnone := put_lookup (∅ : AccountMap) (Bytes.zero 32)
    rw [Finmap.lookup_empty] at hnone
    rw [sampleMap, put_put]
    exact hnone.symm

/-- Creation and update in the first slot, no lamports left and removal in the second. -/
def sampleSlots : List (List Change) :=
  [[(none, some (sampleAccount 1)), (some (sampleAccount 1), some (sampleAccount 2))],
    [(some (sampleAccount 2), some (sampleAccount 0)), (some (sampleAccount 0), none)]]

theorem sampleSlots_run : Chain (Chain Applies) ∅ sampleSlots ∅ :=
  .cons (.cons (applies_create 1) (.cons (applies_update 1 2) (.nil _)))
    (.cons (.cons (applies_update 2 0) (.cons (applies_close 0) (.nil _))) (.nil _))

theorem deltas_carry_state_small :
    Chain (Chain Applies) ∅ sampleSlots ∅ ∧ sampleSlots.reverse.Perm sampleSlots ∧
    sampleSlots.reverse.foldl (fun h cs => h.mixIn (slotDelta referenceBlake3 cs).delta)
      (ltHash referenceBlake3 ∅) = ltHash referenceBlake3 ∅ :=
  ⟨sampleSlots_run, List.reverse_perm _, deltas_carry_state sampleSlots_run (List.reverse_perm _)⟩

end Lattica.Lthash
