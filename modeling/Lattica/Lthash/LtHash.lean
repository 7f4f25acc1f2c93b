import Lattica.Foundation.Blake3
import Lattica.Foundation.KeyedSum
import Mathlib.Data.Fintype.Basic

/-!
# The homomorphic account hash

An `LtHash` is a vector of 1024 limbs of 16 bits, added and subtracted limb by
limb with wraparound: a commutative group. An account hashes to the limbs of its
extended BLAKE3 output, one without lamports to the identity, and a slot's delta
is what the new states hash to minus what the old ones do.

The `blake3` crate is not part of the repository and is a parameter.
-/

namespace Lattica.Lthash

open Foundation KeyedSum

/-- `N_LIMBS`. -/
def nLimbs : ℕ := 1024

/-- `BYTES_PER_HASH`. -/
def bytesPerHash : ℕ := nLimbs * 2

/-- What the code calls of the crate. -/
structure Blake3 where
  /-- `blake3::hash`. -/
  hash : List UInt8 → Bytes 32
  /-- `Hasher::new()`, `update` of the pieces in order, `finalize_xof()` and
  `fill` of `BYTES_PER_HASH` bytes. -/
  xof : List UInt8 → Bytes bytesPerHash

/-- The functions themselves. -/
def referenceBlake3 : Blake3 := ⟨blake3, blake3Xof 32⟩

/-! ## The group -/

@[ext] structure LtHash where
  limbs : Fin nLimbs → UInt16
deriving DecidableEq

namespace LtHash

def identity : LtHash := ⟨fun _ => 0⟩

/-- `mix_in`: `wrapping_add` of every limb. -/
def mixIn (self other : LtHash) : LtHash := ⟨fun i => self.limbs i + other.limbs i⟩

/-- `mix_out`: `wrapping_sub` of every limb. -/
def mixOut (self other : LtHash) : LtHash := ⟨fun i => self.limbs i - other.limbs i⟩

/-- The little-endian bytes of the limbs. -/
def bytes (self : LtHash) : List UInt8 :=
  (List.ofFn self.limbs).flatMap fun limb => toLe 2 limb.toNat

def checksum (B : Blake3) (self : LtHash) : Bytes 32 := B.hash self.bytes

def isIdentity (self : LtHash) : Bool := (List.ofFn self.limbs).all (· == 0)

instance : Zero LtHash := ⟨identity⟩
instance : Add LtHash := ⟨mixIn⟩
instance : Sub LtHash := ⟨mixOut⟩
instance : Neg LtHash := ⟨identity.mixOut⟩

instance : AddCommGroup LtHash where
  nsmul := nsmulRec
  zsmul := zsmulRec
  add_assoc a b c := LtHash.ext (funext fun _ => UInt16.add_assoc _ _ _)
  add_comm a b := LtHash.ext (funext fun _ => UInt16.add_comm _ _)
  zero_add a := LtHash.ext (funext fun _ => UInt16.zero_add _)
  add_zero a := LtHash.ext (funext fun _ => UInt16.add_zero _)
  neg_add_cancel a := by
    refine LtHash.ext (funext fun i => ?_)
    show 0 - a.limbs i + a.limbs i = 0
    exact UInt16.sub_add_cancel _ _
  sub_eq_add_neg a b := by
    refine LtHash.ext (funext fun i => ?_)
    show a.limbs i - b.limbs i = a.limbs i + (0 - b.limbs i)
    rw [UInt16.zero_sub, UInt16.sub_eq_add_neg]

@[simp] theorem identity_eq : identity = 0 := rfl

@[simp] theorem mixIn_eq (a b : LtHash) : a.mixIn b = a + b := rfl

@[simp] theorem mixOut_eq (a b : LtHash) : a.mixOut b = a - b := rfl

theorem isIdentity_iff (a : LtHash) : a.isIdentity = true ↔ a = identity := by
  rw [isIdentity, List.all_eq_true]
  constructor
  · intro h
    refine LtHash.ext (funext fun i => ?_)
    exact beq_iff_eq.mp (h _ (List.mem_ofFn.mpr ⟨i, rfl⟩))
  · rintro rfl limb hlimb
    obtain ⟨i, rfl⟩ := List.mem_ofFn.mp hlimb
    rfl

end LtHash

/-! ## Accounts -/

structure AccountForHash where
  lamports : UInt64
  data : List UInt8
  executable : Bool
  owner : Bytes 32
  pubkey : Bytes 32
deriving DecidableEq

/-- What is fed to the hasher. -/
def accountBytes (acct : AccountForHash) : List UInt8 :=
  toLe 8 acct.lamports.toNat ++ acct.data ++ [if acct.executable then 1 else 0] ++
    acct.owner.1 ++ acct.pubkey.1

/-- `hash_account`. -/
def hashAccount (B : Blake3) (acct : AccountForHash) : LtHash :=
  -- a tombstone hashes to the identity by convention
  if acct.lamports = 0 then LtHash.identity
  else
    let bytes := B.xof (accountBytes acct)
    ⟨fun i => UInt16.ofNat (fromLe [bytes.1.getD (2 * i) 0, bytes.1.getD (2 * i + 1) 0])⟩

variable {B : Blake3}

theorem hashAccount_tombstone {acct : AccountForHash} (h : acct.lamports = 0) :
    hashAccount B acct = 0 := by
  rw [hashAccount, if_pos h, LtHash.identity_eq]

/-! ## Slot deltas -/

@[ext] structure SlotDelta where
  delta : LtHash

namespace SlotDelta

/-- `SlotDelta::new`. -/
def new : SlotDelta := ⟨LtHash.identity⟩

/-- `SlotDelta::mix`. -/
def mix (B : Blake3) (self : SlotDelta) (old new : Option AccountForHash) : SlotDelta :=
  let self := match old with
    | some o => ⟨self.delta.mixOut (hashAccount B o)⟩
    | none => self
  match new with
  | some n => ⟨self.delta.mixIn (hashAccount B n)⟩
  | none => self

end SlotDelta

/-- The states of an account before and after. -/
abbrev Change : Type := Option AccountForHash × Option AccountForHash

/-- The delta of a slot: its changes mixed one after the other. -/
def slotDelta (B : Blake3) (changes : List Change) : SlotDelta :=
  changes.foldl (fun d c => d.mix B c.1 c.2) SlotDelta.new

/-- What a change adds to the delta. -/
def gain (B : Blake3) (c : Change) : LtHash :=
  weight (hashAccount B) c.2 - weight (hashAccount B) c.1

theorem mix_delta (d : SlotDelta) (c : Change) :
    (d.mix B c.1 c.2).delta = d.delta + gain B c := by
  rcases c with ⟨_ | o, _ | n⟩
  · simp [SlotDelta.mix, gain]
  · simp [SlotDelta.mix, gain]
  · simp [SlotDelta.mix, gain, sub_eq_add_neg]
  · simp only [SlotDelta.mix, gain, weight_some, LtHash.mixIn_eq, LtHash.mixOut_eq]
    abel

theorem foldl_mix_delta (d : SlotDelta) (changes : List Change) :
    (changes.foldl (fun d c => d.mix B c.1 c.2) d).delta =
      d.delta + (changes.map (gain B)).sum := by
  induction changes generalizing d with
  | nil => rw [List.foldl_nil, List.map_nil, List.sum_nil, add_zero]
  | cons c cs ih => rw [List.foldl_cons, ih, mix_delta, List.map_cons, List.sum_cons, add_assoc]

/-- **A slot's delta is the sum of its gains.** -/
theorem slotDelta_delta (changes : List Change) :
    (slotDelta B changes).delta = (changes.map (gain B)).sum := by
  rw [slotDelta, foldl_mix_delta, SlotDelta.new, LtHash.identity_eq, zero_add]

/-- The order of the changes is immaterial. -/
theorem slotDelta_perm {cs cs' : List Change} (h : cs.Perm cs') :
    slotDelta B cs = slotDelta B cs' := by
  refine SlotDelta.ext ?_
  rw [slotDelta_delta, slotDelta_delta]
  exact (h.map (gain B)).sum_eq

end Lattica.Lthash
