import Lattica.Lthash.LtHash
import Mathlib.Data.List.GetD

/-!
# What an account hash binds

The hasher is fed the fields one after the other with no length between them.
Every field but `data` has a fixed width, so the length of the whole string
gives that of the data, and each field can be cut off in turn: the bytes
determine the account. The limbs determine the 2048 bytes they are read from, so
two accounts with one hash are equal unless BLAKE3 itself has met a collision.
-/

namespace Lattica.Lthash

open Foundation

variable {B : Blake3} {acct acct' : AccountForHash}

theorem length_accountBytes (acct : AccountForHash) :
    (accountBytes acct).length = acct.data.length + 73 := by
  rw [accountBytes, List.length_append, List.length_append, List.length_append,
    List.length_append, length_toLe, List.length_singleton, acct.owner.2, acct.pubkey.2]
  omega

theorem executable_byte_inj {x y : Bool}
    (h : [if x then (1 : UInt8) else 0] = [if y then 1 else 0]) : x = y := by
  cases x <;> cases y
  · rfl
  · exact absurd h (by decide)
  · exact absurd h (by decide)
  · rfl

/-- **The bytes fed to the hasher can be parsed in one way only.** -/
theorem accountBytes_inj (h : accountBytes acct = accountBytes acct') : acct = acct' := by
  have hdata : acct.data.length = acct'.data.length := by
    have hlen := congrArg List.length h
    rw [length_accountBytes, length_accountBytes] at hlen
    exact Nat.add_right_cancel hlen
  -- from the end: each field has the width of its counterpart
  unfold accountBytes at h
  obtain ⟨h, hpubkey⟩ := List.append_inj' h (by rw [acct.pubkey.2, acct'.pubkey.2])
  obtain ⟨h, howner⟩ := List.append_inj' h (by rw [acct.owner.2, acct'.owner.2])
  obtain ⟨h, hexecutable⟩ := List.append_inj' h rfl
  obtain ⟨hlamports, hdata⟩ := List.append_inj' h hdata
  have hbytes := congrArg fromLe hlamports
  rw [fromLe_toLe 8 _ acct.lamports.toNat_lt, fromLe_toLe 8 _ acct'.lamports.toNat_lt] at hbytes
  cases acct
  cases acct'
  rw [AccountForHash.mk.injEq]
  exact ⟨UInt64.toNat_inj.mp hbytes, hdata, executable_byte_inj hexecutable, Subtype.ext howner,
    Subtype.ext hpubkey⟩

/-! ## Limbs and bytes -/

/-- A limb holds both of its bytes. -/
theorem limb_inj {x y x' y' : UInt8}
    (h : UInt16.ofNat (fromLe [x, y]) = UInt16.ofNat (fromLe [x', y'])) : x = x' ∧ y = y' := by
  have hlt : ∀ a b : UInt8, fromLe [a, b] < 2 ^ 16 := by
    intro a b
    exact (fromLe_lt [a, b]).trans_eq (by simp)
  have htoNat := congrArg UInt16.toNat h
  rw [UInt16.toNat_ofNat_of_lt' (hlt x y), UInt16.toNat_ofNat_of_lt' (hlt x' y')] at htoNat
  have heq : [x, y] = [x', y'] := fromLe_inj rfl htoNat
  injection heq with hx hrest
  injection hrest with hy _
  exact ⟨hx, hy⟩

theorem xof_eq_of_hashAccount_eq (hlive : acct.lamports ≠ 0) (hlive' : acct'.lamports ≠ 0)
    (h : hashAccount B acct = hashAccount B acct') :
    B.xof (accountBytes acct) = B.xof (accountBytes acct') := by
  have hlen := (B.xof (accountBytes acct)).2
  have hlen' := (B.xof (accountBytes acct')).2
  rw [hashAccount, if_neg hlive, hashAccount, if_neg hlive', LtHash.mk.injEq] at h
  refine Subtype.ext (List.ext_getElem (by rw [hlen, hlen']) ?_)
  intro j hj hj'
  -- byte `j` is the low or the high byte of limb `j / 2`
  have hlimb : j / 2 < nLimbs := by
    rw [hlen, bytesPerHash] at hj
    exact Nat.div_lt_of_lt_mul (Nat.mul_comm nLimbs 2 ▸ hj)
  obtain ⟨hlow, hhigh⟩ := limb_inj (congrFun h ⟨j / 2, hlimb⟩)
  rw [← List.getD_eq_getElem _ 0 hj, ← List.getD_eq_getElem _ 0 hj']
  rcases Nat.mod_two_eq_zero_or_one j with hmod | hmod
  · have hidx : 2 * (j / 2) = j := by omega
    rwa [hidx] at hlow
  · have hidx : 2 * (j / 2) + 1 = j := by omega
    rwa [hidx] at hhigh

/-- **An account hash binds every field**, unless two different strings have one
extended output. -/
theorem account_hash_binds (B : Blake3) (acct acct' : AccountForHash)
    (hlive : acct.lamports ≠ 0) (hlive' : acct'.lamports ≠ 0)
    (h : hashAccount B acct = hashAccount B acct') :
    (acct.lamports = acct'.lamports ∧ acct.data = acct'.data ∧
      acct.executable = acct'.executable ∧ acct.owner = acct'.owner ∧
      acct.pubkey = acct'.pubkey) ∨
    (accountBytes acct ≠ accountBytes acct' ∧
      B.xof (accountBytes acct) = B.xof (accountBytes acct')) := by
  by_cases hbytes : accountBytes acct = accountBytes acct'
  · rw [accountBytes_inj hbytes]
    exact Or.inl ⟨rfl, rfl, rfl, rfl, rfl⟩
  · exact Or.inr ⟨hbytes, xof_eq_of_hashAccount_eq hlive hlive' h⟩

/-- A funded account with `n` zero bytes of data. -/
def fundedAccount (n : ℕ) : AccountForHash :=
  ⟨1, List.replicate n 0, false, Bytes.zero 32, Bytes.zero 32⟩

theorem account_hash_binds_funded :
    (fundedAccount 3).lamports ≠ 0 ∧
    (((fundedAccount 3).lamports = (fundedAccount 3).lamports ∧
        (fundedAccount 3).data = (fundedAccount 3).data ∧
        (fundedAccount 3).executable = (fundedAccount 3).executable ∧
        (fundedAccount 3).owner = (fundedAccount 3).owner ∧
        (fundedAccount 3).pubkey = (fundedAccount 3).pubkey) ∨
      (accountBytes (fundedAccount 3) ≠ accountBytes (fundedAccount 3) ∧
        referenceBlake3.xof (accountBytes (fundedAccount 3)) =
          referenceBlake3.xof (accountBytes (fundedAccount 3)))) :=
  ⟨by decide, account_hash_binds referenceBlake3 (fundedAccount 3) (fundedAccount 3) (by decide)
    (by decide) rfl⟩

end Lattica.Lthash
