import Lattica.Liquidator.Ix

/-!
# The remaining accounts

Where every market is in the cache the builder returns, and its set is that of
one list of insertions, the target first. The set keeps the first account of a
key, so the flag of the target's market survives whatever the positions add;
its list falls into the three classes in the order of their discriminants.
-/

namespace Lattica.Liquidator

open Foundation

/-! ## The list of insertions -/

/-- What a market contributes. -/
def accountsOf (account : Pubkey → RemainingAccount) (m : MarketInfo) : List RemainingAccount :=
  [account m.pubkey, .oracle m.oracle]

/-- What the loop over some positions inserts. -/
def touched (cache : MarketCache) (account : Pubkey → RemainingAccount)
    (positions : List Position) : List RemainingAccount :=
  (positions.filter fun p => !p.isAvailable).flatMap fun p =>
    (cache.lookup p.marketIndex).elim [] (accountsOf account)

/-- What both loops over one user insert. -/
def touchedBy (markets : Markets) (u : User) : List RemainingAccount :=
  touched markets.spots (.spot · false) u.spotPositions ++
    touched markets.perps (.perp · false) u.perpPositions

/-- Every open position's market is in the cache. -/
def Cached (cache : MarketCache) (positions : List Position) : Prop :=
  ∀ p ∈ positions, p.isAvailable = false → ∃ m, cache.lookup p.marketIndex = some m

/-- Everything the builder inserts, in its order. -/
def inserted (markets : Markets) (users : List User) (target quote : MarketInfo) :
    List RemainingAccount :=
  accountsOf (.perp · true) target ++ users.flatMap (touchedBy markets) ++
    accountsOf (.spot · false) quote

/-- The set they end up in. -/
def accountSet (markets : Markets) (users : List User) (target quote : MarketInfo) :
    RemainingAccounts :=
  SortedSet.empty.insertAll (inserted markets users target quote)

theorem getOrPanic_eq {cache : MarketCache} {index : UInt16} {m : MarketInfo}
    (h : cache.lookup index = some m) : getOrPanic cache index = .ok m := by
  rw [getOrPanic, h]

theorem insertPositions_eq_ok {cache : MarketCache} {account : Pubkey → RemainingAccount}
    {positions : List Position} {ra : RemainingAccounts} (h : Cached cache positions) :
    insertPositions (getOrPanic cache) account ra positions =
      .ok (ra.insertAll (touched cache account positions)) := by
  unfold insertPositions touched
  have hopen : ∀ p ∈ positions.filter fun p => !p.isAvailable,
      ∃ m, cache.lookup p.marketIndex = some m := by
    intro p hp
    obtain ⟨hp, havail⟩ := List.mem_filter.mp hp
    exact h p hp (by simpa using havail)
  generalize positions.filter (fun p => !p.isAvailable) = ps at hopen
  induction ps generalizing ra with
  | nil => rfl
  | cons p ps ih =>
      obtain ⟨m, hm⟩ := hopen p List.mem_cons_self
      rw [List.foldlM_cons, getOrPanic_eq hm, List.flatMap_cons, hm, SortedSet.insertAll_append]
      exact ih fun p' hp' => hopen p' (List.mem_cons_of_mem p hp')

theorem insertUser_eq_ok {markets : Markets} {ra : RemainingAccounts} {u : User}
    (hspots : Cached markets.spots u.spotPositions)
    (hperps : Cached markets.perps u.perpPositions) :
    insertUser markets ra u = .ok (ra.insertAll (touchedBy markets u)) := by
  unfold insertUser touchedBy
  have hs : insertPositions markets.spot (.spot · false) ra u.spotPositions = _ :=
    insertPositions_eq_ok hspots
  rw [hs, Exec.ok_bind, SortedSet.insertAll_append]
  exact insertPositions_eq_ok hperps

theorem foldlM_insertUser {markets : Markets} {users : List User} {ra : RemainingAccounts}
    (hspots : ∀ u ∈ users, Cached markets.spots u.spotPositions)
    (hperps : ∀ u ∈ users, Cached markets.perps u.perpPositions) :
    users.foldlM (insertUser markets) ra =
      .ok (ra.insertAll (users.flatMap (touchedBy markets))) := by
  induction users generalizing ra with
  | nil => rfl
  | cons u us ih =>
      rw [List.foldlM_cons, insertUser_eq_ok (hspots u List.mem_cons_self)
        (hperps u List.mem_cons_self), Exec.ok_bind, List.flatMap_cons, SortedSet.insertAll_append]
      exact ih (fun u' hu' => hspots u' (List.mem_cons_of_mem u hu'))
        fun u' hu' => hperps u' (List.mem_cons_of_mem u hu')

/-- With every market in the cache the builder returns. -/
theorem buildLiquidatePerpIx_eq_ok {D : Program} {liquidatorAuthority liquidatorUser : Pubkey}
    {liquidatorUserData : User} {liquidateeUser : Pubkey} {liquidateeUserData : User}
    {marketIndex : UInt16} {liquidatorMaxBaseAssetAmount : UInt64} {limitPrice : Option UInt64}
    {markets : Markets} {target quote : MarketInfo}
    (htarget : markets.perps.lookup marketIndex = some target)
    (hquote : markets.spots.lookup 0 = some quote)
    (hspots : ∀ u ∈ [liquidatorUserData, liquidateeUserData],
      Cached markets.spots u.spotPositions)
    (hperps : ∀ u ∈ [liquidatorUserData, liquidateeUserData],
      Cached markets.perps u.perpPositions) :
    buildLiquidatePerpIx D liquidatorAuthority liquidatorUser liquidatorUserData liquidateeUser
        liquidateeUserData marketIndex liquidatorMaxBaseAssetAmount limitPrice markets =
      .ok {
        programId := D.programId
        accounts :=
          baseAccounts D liquidatorAuthority liquidatorUser liquidateeUser liquidateeUserData ++
            (accountSet markets [liquidatorUserData, liquidateeUserData] target
              quote).elems.map RemainingAccount.intoMeta
        data := instructionData marketIndex liquidatorMaxBaseAssetAmount limitPrice } := by
  unfold buildLiquidatePerpIx Markets.perp Markets.spot accountSet inserted
  rw [getOrPanic_eq htarget, Exec.ok_bind, getOrPanic_eq hquote]
  show ([liquidatorUserData, liquidateeUserData].foldlM (insertUser markets) _ >>= _) = _
  rw [foldlM_insertUser hspots hperps, SortedSet.insertAll_append, SortedSet.insertAll_append]
  rfl

/-! ## The markets involved -/

/-- A market always listed, or that of an open position of a user. -/
def Involved (cache : MarketCache) (always : UInt16) (positions : User → List Position)
    (users : List User) (m : MarketInfo) : Prop :=
  cache.lookup always = some m ∨
    ∃ u ∈ users, ∃ p ∈ positions u, p.isAvailable = false ∧
      cache.lookup p.marketIndex = some m

/-- Spot market 0, and every spot market with an open position. -/
def SpotInvolved (markets : Markets) (users : List User) (m : MarketInfo) : Prop :=
  Involved markets.spots 0 User.spotPositions users m

/-- The target, and every perp market with an open position. -/
def PerpInvolved (markets : Markets) (marketIndex : UInt16) (users : List User)
    (m : MarketInfo) : Prop :=
  Involved markets.perps marketIndex User.perpPositions users m

theorem mem_accountsOf {account : Pubkey → RemainingAccount} {m : MarketInfo}
    {a : RemainingAccount} :
    a ∈ accountsOf account m ↔ a = account m.pubkey ∨ a = .oracle m.oracle := by
  simp [accountsOf]

theorem mem_touched {cache : MarketCache} {account : Pubkey → RemainingAccount}
    {positions : List Position} {a : RemainingAccount} :
    a ∈ touched cache account positions ↔ ∃ p ∈ positions, p.isAvailable = false ∧
      ∃ m, cache.lookup p.marketIndex = some m ∧ a ∈ accountsOf account m := by
  rw [touched, List.mem_flatMap]
  constructor
  · rintro ⟨p, hp, ha⟩
    obtain ⟨hp, havail⟩ := List.mem_filter.mp hp
    cases hm : cache.lookup p.marketIndex with
    | none =>
        rw [hm] at ha
        cases ha
    | some m =>
        rw [hm] at ha
        exact ⟨p, hp, by simpa using havail, m, hm, ha⟩
  · rintro ⟨p, hp, havail, m, hm, ha⟩
    refine ⟨p, List.mem_filter.mpr ⟨hp, by simpa using havail⟩, ?_⟩
    rw [hm]
    exact ha

section Inserted

variable {markets : Markets} {marketIndex : UInt16} {users : List User}
  {target quote : MarketInfo} {a : RemainingAccount}

/-- Each insertion belongs to an involved market, under the class of that market. -/
theorem of_mem_inserted (htarget : markets.perps.lookup marketIndex = some target)
    (hquote : markets.spots.lookup 0 = some quote) (h : a ∈ inserted markets users target quote) :
    a = .perp target.pubkey true ∨
      (∃ m, SpotInvolved markets users m ∧ a ∈ accountsOf (.spot · false) m) ∨
      ∃ m, PerpInvolved markets marketIndex users m ∧ a ∈ accountsOf (.perp · false) m := by
  unfold inserted at h
  rcases List.mem_append.mp h with h | h
  · rcases List.mem_append.mp h with h | h
    · rcases mem_accountsOf.mp h with rfl | rfl
      · exact Or.inl rfl
      · exact Or.inr (Or.inr ⟨target, Or.inl htarget, mem_accountsOf.mpr (Or.inr rfl)⟩)
    · obtain ⟨u, hu, h⟩ := List.mem_flatMap.mp h
      rcases List.mem_append.mp h with h | h
      · obtain ⟨p, hp, havail, m, hm, ha⟩ := mem_touched.mp h
        exact Or.inr (Or.inl ⟨m, Or.inr ⟨u, hu, p, hp, havail, hm⟩, ha⟩)
      · obtain ⟨p, hp, havail, m, hm, ha⟩ := mem_touched.mp h
        exact Or.inr (Or.inr ⟨m, Or.inr ⟨u, hu, p, hp, havail, hm⟩, ha⟩)
  · exact Or.inr (Or.inl ⟨quote, Or.inl hquote, h⟩)

theorem spot_inserted (hquote : markets.spots.lookup 0 = some quote) {m : MarketInfo}
    (h : SpotInvolved markets users m) (ha : a ∈ accountsOf (.spot · false) m) :
    a ∈ inserted markets users target quote := by
  unfold inserted
  rcases h with h | ⟨u, hu, p, hp, havail, hm⟩
  · rw [hquote] at h
    cases h
    exact List.mem_append_right _ ha
  · apply List.mem_append_left
    apply List.mem_append_right
    refine List.mem_flatMap.mpr ⟨u, hu, List.mem_append_left _ ?_⟩
    exact mem_touched.mpr ⟨p, hp, havail, m, hm, ha⟩

/-- The target's own market goes in writable, every other one readable. -/
theorem perp_inserted (htarget : markets.perps.lookup marketIndex = some target)
    {m : MarketInfo} (h : PerpInvolved markets marketIndex users m) :
    (∃ writable, .perp m.pubkey writable ∈ inserted markets users target quote) ∧
      .oracle m.oracle ∈ inserted markets users target quote := by
  unfold inserted
  rcases h with h | ⟨u, hu, p, hp, havail, hm⟩
  · rw [htarget] at h
    cases h
    refine ⟨⟨true, ?_⟩, ?_⟩
    · exact List.mem_append_left _ (List.mem_append_left _ (mem_accountsOf.mpr (Or.inl rfl)))
    · exact List.mem_append_left _ (List.mem_append_left _ (mem_accountsOf.mpr (Or.inr rfl)))
  · have hmem : ∀ b ∈ accountsOf (.perp · false) m, b ∈ users.flatMap (touchedBy markets) := by
      intro b hb
      refine List.mem_flatMap.mpr ⟨u, hu, List.mem_append_right _ ?_⟩
      exact mem_touched.mpr ⟨p, hp, havail, m, hm, hb⟩
    refine ⟨⟨false, ?_⟩, ?_⟩
    · exact List.mem_append_left _ (List.mem_append_right _
        (hmem _ (mem_accountsOf.mpr (Or.inl rfl))))
    · exact List.mem_append_left _ (List.mem_append_right _
        (hmem _ (mem_accountsOf.mpr (Or.inr rfl))))

end Inserted

/-! ## The three classes -/

/-- The pubkeys of one class, in the order of the set. -/
def classOf (ra : RemainingAccounts) (n : ℕ) : List Pubkey :=
  (ra.elems.filter fun a => a.discriminant = n).map RemainingAccount.pubkey

theorem classOf_sorted (ra : RemainingAccounts) (n : ℕ) :
    (classOf ra n).Pairwise fun p q => pubkeyOrder p < pubkeyOrder q := by
  rw [classOf, List.pairwise_map]
  have hsorted := ra.sorted.filter fun a => decide (a.discriminant = n)
  refine hsorted.imp_of_mem ?_
  intro a b ha hb hlt
  have ha : a.discriminant = n := by simpa using (List.mem_filter.mp ha).2
  have hb : b.discriminant = n := by simpa using (List.mem_filter.mp hb).2
  rcases RemainingAccount.key_lt_iff.mp hlt with h | ⟨_, h⟩
  · rw [ha, hb] at h
    exact absurd h (lt_irrefl n)
  · exact h

theorem mem_classOf {markets : Markets} {users : List User} {target quote : MarketInfo} {n : ℕ}
    {pk : Pubkey} : pk ∈ classOf (accountSet markets users target quote) n ↔
      ∃ a ∈ inserted markets users target quote, a.discriminant = n ∧ a.pubkey = pk := by
  rw [classOf, List.mem_map]
  constructor
  · rintro ⟨a, ha, rfl⟩
    obtain ⟨ha, hn⟩ := List.mem_filter.mp ha
    rcases SortedSet.mem_or_mem_of_mem_insertAll ha with hempty | hxs
    · exact absurd hempty (SortedSet.not_mem_empty a)
    · exact ⟨a, hxs, by simpa using hn, rfl⟩
  · rintro ⟨a, ha, hn, rfl⟩
    -- an account with this key is there, if not this one
    obtain ⟨b, hb, hkey⟩ := SortedSet.exists_key_mem_insertAll
      (s := (SortedSet.empty : RemainingAccounts)) ha
    obtain ⟨hdisc, hpk⟩ := RemainingAccount.key_eq_iff.mp hkey
    refine ⟨b, List.mem_filter.mpr ⟨hb, ?_⟩, hpk⟩
    simp [hdisc, hn]

theorem elems_eq_classes (ra : RemainingAccounts) : ra.elems =
    (ra.elems.filter fun a => a.discriminant = 0) ++
      (ra.elems.filter fun a => a.discriminant = 1) ++
      (ra.elems.filter fun a => a.discriminant = 2) := by
  have hmono : ra.elems.Pairwise fun a b => a.discriminant ≤ b.discriminant := by
    refine ra.sorted.imp ?_
    intro a b hlt
    rcases RemainingAccount.key_lt_iff.mp hlt with h | ⟨h, _⟩
    · exact le_of_lt h
    · exact le_of_eq h
  have hall : (ra.elems.filter fun a => 0 ≤ a.discriminant) = ra.elems := by
    simp
  have hnone : (ra.elems.filter fun a => 3 ≤ a.discriminant) = [] := by
    rw [List.filter_eq_nil_iff]
    intro a _
    cases a with
    | oracle _ => simp [RemainingAccount.discriminant]
    | spot _ _ => simp [RemainingAccount.discriminant]
    | perp _ _ => simp [RemainingAccount.discriminant]
  have h0 := SortedSet.filter_class_append 0 hmono
  have h1 := SortedSet.filter_class_append 1 hmono
  have h2 := SortedSet.filter_class_append 2 hmono
  rw [hnone, List.append_nil] at h2
  rw [hall] at h0
  rw [List.append_assoc, h2, h1, h0]

section Flags

variable {markets : Markets} {marketIndex : UInt16} {users : List User}
  {target quote : MarketInfo} {a : RemainingAccount}

/-- The flag of the set is the target's, wherever else its market was inserted. -/
theorem intoMeta_eq (htarget : markets.perps.lookup marketIndex = some target)
    (hquote : markets.spots.lookup 0 = some quote)
    (h : a ∈ accountSet markets users target quote) :
    a.intoMeta = if a.discriminant = 2 ∧ a.pubkey = target.pubkey then .new a.pubkey false
      else .newReadonly a.pubkey false := by
  have hfirst : RemainingAccount.perp target.pubkey true ∈
      accountSet markets users target quote := by
    unfold accountSet inserted
    rw [List.append_assoc, SortedSet.insertAll_append]
    apply SortedSet.mem_insertAll_of_mem
    show RemainingAccount.perp target.pubkey true ∈ SortedSet.insertAll
      (SortedSet.empty.insert (.perp target.pubkey true)) [.oracle target.oracle]
    apply SortedSet.mem_insertAll_of_mem
    exact List.mem_singleton_self _
  by_cases hkey : a.discriminant = 2 ∧ a.pubkey = target.pubkey
  · have heq : a = .perp target.pubkey true :=
      SortedSet.eq_of_key_eq h hfirst (RemainingAccount.key_eq_iff.mpr hkey)
    rw [if_pos hkey, heq]
    rfl
  · rw [if_neg hkey]
    rcases SortedSet.mem_or_mem_of_mem_insertAll h with hempty | h
    · exact absurd hempty (SortedSet.not_mem_empty a)
    · rcases of_mem_inserted htarget hquote h with rfl | ⟨m, _, ha⟩ | ⟨m, _, ha⟩
      · exact absurd ⟨rfl, rfl⟩ hkey
      · rcases mem_accountsOf.mp ha with rfl | rfl
        · rfl
        · rfl
      · rcases mem_accountsOf.mp ha with rfl | rfl
        · rfl
        · rfl

theorem map_intoMeta_class (htarget : markets.perps.lookup marketIndex = some target)
    (hquote : markets.spots.lookup 0 = some quote) (n : ℕ) :
    ((accountSet markets users target quote).elems.filter fun a => a.discriminant = n).map
        RemainingAccount.intoMeta =
      (classOf (accountSet markets users target quote) n).map fun pk =>
        if n = 2 ∧ pk = target.pubkey then .new pk false else .newReadonly pk false := by
  rw [classOf, List.map_map]
  apply List.map_congr_left
  intro a ha
  obtain ⟨ha, hn⟩ := List.mem_filter.mp ha
  have hn : a.discriminant = n := by simpa using hn
  rw [intoMeta_eq htarget hquote ha, hn]
  rfl

theorem mem_oracles (htarget : markets.perps.lookup marketIndex = some target)
    (hquote : markets.spots.lookup 0 = some quote) {pk : Pubkey} :
    pk ∈ classOf (accountSet markets users target quote) 0 ↔
      ∃ m, (SpotInvolved markets users m ∨ PerpInvolved markets marketIndex users m) ∧
        m.oracle = pk := by
  rw [mem_classOf]
  constructor
  · rintro ⟨a, ha, hn, rfl⟩
    rcases of_mem_inserted htarget hquote ha with rfl | ⟨m, hm, ha⟩ | ⟨m, hm, ha⟩
    · cases hn
    · rcases mem_accountsOf.mp ha with rfl | rfl
      · cases hn
      · exact ⟨m, Or.inl hm, rfl⟩
    · rcases mem_accountsOf.mp ha with rfl | rfl
      · cases hn
      · exact ⟨m, Or.inr hm, rfl⟩
  · rintro ⟨m, hm | hm, rfl⟩
    · exact ⟨.oracle m.oracle, spot_inserted hquote hm (mem_accountsOf.mpr (Or.inr rfl)), rfl, rfl⟩
    · exact ⟨.oracle m.oracle, (perp_inserted htarget hm).2, rfl, rfl⟩

theorem mem_spots (htarget : markets.perps.lookup marketIndex = some target)
    (hquote : markets.spots.lookup 0 = some quote) {pk : Pubkey} :
    pk ∈ classOf (accountSet markets users target quote) 1 ↔
      ∃ m, SpotInvolved markets users m ∧ m.pubkey = pk := by
  rw [mem_classOf]
  constructor
  · rintro ⟨a, ha, hn, rfl⟩
    rcases of_mem_inserted htarget hquote ha with rfl | ⟨m, hm, ha⟩ | ⟨m, hm, ha⟩
    · cases hn
    · rcases mem_accountsOf.mp ha with rfl | rfl
      · exact ⟨m, hm, rfl⟩
      · cases hn
    · rcases mem_accountsOf.mp ha with rfl | rfl
      · cases hn
      · cases hn
  · rintro ⟨m, hm, rfl⟩
    exact ⟨.spot m.pubkey false, spot_inserted hquote hm (mem_accountsOf.mpr (Or.inl rfl)),
      rfl, rfl⟩

theorem mem_perps (htarget : markets.perps.lookup marketIndex = some target)
    (hquote : markets.spots.lookup 0 = some quote) {pk : Pubkey} :
    pk ∈ classOf (accountSet markets users target quote) 2 ↔
      ∃ m, PerpInvolved markets marketIndex users m ∧ m.pubkey = pk := by
  rw [mem_classOf]
  constructor
  · rintro ⟨a, ha, hn, rfl⟩
    rcases of_mem_inserted htarget hquote ha with rfl | ⟨m, hm, ha⟩ | ⟨m, hm, ha⟩
    · exact ⟨target, Or.inl htarget, rfl⟩
    · rcases mem_accountsOf.mp ha with rfl | rfl
      · cases hn
      · cases hn
    · rcases mem_accountsOf.mp ha with rfl | rfl
      · exact ⟨m, hm, rfl⟩
      · cases hn
  · rintro ⟨m, hm, rfl⟩
    obtain ⟨writable, hmem⟩ := (perp_inserted htarget hm).1
    exact ⟨.perp m.pubkey writable, hmem, rfl, rfl⟩

end Flags

/-- **The remaining accounts.** Oracles, spot markets and perp markets in this
order, each class strictly increasing and exactly that of the markets involved;
none signs, and the target's perp market alone is writable. -/
theorem remaining_accounts_exact (D : Program) (liquidatorAuthority liquidatorUser : Pubkey)
    (liquidatorUserData : User) (liquidateeUser : Pubkey) (liquidateeUserData : User)
    (marketIndex : UInt16) (liquidatorMaxBaseAssetAmount : UInt64) (limitPrice : Option UInt64)
    (markets : Markets) (target quote : MarketInfo)
    (htarget : markets.perps.lookup marketIndex = some target)
    (hquote : markets.spots.lookup 0 = some quote)
    (hspots : ∀ u ∈ [liquidatorUserData, liquidateeUserData],
      Cached markets.spots u.spotPositions)
    (hperps : ∀ u ∈ [liquidatorUserData, liquidateeUserData],
      Cached markets.perps u.perpPositions) :
    let users := [liquidatorUserData, liquidateeUserData]
    ∃ (ix : Instruction) (oracles spots perps : List Pubkey),
      buildLiquidatePerpIx D liquidatorAuthority liquidatorUser liquidatorUserData liquidateeUser
          liquidateeUserData marketIndex liquidatorMaxBaseAssetAmount limitPrice markets =
        .ok ix ∧
      ix.accounts =
        baseAccounts D liquidatorAuthority liquidatorUser liquidateeUser liquidateeUserData ++
          (oracles.map (AccountMeta.newReadonly · false) ++
            spots.map (AccountMeta.newReadonly · false) ++
            perps.map fun pk => if pk = target.pubkey then AccountMeta.new pk false
              else AccountMeta.newReadonly pk false) ∧
      oracles.Pairwise (fun p q => pubkeyOrder p < pubkeyOrder q) ∧
      spots.Pairwise (fun p q => pubkeyOrder p < pubkeyOrder q) ∧
      perps.Pairwise (fun p q => pubkeyOrder p < pubkeyOrder q) ∧
      (∀ pk, pk ∈ oracles ↔ ∃ m,
        (SpotInvolved markets users m ∨ PerpInvolved markets marketIndex users m) ∧
          m.oracle = pk) ∧
      (∀ pk, pk ∈ spots ↔ ∃ m, SpotInvolved markets users m ∧ m.pubkey = pk) ∧
      ∀ pk, pk ∈ perps ↔ ∃ m, PerpInvolved markets marketIndex users m ∧ m.pubkey = pk := by
  intro users
  let ra := accountSet markets users target quote
  have hreadonly : ∀ n ≠ 2, (ra.elems.filter fun a => a.discriminant = n).map
      RemainingAccount.intoMeta = (classOf ra n).map (AccountMeta.newReadonly · false) := by
    intro n hn
    rw [map_intoMeta_class htarget hquote n]
    apply List.map_congr_left
    intro pk _
    rw [if_neg fun h => hn h.1]
  have hperp : (ra.elems.filter fun a => a.discriminant = 2).map RemainingAccount.intoMeta =
      (classOf ra 2).map fun pk => if pk = target.pubkey then AccountMeta.new pk false
        else AccountMeta.newReadonly pk false := by
    rw [map_intoMeta_class htarget hquote 2]
    apply List.map_congr_left
    intro pk _
    simp only [true_and]
  refine ⟨_, classOf ra 0, classOf ra 1, classOf ra 2,
    buildLiquidatePerpIx_eq_ok htarget hquote hspots hperps, ?_, classOf_sorted ra 0,
    classOf_sorted ra 1, classOf_sorted ra 2, ?_, ?_, ?_⟩
  · show _ ++ ra.elems.map RemainingAccount.intoMeta = _
    rw [elems_eq_classes ra, List.map_append, List.map_append, hreadonly 0 (by decide),
      hreadonly 1 (by decide), hperp]
  · exact fun pk => mem_oracles htarget hquote
  · exact fun pk => mem_spots htarget hquote
  · exact fun pk => mem_perps htarget hquote

/-! Both users hold a position in the target's market, and a spot market shares its oracle. -/

def sampleInfo (pubkey oracle : UInt8) : MarketInfo where
  pubkey := asArray 32 (List.replicate 32 pubkey)
  oracle := asArray 32 (List.replicate 32 oracle)

def sampleMarkets : Markets where
  perps := (Finmap.singleton 0 (sampleInfo 7 1)).insert 1 (sampleInfo 5 2)
  spots := (Finmap.singleton 0 (sampleInfo 9 3)).insert 1 (sampleInfo 4 1)

def sampleLiquidator : User where
  authority := Bytes.zero 32
  spotPositions := [⟨1, false⟩, ⟨8, true⟩]
  perpPositions := [⟨0, false⟩]

def sampleLiquidatee : User where
  authority := Bytes.zero 32
  spotPositions := []
  perpPositions := [⟨1, false⟩, ⟨0, false⟩]

def sampleProgram : Program where
  programId := Bytes.zero 32
  findProgramAddress _ programId := (programId, 255)

theorem sampleLiquidator_cached : Cached sampleMarkets.spots sampleLiquidator.spotPositions ∧
    Cached sampleMarkets.perps sampleLiquidator.perpPositions := by
  constructor
  · intro p hp havail
    rcases List.mem_cons.mp hp with rfl | hp
    · exact ⟨_, rfl⟩
    · rw [List.mem_singleton] at hp
      subst hp
      cases havail
  · intro p hp _
    rw [sampleLiquidator, List.mem_singleton] at hp
    subst hp
    exact ⟨_, rfl⟩

theorem sampleLiquidatee_cached : Cached sampleMarkets.spots sampleLiquidatee.spotPositions ∧
    Cached sampleMarkets.perps sampleLiquidatee.perpPositions := by
  constructor
  · intro p hp
    cases hp
  · intro p hp _
    rcases List.mem_cons.mp hp with rfl | hp
    · exact ⟨_, rfl⟩
    · rw [List.mem_singleton] at hp
      subst hp
      exact ⟨_, rfl⟩

example : (accountSet sampleMarkets [sampleLiquidator, sampleLiquidatee] (sampleInfo 7 1)
      (sampleInfo 9 3)).elems.map
        (fun a => (a.discriminant, a.pubkey.1.head?, a.intoMeta.isWritable)) =
    [(0, some 1, false), (0, some 2, false), (0, some 3, false), (1, some 4, false),
      (1, some 9, false), (2, some 5, false), (2, some 7, true)] := by decide +kernel

theorem remaining_accounts_exact_shared_oracle :
    ∃ (ix : Instruction) (oracles spots perps : List Pubkey),
    buildLiquidatePerpIx sampleProgram (Bytes.zero 32) (Bytes.zero 32) sampleLiquidator
        (Bytes.zero 32) sampleLiquidatee 0 1000000 none sampleMarkets = .ok ix ∧
      ix.accounts =
        baseAccounts sampleProgram (Bytes.zero 32) (Bytes.zero 32) (Bytes.zero 32)
            sampleLiquidatee ++
          (oracles.map (AccountMeta.newReadonly · false) ++
            spots.map (AccountMeta.newReadonly · false) ++
            perps.map fun pk => if pk = (sampleInfo 7 1).pubkey then AccountMeta.new pk false
              else AccountMeta.newReadonly pk false) := by
  obtain ⟨ix, oracles, spots, perps, hbuild, haccounts, _⟩ :=
    remaining_accounts_exact sampleProgram (Bytes.zero 32) (Bytes.zero 32) sampleLiquidator
      (Bytes.zero 32) sampleLiquidatee 0 1000000 none sampleMarkets (sampleInfo 7 1)
      (sampleInfo 9 3) rfl rfl
      (by
        intro u hu
        simp only [List.mem_cons, List.not_mem_nil, or_false] at hu
        rcases hu with rfl | rfl
        · exact sampleLiquidator_cached.1
        · exact sampleLiquidatee_cached.1)
      (by
        intro u hu
        simp only [List.mem_cons, List.not_mem_nil, or_false] at hu
        rcases hu with rfl | rfl
        · exact sampleLiquidator_cached.2
        · exact sampleLiquidatee_cached.2)
  exact ⟨ix, oracles, spots, perps, hbuild, haccounts⟩

end Lattica.Liquidator
