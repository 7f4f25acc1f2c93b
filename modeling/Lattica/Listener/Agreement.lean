import Lattica.Listener.Recovery
import Lattica.Shred.LeaderShreds
import Lattica.Shred.Unforgeable

/-!
# Agreement of reconstructions

`Reconstructed` carries a Merkle root, and nothing compares the recovered
shards with it. The call that reports it hands over exactly 32 shards, which
always lie on a codeword (`Recovers.codeword`), so two runs that report one root
return the same shards exactly when one codeword agrees with what both handed
over. Under the root of a constructed set it does; a leader can also sign a tree
of 33 shreds on no codeword, and then it does not.
-/

namespace Lattica.Listener

open Foundation Shred Reedsol

variable {C : Crates} {P : Profile} {code : ShardCode} {a : FecAssembler} {x : Admitted}
  {st : FecState} {ss : SlotState} {es : List FecEvent} {calls calls' : List Call} {key : FecKey}
  {root : Bytes 32} {handed handed' out out' : List (Option (List UInt8))}

/-- A call of the run reports the set reconstructed under the root; in it
`reconstruct` was handed `handed` and returned `out`. -/
def Recovers (C : Crates) (P : Profile) (calls : List Call) (key : FecKey) (root : Bytes 32)
    (handed out : List (Option (List UInt8))) : Prop :=
  ∃ pre c post a₁ es₁ a₂ es₂ das st r, calls = pre ++ c :: post ∧
    ingestAll C P .new pre = .ok (a₁, es₁) ∧ ingest C P c.leaders a₁ c.raw = .ok (a₂, es₂) ∧
    .reconstructed key root das ∈ es₂ ∧ a₂.states key = some st ∧
    cloneShards st.shards = .ok handed ∧ reconstruct C handed = .ok r ∧ r.1 = out

/-- The byte strings hashed while a call verifies its datagram: none if the slot
has no leader. -/
def Call.hashed (C : Crates) (P : Profile) (c : Call) : List (List UInt8) :=
  match parseShred P c.raw with
  | .ok p => if (c.leaders p.header.slot).isSome then hashedByVerify C P c.raw else []
  | _ => []

/-- The byte strings hashed while the shreds of a run are verified. -/
def hashedByRun (C : Crates) (P : Profile) (calls : List Call) : List (List UInt8) :=
  calls.flatMap (Call.hashed C P)

/-! ## The call that reports -/

/-- What is known of the shards a reporting call hands over. -/
structure Handed (C : Crates) (P : Profile) (calls : List Call) (key : FecKey) (root : Bytes 32)
    (handed : List (Option (List UInt8))) : Prop where
  recoverable : Recoverable 987 handed
  exact : Crates.present handed = 32
  origin : ∀ {i s}, handed[i]? = some (some s) → ∃ c ∈ calls, ∃ x,
    gate C P c.leaders c.raw = .ok (.ok x) ∧ x.key = key ∧ x.root = root ∧ x.idx = i ∧ x.bytes = s

theorem Recovers.to_handed (hrs : C.ReconstructsEqualLengths)
    (h : Recovers C P calls key root handed out) : Handed C P calls key root handed := by
  obtain ⟨pre, c, post, a₁, es₁, a₂, es₂, das, st, r, rfl, hpre, hc, hmem, hst, hclone, _⟩ := h
  obtain ⟨hwf, ht⟩ := run_tracks hpre
  obtain ⟨hwf₂, ht₂⟩ := run_tracks (ingestAll_snoc_eq_ok.mpr ⟨a₁, es₁, es₂, hpre, hc, rfl⟩)
  obtain rfl : a₂.stateOf key = st := by rw [FecAssembler.stateOf, hst, Option.getD_some]
  rw [cloneShards_eq (hwf₂.stateOf_length key)] at hclone
  cases hclone
  rcases ingest_cases hwf hc with ⟨_, _, _, rfl⟩ | ⟨x, st, ss, hgate, rfl, hexit⟩
  · simp at hmem
  · obtain ⟨rfl, rfl, hpend, hrec, hroot, hdist⟩ := hexit.reports_reconstructed hmem
    -- one shred fewer was not enough
    have hbefore : (a₁.stateOf x.key).distinctSeen < 32 := by
      by_contra hmany
      have hdone := ht.reconstructed_of_many hwf (fun _ => length_of_mem_admitted) hrs
        (Nat.le_of_not_lt hmany)
      rw [hpend] at hdone
      cases hdone
    have hput : (a₁.put x.key st ss).stateOf x.key = st := FecAssembler.stateOf_put_self a₁
    rw [← hput] at hrec hroot hdist
    obtain ⟨hmany, _⟩ := ht₂.enough hrec
    refine ⟨ht₂.recoverable hwf₂ (fun _ => length_of_mem_admitted) hmany, ?_, fun hs => ?_⟩
    · rw [← hwf₂.stateOf_distinct]
      omega
    · obtain ⟨y, hy, hkey, hidx, hbytes, hyroot⟩ := ht₂.origin hs
      obtain ⟨c', hc', hgate'⟩ := mem_admitted hy
      rw [← ht₂.root, hroot] at hyroot
      refine ⟨c', ?_, y, hgate', hkey, (Option.some.inj hyroot).symm, hidx, hbytes⟩
      rw [List.append_cons]
      exact List.mem_append_left _ hc'

/-- A reported set was handed over and returned. -/
theorem exists_recovers (h : ingestAll C P .new calls = .ok (a, es)) {das : ℚ}
    (hmem : .reconstructed key root das ∈ es) :
    ∃ handed out, Recovers C P calls key root handed out := by
  obtain ⟨pre, c, post, a₁, es₁, a₂, es₂, hcalls, hpre, hc, hmem₂⟩ := mem_events h hmem
  obtain ⟨hwf, ht⟩ := run_tracks hpre
  rcases ingest_cases hwf hc with ⟨_, _, _, rfl⟩ | ⟨x, st, ss, _, rfl, hexit⟩
  · simp at hmem₂
  · obtain ⟨rfl, rfl, _, hrec, _⟩ := hexit.reports_reconstructed hmem₂
    have hput : (a₁.put x.key st ss).stateOf x.key = st := FecAssembler.stateOf_put_self a₁
    have hlength : st.shards.length = 64 := by
      rw [← hput]
      exact (hexit.wellFormed hwf).stateOf_length x.key
    have henough : ∃ r, reconstruct C st.shards = .ok r := by
      have h' := ((ht.step hwf hexit).enough (hput.symm ▸ hrec)).2
      rwa [hput] at h'
    obtain ⟨r, hr⟩ := henough
    exact ⟨st.shards, r.1, pre, c, post, a₁, es₁, _, es₂, das, st, r, hcalls, hpre, hc, hmem₂,
      FecAssembler.put_states_self _, cloneShards_eq hlength, hr, rfl⟩

/-! ## One codeword -/

/-- What is returned is the codeword through what was handed over. -/
theorem Recovers.codeword (hdec : DecodesMds C code)
    (h : Recovers C P calls key root handed out) :
    ∃ w ∈ (code 987).words, Agrees w handed ∧ out = filled w := by
  have hh := h.to_handed hdec.reconstructsEqualLengths
  obtain ⟨w, hw, hag⟩ := hh.recoverable.exists_codeword hh.exact code
  obtain ⟨_, _, _, _, _, _, _, _, _, r, _, _, _, _, _, _, hr, rfl⟩ := h
  exact ⟨w, hw, hag, reconstruct_eq_codeword hdec hh.recoverable hr hw hag⟩

theorem Recovers.eq_of_agrees (hdec : DecodesMds C code)
    (h : Recovers C P calls key root handed out) {w : Fin 64 → Bytes 987}
    (hw : w ∈ (code 987).words) (hag : Agrees w handed) : out = filled w := by
  have hh := h.to_handed hdec.reconstructsEqualLengths
  obtain ⟨_, _, _, _, _, _, _, _, _, r, _, _, _, _, _, _, hr, rfl⟩ := h
  exact reconstruct_eq_codeword hdec hh.recoverable hr hw hag

/-- Two runs return the same shards exactly when they are on one codeword. -/
theorem Recovers.eq_iff (hdec : DecodesMds C code) (h : Recovers C P calls key root handed out)
    (h' : Recovers C P calls' key root handed' out') :
    out = out' ↔ ∃ w ∈ (code 987).words, Agrees w handed ∧ Agrees w handed' := by
  constructor
  · rintro rfl
    obtain ⟨w, hw, hag, hout⟩ := h.codeword hdec
    obtain ⟨w', _, hag', hout'⟩ := h'.codeword hdec
    have hsame : w = w' := filled_injective (hout.symm.trans hout')
    exact ⟨w, hw, hag, hsame ▸ hag'⟩
  · rintro ⟨w, hw, hag, hag'⟩
    rw [h.eq_of_agrees hdec hw hag, h'.eq_of_agrees hdec hw hag']

/-! ## Under the root of a constructed set -/

theorem variant_of_authBytes {raw raw' : List UInt8} {v v' : ShredVariant}
    (hv : ShredVariant.decode (raw.getD 64 0) = .ok v)
    (hv' : ShredVariant.decode (raw'.getD 64 0) = .ok v') (hlen : v.expectedLen ≤ raw.length)
    (hlen' : v'.expectedLen ≤ raw'.length) (hauth : authBytes raw v = authBytes raw' v') :
    v = v' := by
  have hfirst : ∀ {raw : List UInt8} {v : ShredVariant},
      ShredVariant.decode (raw.getD 64 0) = .ok v → v.expectedLen ≤ raw.length →
      (authBytes raw v).getD 0 0 = raw.getD 64 0 := by
    intro raw v hv hlen
    obtain ⟨_, _, hps⟩ := ShredVariant.decode_ok hv
    obtain ⟨_, hst, _⟩ := ShredVariant.tail_bounds hps
    rw [authBytes, getD_cut _ (by omega)]
  rw [← hfirst hv hlen, hauth, hfirst hv' hlen'] at hv
  exact Except.ok.inj (hv.symm.trans hv')

/-- A region inside the authenticated bytes, read off them. -/
theorem region_of_authBytes {raw : List UInt8} {i : ℕ} (j : ℕ) :
    (admittedAs C raw (variantAt i) j).bytes = cut (authBytes raw (variantAt i))
      (regionOffset (variantAt i).kind - 64) (regionOffset (variantAt i).kind - 64 + 987) := by
  change cut raw (regionOffset (variantAt i).kind) (regionOffset (variantAt i).kind + 987) = _
  obtain ⟨hlow, hhigh⟩ : 64 ≤ regionOffset (variantAt i).kind ∧
      regionOffset (variantAt i).kind + 987 ≤ (variantAt i).proofStart := by
    unfold variantAt
    split <;> decide
  generalize regionOffset (variantAt i).kind = offset at hlow hhigh
  have hend : 64 + (offset - 64 + 987) = offset + 987 := by omega
  have hin : 64 + (offset - 64 + 987) ≤ (variantAt i).proofStart := hend.le.trans hhigh
  rw [authBytes, cut_cut raw hin, hend, Nat.add_sub_cancel' hlow]

namespace BuiltSet

variable (B : BuiltSet C P)

/-- What is admitted under the root of a set is its shred at that position. -/
theorem bytes_or_collision {leaders : Leaders} {raw : List UInt8}
    (hgate : gate C P leaders raw = .ok (.ok x)) (hroot : x.root = B.set.merkleRoot) {i : Fin 64}
    (hidx : x.idx = i.1) : x.bytes = erasureRegion B.set i ∨
      C.tree.Collision (hashedByBuild C B.set ++ hashedByVerify C P raw) := by
  obtain ⟨parity, hshape, _, hset, hshred⟩ := B.eq_setOf
  obtain ⟨v, j, pk, _, hv, rfl⟩ := gate_eq_admitted hgate
  have hj : j = i.1 := hidx
  subst hj
  rw [hv.hashedByVerify_eq, hset]
  rcases hv.under_set_root hshape (hroot.trans (congrArg FecSet.merkleRoot hset)) with
    ⟨_, hauth⟩ | hcol
  · have hf : Fields B.params i.1 (shredAt C B.payload B.params parity i.1) :=
      fields_shredAt hshape i.2
    have hvar := variant_of_authBytes hv.decodes
      (by rw [hf.variant, decode_encode_variantAt]) hv.full hf.length.ge hauth
    subst hvar
    refine Or.inl ?_
    rw [region_of_authBytes, hauth, ← hshred, ← region_of_authBytes i.1, ← hset]
    exact B.admit_bytes i
  · exact Or.inr hcol

end BuiltSet

theorem hashedByVerify_subset {c : Call} (hc : c ∈ calls)
    (hgate : gate C P c.leaders c.raw = .ok (.ok x)) :
    ∀ m ∈ hashedByVerify C P c.raw, m ∈ hashedByRun C P calls := by
  obtain ⟨v, i, pk, hl, hv, _⟩ := gate_eq_admitted hgate
  intro m hm
  refine List.mem_flatMap.mpr ⟨c, hc, ?_⟩
  rw [Call.hashed, parseShred_eq hv.decodes hv.full, hv.index]
  simp only [Exec.ok_bind, parsed, hl, Option.isSome_some, if_true]
  exact hm

/-- A set reported under the root of a constructed set comes back as that set. -/
theorem Recovers.regions_or_collision (henc : EncodesMds C code) (hdec : DecodesMds C code)
    (h : Recovers C P calls key root handed out) (B : BuiltSet C P)
    (hroot : B.set.merkleRoot = root) :
    (out = List.ofFn fun i => some (erasureRegion B.set i)) ∨
      C.tree.Collision (hashedByBuild C B.set ++ hashedByRun C P calls) := by
  have hh := h.to_handed hdec.reconstructsEqualLengths
  by_cases hag : Agrees (regionWord B.set) handed
  · refine Or.inl ?_
    rw [h.eq_of_agrees hdec (B.codeword henc) hag, filled]
    simp only [regionWord, asArray_val (B.length_erasureRegion _)]
  · right
    rw [Agrees] at hag
    push Not at hag
    obtain ⟨i, s, hs, hne⟩ := hag
    rw [regionWord, asArray_val (B.length_erasureRegion i)] at hne
    obtain ⟨c, hc, x, hgate, _, hx, hidx, rfl⟩ := hh.origin hs
    rcases B.bytes_or_collision hgate (hx.trans hroot.symm) hidx with heq | hcol
    · exact absurd heq hne
    · refine hcol.mono fun m hm => ?_
      rw [List.mem_append] at hm ⊢
      exact hm.imp_right (hashedByVerify_subset hc hgate m)

/-- **When two reconstructions under one root agree**: exactly when one codeword
agrees with the shards of both, as under the root of every constructed set. -/
theorem reconstructions_agree_iff (C : Crates) (code : ShardCode) (henc : EncodesMds C code)
    (hdec : DecodesMds C code) (P : Profile) (calls calls' : List Call) (a a' : FecAssembler)
    (es es' : List FecEvent) (hrun : ingestAll C P .new calls = .ok (a, es))
    (hrun' : ingestAll C P .new calls' = .ok (a', es')) (key : FecKey) (root : Bytes 32)
    (das das' : ℚ) (hmem : .reconstructed key root das ∈ es)
    (hmem' : .reconstructed key root das' ∈ es') :
    (∃ handed out, Recovers C P calls key root handed out) ∧
    (∃ handed out, Recovers C P calls' key root handed out) ∧
    ∀ handed out handed' out', Recovers C P calls key root handed out →
      Recovers C P calls' key root handed' out' →
      (out = out' ↔ ∃ w ∈ (code 987).words, Agrees w handed ∧ Agrees w handed') ∧
      ∀ payload params fs, buildFecSet C P payload params = .ok fs → fs.merkleRoot = root →
        out = out' ∨ C.tree.Collision
          (hashedByBuild C fs ++ (hashedByRun C P calls ++ hashedByRun C P calls')) := by
  refine ⟨exists_recovers hrun hmem, exists_recovers hrun' hmem',
    fun handed out handed' out' h h' =>
      ⟨h.eq_iff hdec h', fun payload params fs hbuild hroot => ?_⟩⟩
  let B : BuiltSet C P := ⟨payload, params, fs, hbuild⟩
  rcases h.regions_or_collision henc hdec B hroot with hout | hcol
  · rcases h'.regions_or_collision henc hdec B hroot with hout' | hcol
    · exact Or.inl (hout.trans hout'.symm)
    · refine Or.inr (hcol.mono fun m hm => ?_)
      simp only [List.mem_append] at hm ⊢
      exact hm.imp_right Or.inr
  · refine Or.inr (hcol.mono fun m hm => ?_)
    simp only [List.mem_append] at hm ⊢
    exact hm.imp_right Or.inl

/-- The two halves of a small set. -/
theorem reconstructions_agree_iff_small :
    ∃ calls calls' key root handed out handed' out',
      Recovers (referenceCrates sha256) ⟨true⟩ calls key root handed out ∧
      Recovers (referenceCrates sha256) ⟨true⟩ calls' key root handed' out' ∧
      (out = out' ↔ ∃ w ∈ (shardCode 987).words, Agrees w handed ∧ Agrees w handed') := by
  obtain ⟨B, _⟩ := exists_sampleSet 64 0xc0 (by decide)
  have hC : (referenceCrates sha256).AcceptsHonestSignatures :=
    referenceCrates_acceptsHonestSignatures
  have hdec : DecodesMds (referenceCrates sha256) shardCode := referenceCrates_decodesMds
  have hhalf : ∀ half : Fin 2, ∃ a es,
      B.alone.run (halfOf 0 half) = .ok (a, es) ∧ .reconstructed B.key B.set.merkleRoot 1 ∈ es := by
    intro half
    obtain ⟨a, es, hrun⟩ := B.alone.run_ok hC (halfOf 0 half)
    refine ⟨a, es, hrun, ?_⟩
    have hlist : halfOf (0 : Fin 1) half =
        BuiltSet.deliveries ((halfOf (0 : Fin 1) half).map Prod.snd) := by
      rw [BuiltSet.deliveries, halfOf, List.map_map, List.map_map]
      rfl
    have hcard := card_delivered_halfOf (0 : Fin 1) half
    rw [hlist, BuiltSet.delivered_deliveries] at hcard
    rw [hlist, ← B.deliver_eq] at hrun
    obtain ⟨_, hrec⟩ := B.deliver_events hC hdec.reconstructsEqualLengths hrun
    rw [if_pos hcard.ge] at hrec
    exact List.mem_of_mem_filter (hrec ▸ List.mem_singleton.mpr rfl)
  obtain ⟨a, es, hrun, hmem⟩ := hhalf 0
  obtain ⟨a', es', hrun', hmem'⟩ := hhalf 1
  obtain ⟨⟨handed, out, h⟩, ⟨handed', out', h'⟩, hiff⟩ := reconstructions_agree_iff _ _
    referenceCrates_encodesMds hdec _ _ _ _ _ _ _ hrun hrun' _ _ _ _ hmem hmem'
  exact ⟨_, _, _, _, _, _, _, _, h, h', (hiff _ _ _ _ h h').1⟩

/-! ## A tree on no codeword

33 data shreds of slot 0 and set 0, zero but for their indexes and the flags
byte of the last. The flags byte is a column of the code, so any 32 shreds
decide it: the first 32 make it zero everywhere, the last 32 do not. -/

def unevenVariant : ShredVariant := ⟨.data, 6, true, false⟩

def unevenFlags (i : ℕ) : UInt8 := if i = 32 then 1 else 0

def unevenAuth (i : ℕ) : List UInt8 := bareAuth 0x96 (.ofNat i) (unevenFlags i) 997

def unevenAuths : List (List UInt8) := (List.range 33).map unevenAuth

def digest (n : ℕ) : Bytes 20 :=
  ⟨(List.range 20).map fun i => .ofNat (n / 256 ^ (19 - i)), by
    rw [List.length_map, List.length_range]⟩

/-! Truncated digests of the leaves and of the six levels above them. -/

def unevenLevel0 : List (Bytes 20) := List.map digest
  [0x08e9253e71dde77cd5e40298c7ddbb9ec9fbb667, 0x2abe92b94f365ac5d2dad93a4739f9e2c22b3c2a,
   0x527beebc54927873a4ac7137321f399b996f9188, 0x4ec460ae441086e78d2e42f8039f84b2cabf3e37,
   0xb627583ee96a881b91a6a24da606cea8ab3fd9fe, 0xdce4362691d8d36dc94ab228f743a6c14d45be9c,
   0xdcd8f893c759a66c822d415a1b53ed1878ad3e04, 0xc28273eb4e05cf8ab5eccdb4256a1d0abd564489,
   0x175da1f899cd51d30636c28ea56b3d0b833ab186, 0x92e59c71185e80b1b40bf44e2fee46f9dc5c2e2a,
   0xdfab13f85ab31000d14240a4f6a7b6a52a467d9a, 0xb3bdfdbceabd437402953ac4a76cf7f76a985116,
   0xb8552dd8d3d7d393185686620633c9354731e49f, 0x11e47deaf8626975d6c2b6673cda165fcd9bf4e5,
   0xdb52471f7fe74dac30ebba700c932affaf4031b2, 0x37d925c3921ba6f99db07f335f8cd48fb3ed959d,
   0x7d1d6a497a43e06bc6382ff1fe0de7ce19f257ea, 0x601818a4939fcdd3fb43da9b34b72f1374ddd164,
   0x6cbd81e14768c1392c6c69181d1b950f0349058c, 0x2a5d232a91975371f4eb1a885c93d699c7f1ed97,
   0xa4f5826e02ee451f4ac452803e17ba01523dfff4, 0xaf733c3b2979db9b92cf254deeca8355ec54d9f9,
   0xaff65d04ea639220bbb8f576e4532dd663dd2aca, 0xce9550358622bae937d4fe9856623524af1a5a3f,
   0xf35340bba221d0d17554c87e1acda970278baf75, 0x01798a06f15712c12b35665ad2fafb82aa026cbd,
   0x155e7196f9c02181092c96614da0aa8cc527cf43, 0x965f6c65c2b18396fa7e5781e915625a72d45841,
   0x3a329f5086aafeb3d68ec76551a6323c19a5634e, 0x9a636f58f8dc600443027797f3ab2fab3e0b23c1,
   0x1f68be4684690ffefb6331427b01c569d9743300, 0xcdd01535c57e601dd7e60000230fa1057395c8e9,
   0x4fcd6762962df8e06a3d24aa2698be600a7b946e]

def unevenLevel1 : List (Bytes 20) := List.map digest
  [0x118e2df1ac527bd5daaa14ff36540708e419f5fe, 0xd227f0352d290bb66fce15aa73b1447edea3bde9,
   0x108adedc4fb98222d8c7018690450b579a10d792, 0xf57f366c79fae83a5fecaaaa411e12b2d8e541e1,
   0xbead82ec9de503ad57731c07032830714b0b7904, 0x2b2d46703919657a6313f98f494bc5bf2058f99e,
   0xcf795e8ba35ab8b0659c7c26e72d3e013db7def3, 0xef546e3871ad57d461a3849810cf5f9310c2db9a,
   0xb47ba3f33de6bd4594f8b04f170e746939772ed7, 0xd188f5a43a8c1cc17d0df2c2a88a5ad15067c1b0,
   0x998e7db0345509f81ea7451f530de3d781d52bb7, 0xf694a5ede48e16173e3a9edea11581be2d1bab3b,
   0xe800cdc7eaf9d504f32439a291aad042094c9a0c, 0x9e405be8dff829a31a09c5b02b5bb1c21bb2a93b,
   0xacf2fb3704acc97086af63d7e2daf2a65e48cc3a, 0xfa5abe9846e4e0fa7cd989f68fd0654041d12e64,
   0x87613ebec4f18c705a2c9eb376d1e11e2270c997]

def unevenLevel2 : List (Bytes 20) := List.map digest
  [0x67b8b93559622e55115621a7876954bf2774e39c, 0x1bf20846e93dfa022175edb33488122982ad4dbf,
   0x05ed7d803b07404091e0541de7184609ec272bca, 0x6d228279bfac37cbfcab76ddaf0e925cfeb4727a,
   0x765ae81296880280ddf20e86349a9e2fb037ac4c, 0xdc66a58d70fcc4efabc31ea5312ca717f7990dd3,
   0x55c7068692453443cbd12e0925b6d33605c73fec, 0xdbb9de9cd855b5ab2458cb60770f514892d40c7d,
   0x0443b8a82fd7b4edcd52dc5882ef7c3d0e3784d5]

def unevenLevel3 : List (Bytes 20) := List.map digest
  [0x60b9f54bb1b44d99cdcf79c598b339123800e2f5, 0x2a614743ea060556d02701d19ecebd31793e08e4,
   0x343a2213670ceda786eb264f50a83879ea8f36fa, 0xb1e5afb2f928141eabb412a7d8cca4623d9e4a10,
   0xe8e83d4b907b48d4963365eb47a91610f19af172]

def unevenLevel4 : List (Bytes 20) := List.map digest
  [0x82510f189813caa4df2d0ac80223cce175d79494, 0xbad40ca798ee1987b2aa601eb88ed916598b4d24,
   0x60ae9da91054bfda44f7eabf74efea1fa8be7be6]

def unevenLevel5 : List (Bytes 20) := List.map digest
  [0xe2422158bd9e2cd6753ce3a4f95b7b149d57c09f, 0xdba1788b8bad6d7b81bc1395bbd92926619d75ef]

def unevenLevel6 : List (Bytes 20) := List.map digest
  [0x111184390a5ffef538a87e5b178c2c0d21b048fd]

theorem digests_leaves :
    (unevenAuths.map leafMessage).map (fun m => proofEntry (sha256 m)) = unevenLevel0 := by
  decide +kernel

theorem digests_level1 : ((referenceCrates sha256).tree.pairsOf unevenLevel0).map
    (fun m => proofEntry (sha256 m)) = unevenLevel1 := by decide +kernel

theorem digests_level2 : ((referenceCrates sha256).tree.pairsOf unevenLevel1).map
    (fun m => proofEntry (sha256 m)) = unevenLevel2 := by decide +kernel

theorem digests_level3 : ((referenceCrates sha256).tree.pairsOf unevenLevel2).map
    (fun m => proofEntry (sha256 m)) = unevenLevel3 := by decide +kernel

theorem digests_level4 : ((referenceCrates sha256).tree.pairsOf unevenLevel3).map
    (fun m => proofEntry (sha256 m)) = unevenLevel4 := by decide +kernel

theorem digests_level5 : ((referenceCrates sha256).tree.pairsOf unevenLevel4).map
    (fun m => proofEntry (sha256 m)) = unevenLevel5 := by decide +kernel

theorem digests_level6 : ((referenceCrates sha256).tree.pairsOf unevenLevel5).map
    (fun m => proofEntry (sha256 m)) = unevenLevel6 := by decide +kernel

theorem nodup_levels : (unevenLevel0 ++ (unevenLevel1 ++ (unevenLevel2 ++ (unevenLevel3 ++
    (unevenLevel4 ++ (unevenLevel5 ++ unevenLevel6)))))).Nodup := by
  decide +kernel

theorem length_unevenAuths : unevenAuths.length = 33 := by
  rw [unevenAuths, List.length_map, List.length_range]

/-- No two of the strings hashed for the tree collide. -/
theorem uneven_no_collision : ¬ (referenceCrates sha256).tree.Collision
    (unevenAuths.map leafMessage ++
      (referenceCrates sha256).tree.built (leavesOver (referenceCrates sha256) unevenAuths)) := by
  have hleaves : (leavesOver (referenceCrates sha256) unevenAuths).map proofEntry =
      unevenLevel0 := by
    rw [← digests_leaves, leavesOver, List.map_map, List.map_map]
    rfl
  refine TreeHash.not_collision_of_nodup ?_
  rw [TreeHash.built_eq_builtOf (k := 6)
    (by rw [leavesOver, List.length_map, length_unevenAuths]; decide)
    (by rw [leavesOver, List.length_map, length_unevenAuths]; decide), List.map_append]
  change ((unevenAuths.map leafMessage).map (fun m => proofEntry (sha256 m)) ++ _).Nodup
  rw [digests_leaves, hleaves]
  have hlevels := nodup_levels
  rw [← List.append_nil unevenLevel6] at hlevels
  rw [← digests_level6, ← digests_level5, ← digests_level4, ← digests_level3, ← digests_level2,
    ← digests_level1] at hlevels
  exact hlevels

/-! The shreds of the tree, signed. -/

theorem uneven_layout : TreeLayout unevenVariant unevenAuths [] where
  decodes auth h := by
    obtain ⟨i, _, rfl⟩ := List.mem_map.mp h
    change ShredVariant.decode 0x96 = _
    rfl
  auth auth h := by
    obtain ⟨i, _, rfl⟩ := List.mem_map.mp h
    exact length_bareAuth
  fits := by rw [length_unevenAuths]; decide
  deep := by rw [length_unevenAuths]; decide
  rest := rfl

theorem getD_unevenAuths {i : ℕ} (hi : i < 33) : unevenAuths.getD i [] = unevenAuth i := by
  rw [List.getD_eq_getElem _ _ (by rw [length_unevenAuths]; exact hi)]
  simp [unevenAuths]

noncomputable def uneven (i : ℕ) : List UInt8 :=
  shredOver (referenceCrates sha256) (sampleKey sha256) unevenAuths unevenVariant [] i

noncomputable def unevenAdmitted (i : ℕ) : Admitted :=
  admittedAs (referenceCrates sha256) (uneven i) unevenVariant i

noncomputable def unevenCall (i : ℕ) : Call where
  leaders := staticLeader ((referenceCrates sha256).verifyingKey (sampleKey sha256))
  raw := uneven i

theorem verified_uneven {i : ℕ} (hi : i < 33) :
    Verified (referenceCrates sha256) ⟨true⟩ (uneven i)
      ((referenceCrates sha256).verifyingKey (sampleKey sha256)) unevenVariant i := by
  have h33 : i < unevenAuths.length := by rw [length_unevenAuths]; exact hi
  refine (uneven_layout.layout h33).verified referenceCrates_acceptsHonestSignatures
    (sampleKey sha256) rfl ?_ ?_ (by change i < 64; omega)
  · rw [getD_unevenAuths hi, unevenAuth, bareAuth_fecSetIndex]
    exact Nat.zero_le _
  · rw [getD_unevenAuths hi, unevenAuth, bareAuth_fecSetIndex, bareAuth_index,
      UInt8.toNat_ofNat']
    omega

theorem gate_uneven {i : ℕ} (hi : i < 33) :
    gate (referenceCrates sha256) ⟨true⟩ (unevenCall i).leaders (unevenCall i).raw =
      .ok (.ok (unevenAdmitted i)) :=
  Verified.gate_eq (verified_uneven hi) rfl

theorem uneven_root {i : ℕ} (hi : i < 33) : (unevenAdmitted i).root = (unevenAdmitted 0).root := by
  have hroot := fun {i : ℕ} (hi : i < 33) => uneven_layout.rootAt_shredOver
    (C := referenceCrates sha256) (sampleKey sha256) (length_unevenAuths ▸ hi)
  exact Option.some.inj ((hroot hi).symm.trans (hroot (by decide)))

/-- Slot, set and flags of a shred of the tree. -/
theorem uneven_header {i : ℕ} (hi : i < 33) :
    (unevenAdmitted i).key = ⟨0, 0⟩ ∧ (unevenAdmitted i).isLast = false ∧
      (unevenAdmitted i).bytes.getD 21 0 = unevenFlags i := by
  have h33 : i < unevenAuths.length := by rw [length_unevenAuths]; exact hi
  obtain ⟨hslot, hfec, hflags⟩ := (uneven_layout.layout h33).header_signed
    (C := referenceCrates sha256) (i := i) (sampleKey sha256)
  refine ⟨?_, ?_, ?_⟩
  · rw [unevenAdmitted, Admitted.key, admittedAs, verifiedOf_slot, verifiedOf_fecSetIndex, uneven,
      shredOver, hslot, hfec, getD_unevenAuths hi, unevenAuth, bareAuth_slot, bareAuth_fecSetIndex]
    rfl
  · change lastInSlot ((uneven i).getD 85 0) = false
    rw [uneven, shredOver, hflags, getD_unevenAuths hi, unevenAuth, bareAuth_flags, unevenFlags]
    split <;> decide
  · change (cut (uneven i) 64 1051).getD 21 0 = _
    rw [getD_cut _ (by decide), uneven, shredOver, hflags, getD_unevenAuths hi, unevenAuth,
      bareAuth_flags]

/-- What is hashed for a shred of the tree. -/
theorem hashed_uneven {i : ℕ} (hi : i < 33) :
    ∀ m ∈ (unevenCall i).hashed (referenceCrates sha256) ⟨true⟩, m ∈ unevenAuths.map leafMessage ++
      (referenceCrates sha256).tree.built (leavesOver (referenceCrates sha256) unevenAuths) := by
  intro m hm
  have hv := verified_uneven hi
  rw [Call.hashed] at hm
  split at hm
  · split at hm
    · rw [show (unevenCall i).raw = uneven i from rfl, hv.hashedByVerify_eq] at hm
      exact uneven_layout.hashedAt_shredOver _ (length_unevenAuths ▸ hi) m hm
    · cases hm
  · cases hm

/-! Two runs of 32 shreds each, from position `k` on. -/

noncomputable def unevenRun (k : ℕ) : List Call := (List.range 32).map fun j => unevenCall (k + j)

theorem mem_unevenRun {k : ℕ} {c : Call} (hc : c ∈ unevenRun k) :
    ∃ j < 32, c = unevenCall (k + j) := by
  obtain ⟨j, hj, rfl⟩ := List.mem_map.mp hc
  exact ⟨j, List.mem_range.mp hj, rfl⟩

theorem admitted_unevenRun {k : ℕ} (hk : k ≤ 1) :
    admitted (referenceCrates sha256) ⟨true⟩ (unevenRun k) =
      (List.range 32).map fun j => unevenAdmitted (k + j) := by
  rw [admitted, unevenRun, List.filterMap_map, ← List.filterMap_eq_map]
  refine List.filterMap_congr fun j hj => ?_
  have hj := List.mem_range.mp hj
  exact admit_of_gate (gate_uneven (by omega))

noncomputable def unevenRoot : Bytes 32 := (unevenAdmitted 0).root

/-- The positions of a run. -/
def window (k : ℕ) : Finset (Fin 64) := Finset.univ.filter fun i => k ≤ i.1 ∧ i.1 < k + 32

theorem mem_window {k : ℕ} {i : Fin 64} : i ∈ window k ↔ k ≤ i.1 ∧ i.1 < k + 32 := by
  rw [window, Finset.mem_filter, and_iff_right (Finset.mem_univ i)]

theorem card_window {k : ℕ} (hk : k ≤ 1) : (window k).card = 32 := by
  rcases Nat.le_one_iff_eq_zero_or_eq_one.mp hk with rfl | rfl <;> decide

theorem header_of_unevenRun {k : ℕ} (hk : k ≤ 1) :
    ∀ x ∈ admitted (referenceCrates sha256) ⟨true⟩ (unevenRun k),
      x.key = ⟨0, 0⟩ ∧ x.root = unevenRoot ∧ x.isLast = false := by
  intro x hx
  rw [admitted_unevenRun hk] at hx
  obtain ⟨j, hj, rfl⟩ := List.mem_map.mp hx
  have hj := List.mem_range.mp hj
  obtain ⟨hkey, hlast, _⟩ := uneven_header (i := k + j) (by omega)
  exact ⟨hkey, uneven_root (by omega), hlast⟩

theorem unevenRun_ok {k : ℕ} (hk : k ≤ 1) : ∃ a es,
    ingestAll (referenceCrates sha256) ⟨true⟩ .new (unevenRun k) = .ok (a, es) := by
  refine run_of_admits fun c hc => ?_
  obtain ⟨j, hj, rfl⟩ := mem_unevenRun hc
  exact ⟨_, gate_uneven (by omega)⟩

theorem positions_unevenRun {k : ℕ} (hk : k ≤ 1) :
    positions (admitted (referenceCrates sha256) ⟨true⟩ (unevenRun k)) ⟨0, 0⟩ = window k := by
  ext i
  rw [mem_positions, admitted_unevenRun hk, mem_window]
  constructor
  · rintro ⟨x, hx, _, hidx⟩
    obtain ⟨j, hj, rfl⟩ := List.mem_map.mp hx
    have hj := List.mem_range.mp hj
    change k + j = i.1 at hidx
    omega
  · rintro ⟨hlo, hhi⟩
    obtain ⟨hkey, _⟩ := uneven_header (i := k + (i.1 - k)) (by omega)
    exact ⟨_, List.mem_map_of_mem (List.mem_range.mpr (show i.1 - k < 32 by omega)), hkey,
      Nat.add_sub_cancel' hlo⟩

/-- What is handed over comes from the 32 positions of the run, so it is all of them. -/
theorem handed_unevenRun {k : ℕ} (hk : k ≤ 1) {handed out : List (Option (List UInt8))}
    (h : Recovers (referenceCrates sha256) ⟨true⟩ (unevenRun k) ⟨0, 0⟩ unevenRoot handed out) :
    ∀ i ∈ window k, handed[i.1]? = some (some (unevenAdmitted i.1).bytes) := by
  have hh := h.to_handed referenceCrates_decodesMds.reconstructsEqualLengths
  have horigin : ∀ i : Fin 64, ∀ s, handed[i.1]? = some (some s) →
      i ∈ window k ∧ s = (unevenAdmitted i.1).bytes := by
    intro i s hs
    obtain ⟨c, hc, x, hgate, _, _, hidx, rfl⟩ := hh.origin hs
    obtain ⟨j, hj, rfl⟩ := mem_unevenRun hc
    rw [gate_uneven (by omega)] at hgate
    cases hgate
    change k + j = i.1 at hidx
    rw [← hidx]
    exact ⟨mem_window.mpr (by omega), rfl⟩
  have hpresent : presentAt handed = window k := by
    refine Finset.eq_of_subset_of_card_le (fun i hi => ?_) ?_
    · obtain ⟨s, hs⟩ := mem_presentAt.mp hi
      exact (horigin i s hs).1
    · rw [card_window hk, card_presentAt hh.recoverable.length, hh.exact]
  intro i hi
  obtain ⟨s, hs⟩ := mem_presentAt.mp (hpresent.symm ▸ hi)
  rw [hs, (horigin i s hs).2]

/-- Each run reports the set reconstructed, from the shreds it delivers. -/
theorem uneven_recovers {k : ℕ} (hk : k ≤ 1) : ∃ a es das handed out,
    ingestAll (referenceCrates sha256) ⟨true⟩ .new (unevenRun k) = .ok (a, es) ∧
      .reconstructed ⟨0, 0⟩ unevenRoot das ∈ es ∧ es.filter FecEvent.isSlotFinalized = [] ∧
      Recovers (referenceCrates sha256) ⟨true⟩ (unevenRun k) ⟨0, 0⟩ unevenRoot handed out := by
  have hrs : (referenceCrates sha256).ReconstructsEqualLengths :=
    referenceCrates_decodesMds.reconstructsEqualLengths
  have hall := header_of_unevenRun hk
  have hone : ∀ x ∈ admitted (referenceCrates sha256) ⟨true⟩ (unevenRun k), x.key = ⟨0, 0⟩ →
      x.root = unevenRoot := fun x hx _ => (hall x hx).2.1
  obtain ⟨a, es, hrun⟩ := unevenRun_ok hk
  obtain ⟨hwf, ht⟩ := run_tracks hrun
  have hrec := (ht.reconstructed_iff hwf (fun _ => length_of_mem_admitted) hrs hone).mpr
    (by rw [positions_unevenRun hk, card_window hk])
  have hroot : (a.stateOf ⟨0, 0⟩).merkleRoot = some unevenRoot := by
    rw [ht.root]
    refine firstRoot_of_one hone ⟨unevenAdmitted (k + 0), ?_, (uneven_header (by omega)).1⟩
    rw [admitted_unevenRun hk]
    exact List.mem_map_of_mem (List.mem_range.mpr (by decide))
  obtain ⟨das, hmem⟩ := (run_reconstructed hrun).mpr ⟨hrec, hroot⟩
  obtain ⟨handed, out, h⟩ := exists_recovers hrun hmem
  exact ⟨a, es, das, handed, out, hrun, hmem, run_unmarked hrun fun x hx => (hall x hx).2.2, h⟩

/-- Different shards are recovered: one codeword would have flags byte 0 at 32
positions and 1 at another. -/
theorem uneven_differ {handed out handed' out' : List (Option (List UInt8))}
    (h : Recovers (referenceCrates sha256) ⟨true⟩ (unevenRun 0) ⟨0, 0⟩ unevenRoot handed out)
    (h' : Recovers (referenceCrates sha256) ⟨true⟩ (unevenRun 1) ⟨0, 0⟩ unevenRoot handed' out') :
    out ≠ out' := by
  intro heq
  have hdec : DecodesMds (referenceCrates sha256) shardCode := referenceCrates_decodesMds
  obtain ⟨w, hw, hag, hag'⟩ := (h.eq_iff hdec h').mp heq
  have hzero : ∀ i ∈ window 0, (w i).1.getD 21 0 = 0 := by
    intro i hi
    have hlt := mem_window.mp hi
    rw [← hag i _ (handed_unevenRun (Nat.zero_le 1) h i hi), (uneven_header (by omega)).2.2,
      unevenFlags, if_neg (by omega)]
  have hone : (w ⟨32, by decide⟩).1.getD 21 0 = 1 := by
    rw [← hag' ⟨32, by decide⟩ _ (handed_unevenRun le_rfl h' _ (mem_window.mpr (by decide))),
      (uneven_header (by decide)).2.2, unevenFlags, if_pos rfl]
  have hall := column_zero hw (j := 21) (by decide) (card_window (Nat.zero_le 1)).ge hzero
    ⟨32, by decide⟩
  rw [hone] at hall
  exact absurd hall (by decide)

theorem hashed_unevenRun {k : ℕ} (hk : k ≤ 1) :
    ∀ m ∈ hashedByRun (referenceCrates sha256) ⟨true⟩ (unevenRun k),
      m ∈ unevenAuths.map leafMessage ++
        (referenceCrates sha256).tree.built (leavesOver (referenceCrates sha256) unevenAuths) := by
  intro m hm
  obtain ⟨c, hc, hm⟩ := List.mem_flatMap.mp hm
  obtain ⟨j, hj, rfl⟩ := mem_unevenRun hc
  exact hashed_uneven (by omega) m hm

/-- Two runs report one root for one set and have recovered different shards;
no slot is final, and no two strings hashed in them collide. -/
theorem reconstructions_disagree : ∃ (leaderPubkey : Bytes 32) (calls calls' : List Call)
    (a a' : FecAssembler) (es es' : List FecEvent) (key : FecKey) (root : Bytes 32) (das das' : ℚ)
    (handed out handed' out' : List (Option (List UInt8))),
    (∀ c ∈ calls ++ calls', c.leaders = staticLeader leaderPubkey) ∧
    ingestAll (referenceCrates sha256) ⟨true⟩ .new calls = .ok (a, es) ∧
    ingestAll (referenceCrates sha256) ⟨true⟩ .new calls' = .ok (a', es') ∧
    .reconstructed key root das ∈ es ∧ .reconstructed key root das' ∈ es' ∧
    Recovers (referenceCrates sha256) ⟨true⟩ calls key root handed out ∧
    Recovers (referenceCrates sha256) ⟨true⟩ calls' key root handed' out' ∧ out ≠ out' ∧
    (es ++ es').filter FecEvent.isSlotFinalized = [] ∧
    ¬ (referenceCrates sha256).tree.Collision
      (hashedByRun (referenceCrates sha256) ⟨true⟩ calls ++
        hashedByRun (referenceCrates sha256) ⟨true⟩ calls') := by
  obtain ⟨a, es, das, handed, out, hrun, hmem, hfin, h⟩ := uneven_recovers (Nat.zero_le 1)
  obtain ⟨a', es', das', handed', out', hrun', hmem', hfin', h'⟩ := uneven_recovers le_rfl
  have hne := uneven_differ h h'
  refine ⟨(referenceCrates sha256).verifyingKey (sampleKey sha256), _, _, a, a', es, es', _, _, das,
    das', handed, out, handed', out', ?_, hrun, hrun', hmem, hmem', h, h', hne, ?_, ?_⟩
  · intro c hc
    rw [List.mem_append] at hc
    rcases hc with hc | hc
    · obtain ⟨j, _, rfl⟩ := mem_unevenRun hc
      rfl
    · obtain ⟨j, _, rfl⟩ := mem_unevenRun hc
      rfl
  · rw [List.filter_append, hfin, hfin']
    rfl
  · refine fun hcol => uneven_no_collision (hcol.mono fun m hm => ?_)
    rcases List.mem_append.mp hm with hm | hm
    · exact hashed_unevenRun (Nat.zero_le 1) m hm
    · exact hashed_unevenRun le_rfl m hm

end Lattica.Listener
