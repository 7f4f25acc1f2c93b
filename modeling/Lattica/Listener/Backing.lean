import Lattica.Foundation.Sampling
import Lattica.Listener.Readiness

/-!
# What reports are backed by

A set is reported reconstructed only where shreds of it were accepted under the
reported root at 32 different positions, and a slot final only where this holds
of every set it lists; both with confidence 1. Where all shreds of a set have
one root, backing is enough as well.
-/

namespace Lattica.Listener

open Foundation Shred Reedsol

variable {C : Crates} {P : Profile} {a a' : FecAssembler} {x : Admitted} {st : FecState}
  {ss : SlotState} {es : List FecEvent} {calls calls' : List Call} {key : FecKey}
  {root : Bytes 32}

/-! ## Backing -/

/-- A shred of the set, under `root` and at position `i`, is accepted by one of the calls. -/
def AcceptedAt (C : Crates) (P : Profile) (calls : List Call) (key : FecKey) (root : Bytes 32)
    (i : ℕ) : Prop :=
  ∃ c ∈ calls, ∃ w, c.Accepts C P w ∧ key = ⟨w.slot, w.fecSetIndex⟩ ∧ w.merkleRoot = root ∧
    w.erasureShardIndex = i

/-- Shreds of the set are accepted under `root` at 32 positions or more. -/
def Backed (C : Crates) (P : Profile) (calls : List Call) (key : FecKey) (root : Bytes 32) :
    Prop :=
  ∃ s : Finset (Fin 64), 32 ≤ s.card ∧ ∀ i ∈ s, AcceptedAt C P calls key root i.1

theorem acceptedAt_of_admitted (h : x ∈ admitted C P calls) :
    AcceptedAt C P calls x.key x.root x.idx := by
  obtain ⟨c, hc, hgate⟩ := mem_admitted h
  exact ⟨c, hc, x.shred, accepts_of_gate hgate, rfl, rfl, rfl⟩

theorem AcceptedAt.admitted {i : ℕ} (h : AcceptedAt C P calls key root i) :
    ∃ x ∈ Listener.admitted C P calls, x.key = key ∧ x.root = root ∧ x.idx = i := by
  obtain ⟨c, hc, w, hw, rfl, rfl, rfl⟩ := h
  obtain ⟨x, hgate, rfl⟩ := gate_of_accepts hw
  exact ⟨x, List.mem_filterMap.mpr ⟨c, hc, admit_of_gate hgate⟩, rfl, rfl, rfl⟩

theorem Backed.mono (h : Backed C P calls key root) (hsub : ∀ c ∈ calls, c ∈ calls') :
    Backed C P calls' key root := by
  obtain ⟨s, hcard, hall⟩ := h
  refine ⟨s, hcard, ?_⟩
  intro i hi
  obtain ⟨c, hc, hrest⟩ := hall i hi
  exact ⟨c, hsub c hc, hrest⟩

/-- A reconstructed set holds shards of 32 positions, all under its root. -/
theorem backed_of_reconstructed (h : ingestAll C P .new calls = .ok (a, es))
    (hrec : (a.stateOf key).reconstructed = true)
    (hroot : (a.stateOf key).merkleRoot = some root) : Backed C P calls key root := by
  obtain ⟨hwf, ht⟩ := run_tracks h
  refine ⟨presentAt (a.stateOf key).shards, ?_, ?_⟩
  · rw [← hwf.distinct_eq_card]
    exact (ht.enough hrec).1
  · intro i hi
    obtain ⟨s, hs⟩ := mem_presentAt.mp hi
    obtain ⟨y, hy, rfl, hidx, _, hfirst⟩ := ht.origin hs
    rw [← ht.root, hroot] at hfirst
    rw [← hidx, Option.some.inj hfirst]
    exact acceptedAt_of_admitted hy

/-- Where all shreds of a set have one root, backing is what reconstruction takes. -/
theorem reconstructed_iff_backed (hrs : C.ReconstructsEqualLengths)
    (h : ingestAll C P .new calls = .ok (a, es))
    (hone : ∀ root' i, AcceptedAt C P calls key root' i → root' = root) :
    (∃ das, .reconstructed key root das ∈ es) ↔ Backed C P calls key root := by
  obtain ⟨hwf, ht⟩ := run_tracks h
  have hroots : ∀ x ∈ admitted C P calls, x.key = key → x.root = root := by
    rintro x hx rfl
    exact hone _ _ (acceptedAt_of_admitted hx)
  rw [run_reconstructed h]
  constructor
  · rintro ⟨hrec, hroot⟩
    exact backed_of_reconstructed h hrec hroot
  · rintro ⟨s, hcard, hall⟩
    have hpositions : s ⊆ positions (admitted C P calls) key := by
      intro i hi
      obtain ⟨x, hx, hkey, _, hidx⟩ := (hall i hi).admitted
      exact mem_positions.mpr ⟨x, hx, hkey, hidx⟩
    have hrec := (ht.reconstructed_iff hwf (fun _ => length_of_mem_admitted) hrs hroots).mpr
      (hcard.trans (Finset.card_le_card hpositions))
    refine ⟨hrec, ?_⟩
    obtain ⟨i, hi⟩ := Finset.card_pos.mp (Nat.lt_of_lt_of_le (by decide) hcard)
    obtain ⟨x, hx, hkey, _, _⟩ := (hall i hi).admitted
    rw [ht.root]
    exact firstRoot_of_one hroots ⟨x, hx, hkey⟩

/-! ## Confidence -/

section Confidence

open Binary64

/-- The probability to draw `n` of 31 shreds out of 64. -/
def lucky (n : ℕ) : ℚ := ((31 : ℕ).choose n : ℚ) / (64 : ℕ).choose n

variable {n : ℕ}

theorem lucky_nonneg (n : ℕ) : 0 ≤ lucky n := div_nonneg (Nat.cast_nonneg _) (Nat.cast_nonneg _)

theorem lucky_le_one (n : ℕ) : lucky n ≤ 1 := by
  apply div_le_one_of_le₀ _ (Nat.cast_nonneg _)
  exact_mod_cast Nat.choose_le_choose n (by decide : 31 ≤ 64)

theorem lucky_of_descFactorial {c : ℕ} (hn : n ≤ 64)
    (h : (64 : ℕ).descFactorial n ≤ c * (31 : ℕ).descFactorial n) : 1 ≤ c * lucky n := by
  have hpos : (0 : ℚ) < (64 : ℕ).choose n := by exact_mod_cast Nat.choose_pos hn
  rw [Nat.descFactorial_eq_factorial_mul_choose, Nat.descFactorial_eq_factorial_mul_choose,
    Nat.mul_left_comm] at h
  have hchoose := Nat.le_of_mul_le_mul_left h (Nat.factorial_pos n)
  rw [lucky, mul_div_assoc', le_div_iff₀ hpos, one_mul]
  exact_mod_cast hchoose

theorem lucky_le_of_descFactorial {c : ℕ} (hn : n ≤ 64)
    (h : c * (31 : ℕ).descFactorial n ≤ (64 : ℕ).descFactorial n) : c * lucky n ≤ 1 := by
  have hpos : (0 : ℚ) < (64 : ℕ).choose n := by exact_mod_cast Nat.choose_pos hn
  rw [Nat.descFactorial_eq_factorial_mul_choose, Nat.descFactorial_eq_factorial_mul_choose,
    Nat.mul_left_comm] at h
  have hchoose := Nat.le_of_mul_le_mul_left h (Nat.factorial_pos n)
  rw [lucky, mul_div_assoc', div_le_one hpos]
  exact_mod_cast hchoose

theorem dasRatio_succ (hn : n ≤ 31) :
    dasRatio (n + 1) = Binary64.round (dasRatio n * Binary64.round ((31 - n) / (64 - n))) := by
  have h31 : Binary64.round (31 - n : ℚ) = 31 - n := by
    have h := round_natCast (n := 31 - n) (by omega)
    rwa [Nat.cast_sub hn, Nat.cast_ofNat] at h
  have h64 : Binary64.round (64 - n : ℚ) = 64 - n := by
    have h := round_natCast (n := 64 - n) (by omega)
    rwa [Nat.cast_sub (by omega), Nat.cast_ofNat] at h
  unfold dasRatio
  rw [List.range_succ, List.foldl_append]
  show Binary64.round (_ * Binary64.round (Binary64.round (31 - n) / Binary64.round (64 - n))) = _
  rw [h31, h64]

/-- Every turn of the loop rounds a quotient and a product. -/
theorem dasRatio_bounds (hn : n ≤ 31) : lucky n * (1 - unit) ^ (2 * n) ≤ dasRatio n ∧
    dasRatio n ≤ lucky n * (1 + unit) ^ (2 * n) := by
  have hsmall : (0 : ℚ) ≤ 1 - unit := by norm_num [unit]
  have hlarge : (0 : ℚ) ≤ 1 + unit := by norm_num [unit]
  induction n with
  | zero => simp [dasRatio, lucky]
  | succ n ih =>
      have hle : n ≤ 31 := Nat.le_of_succ_le hn
      obtain ⟨hlow, hhigh⟩ := ih hle
      have hq : (0 : ℚ) ≤ (31 - n) / (64 - n) := by
        have hcast : (n : ℚ) ≤ 31 := by exact_mod_cast hle
        exact div_nonneg (by linarith) (by linarith)
      have hr : 0 ≤ dasRatio n :=
        (mul_nonneg (lucky_nonneg n) (pow_nonneg hsmall _)).trans hlow
      obtain ⟨hqlow, hqhigh⟩ := round_bounds hq
      obtain ⟨hplow, hphigh⟩ := round_bounds (mul_nonneg hr (round_nonneg hq))
      have hsucc : lucky (n + 1) = lucky n * ((31 - n) / (64 - n)) :=
        Sampling.choose_div_choose_succ (m := 31) (N := 64) (by omega)
      rw [dasRatio_succ hle, hsucc]
      constructor
      · calc lucky n * ((31 - n) / (64 - n)) * (1 - unit) ^ (2 * (n + 1))
            = lucky n * (1 - unit) ^ (2 * n) * ((31 - n) / (64 - n) * (1 - unit)) *
                (1 - unit) := by ring
          _ ≤ dasRatio n * Binary64.round ((31 - n) / (64 - n)) * (1 - unit) := by
              apply mul_le_mul_of_nonneg_right _ hsmall
              exact mul_le_mul hlow hqlow (mul_nonneg hq hsmall) hr
          _ ≤ _ := hplow
      · calc Binary64.round (dasRatio n * Binary64.round ((31 - n) / (64 - n)))
            ≤ dasRatio n * Binary64.round ((31 - n) / (64 - n)) * (1 + unit) := hphigh
          _ ≤ lucky n * (1 + unit) ^ (2 * n) * ((31 - n) / (64 - n) * (1 + unit)) *
                (1 + unit) := by
              apply mul_le_mul_of_nonneg_right _ hlarge
              exact mul_le_mul hhigh hqhigh (round_nonneg hq) (hr.trans hhigh)
          _ = lucky n * ((31 - n) / (64 - n)) * (1 + unit) ^ (2 * (n + 1)) := by ring

/-- All roundings of the loop together. -/
theorem dasRatio_near (hn : n ≤ 31) : lucky n * (1 - 1 / 2 ^ 47) ≤ dasRatio n ∧
    dasRatio n ≤ lucky n * (1 + 1 / 2 ^ 47) := by
  obtain ⟨hlow, hhigh⟩ := dasRatio_bounds hn
  constructor
  · apply (mul_le_mul_of_nonneg_left _ (lucky_nonneg n)).trans hlow
    calc (1 : ℚ) - 1 / 2 ^ 47 ≤ (1 - unit) ^ 62 := by norm_num [unit]
      _ ≤ (1 - unit) ^ (2 * n) :=
          pow_le_pow_of_le_one (by norm_num [unit]) (by norm_num [unit]) (by omega)
  · apply hhigh.trans (mul_le_mul_of_nonneg_left _ (lucky_nonneg n))
    calc (1 + unit) ^ (2 * n) ≤ (1 + unit) ^ 62 :=
          pow_le_pow_right₀ (by norm_num [unit]) (by omega)
      _ ≤ 1 + 1 / 2 ^ 47 := by norm_num [unit]

/-- The confidence computed is the exact one, up to rounding. -/
theorem dasConfidence_near (n : ℕ) : |dasConfidence n - (1 - lucky n)| ≤ 1 / 2 ^ 46 := by
  unfold dasConfidence
  split
  · next hle =>
      have hzero : lucky n = 0 := by
        rw [lucky, Nat.choose_eq_zero_of_lt (show 31 < n from hle), Nat.cast_zero, zero_div]
      rw [hzero]
      norm_num
  · next hlt =>
      have hn : n ≤ 31 := Nat.le_of_lt_succ (not_le.mp hlt)
      obtain ⟨hlow, hhigh⟩ := dasRatio_near hn
      have hnonneg := lucky_nonneg n
      have hone := lucky_le_one n
      have hround := abs_round_sub_le (1 - dasRatio n)
      have habs : |1 - dasRatio n| ≤ 2 := by
        rw [abs_le]
        constructor
        · linarith
        · linarith
      have hunit : unit * |1 - dasRatio n| ≤ unit * 2 :=
        mul_le_mul_of_nonneg_left habs (by norm_num [unit])
      have hsmall : unit * 2 = 1 / 2 ^ 52 := by norm_num [unit]
      rw [hsmall] at hunit
      obtain ⟨hleft, hright⟩ := abs_le.mp (hround.trans hunit)
      rw [abs_le]
      constructor
      · linarith
      · linarith

theorem dasConfidence_eq_one_iff (n : ℕ) : dasConfidence n = 1 ↔ 30 ≤ n := by
  rcases Nat.lt_or_ge n 32 with hlt | hge
  · have hn : n ≤ 31 := Nat.le_of_lt_succ hlt
    obtain ⟨hlow, hhigh⟩ := dasRatio_near hn
    rw [dasConfidence, if_neg (not_le.mpr hlt)]
    constructor
    · intro hone
      by_contra hnot
      have htable : ∀ n < 30, (64 : ℕ).descFactorial n ≤ 2 ^ 52 * (31 : ℕ).descFactorial n := by
        decide
      have hlucky := lucky_of_descFactorial (by omega) (htable n (not_le.mp hnot))
      push_cast at hlucky
      -- what is left of 1 is more than a rounding
      have hle := (abs_le.mp (abs_round_sub_le (1 - dasRatio n))).2
      have habs : |1 - dasRatio n| < 1 := by
        rw [abs_lt]
        constructor
        · linarith [lucky_le_one n]
        · linarith
      have hunit : unit * |1 - dasRatio n| < unit :=
        mul_lt_of_lt_one_right (by norm_num [unit]) habs
      rw [hone] at hle
      have hsmall : unit = 1 / 2 ^ 53 := rfl
      rw [hsmall] at hle hunit
      linarith
    · intro hge
      have htable : ∀ n < 32, 30 ≤ n →
          2 ^ 55 * (31 : ℕ).descFactorial n ≤ (64 : ℕ).descFactorial n := by decide
      have hlucky := lucky_le_of_descFactorial (by omega) (htable n hlt hge)
      push_cast at hlucky
      apply round_eq_one
      · have hsmall : unit = 1 / 2 ^ 53 := rfl
        rw [hsmall]
        linarith
      · linarith [lucky_nonneg n]
  · rw [dasConfidence_threshold hge]
    exact ⟨fun _ => (by decide : 30 ≤ 32).trans hge, fun _ => rfl⟩

/-- **What the confidence is.** Where no more than 31 of the 64 shreds of a set are
to be had, a listener that asks for `n` of them at random misses one with at least
the probability `das_confidence` gives, up to what the `f64` operations round, and
with just that where 31 are to be had. Rounding makes it certain from 30 on. -/
theorem das_confidence_detects (available : Finset (Fin 64)) (hfew : available.card ≤ 31) (n : ℕ)
    (hn : n ≤ 64) :
    dasConfidence n ≤ Sampling.detection available n + 1 / 2 ^ 46 ∧
      (available.card = 31 →
        |dasConfidence n - Sampling.detection available n| ≤ 1 / 2 ^ 46) ∧
      (dasConfidence n = 1 ↔ 30 ≤ n) := by
  have hmost : ∀ most : Finset (Fin 64), most.card = 31 →
      Sampling.detection most n = 1 - lucky n := by
    intro most hmost
    rw [Sampling.detection_eq most (by rw [Fintype.card_fin]; exact hn), hmost, Fintype.card_fin,
      lucky]
  obtain ⟨most, hsub, hcard⟩ := Finset.exists_superset_card_eq hfew
    (by rw [Fintype.card_fin]; decide)
  have hnear := dasConfidence_near n
  refine ⟨?_, ?_, dasConfidence_eq_one_iff n⟩
  · have hanti : Sampling.detection most n ≤ Sampling.detection available n :=
      Sampling.detection_anti (by rw [Fintype.card_fin]; exact hn) (Finset.card_le_card hsub)
    rw [hmost most hcard] at hanti
    linarith [(abs_le.mp hnear).2]
  · intro havailable
    rw [hmost available havailable]
    exact hnear

theorem das_confidence_detects_five : |dasConfidence 5 -
    Sampling.detection ((Finset.univ : Finset (Fin 64)).filter fun i => i.1 < 31) 5| ≤
      1 / 2 ^ 46 := by
  have hcard : ((Finset.univ : Finset (Fin 64)).filter fun i => i.1 < 31).card = 31 := by decide
  exact (das_confidence_detects _ hcard.le 5 (by decide)).2.1 hcard

end Confidence

/-- A reconstructed set was reconstructed with certainty. -/
def Certain (a : FecAssembler) : Prop :=
  ∀ key, (a.stateOf key).reconstructed = true → (a.stateOf key).dasConfidenceAtReconstruct = 1

theorem Exit.certain (hcert : Certain a) (hexit : Exit C a x st ss es) :
    st.reconstructed = true → st.dasConfidenceAtReconstruct = 1 := by
  intro hrec
  cases hexit with
  | settled _ _ => exact hcert x.key hrec
  | diverges _ _ _ => exact hcert x.key hrec
  | outOfRange _ _ => exact hcert x.key hrec
  | duplicate _ _ => exact hcert x.key hrec
  | accepted _ _ _ => exact hcert x.key hrec
  | failed _ _ _ _ => exact hcert x.key hrec
  | recovered _ _ _ _ _ => rfl

theorem Certain.put (hcert : Certain a)
    (hst : st.reconstructed = true → st.dasConfidenceAtReconstruct = 1) :
    Certain (a.put key st ss) := by
  intro key' hrec
  by_cases heq : key' = key
  · subst heq
    rw [FecAssembler.stateOf_put_self] at hrec ⊢
    exact hst hrec
  · rw [FecAssembler.stateOf_put_ne a heq] at hrec ⊢
    exact hcert key' hrec

theorem run_certain (h : ingestAll C P .new calls = .ok (a, es)) : Certain a := by
  refine (run_induction (Q := fun _ a => Certain a) ?_ ?_ h).2
  · intro key hrec
    cases hrec
  · intro H a x st ss es _ hcert hexit
    exact hcert.put (hexit.certain hcert)

/-- One certain set makes the slot certain. -/
theorem finalConfidence {is : List UInt32} {slot : UInt64} {i : UInt32} (hi : i ∈ is)
    (hdas : (a.stateOf ⟨slot, i⟩).dasConfidenceAtReconstruct = 1) :
    1 - (is.map fun i => 1 - (a.stateOf ⟨slot, i⟩).dasConfidenceAtReconstruct).prod = 1 := by
  have hzero : (is.map fun i => 1 - (a.stateOf ⟨slot, i⟩).dasConfidenceAtReconstruct).prod = 0 := by
    apply List.prod_eq_zero
    rw [List.mem_map]
    exact ⟨i, hi, by rw [hdas, sub_self]⟩
  rw [hzero, sub_zero]

/-! ## What the events of a run are backed by -/

/-- What a report is backed by: certainty, and 32 positions of every set it names. -/
def FecEvent.Substantiated (C : Crates) (P : Profile) (calls : List Call) : FecEvent → Prop
  | .reconstructed key root das => das = 1 ∧ Backed C P calls key root
  | .slotFinalized slot roots _ _ conf => conf = 1 ∧ ∃ is : List UInt32, is ≠ [] ∧
      is.Pairwise (· < ·) ∧
      List.Forall₂ (fun i root => Backed C P calls ⟨slot, i⟩ root) is roots
  | _ => True

theorem FecEvent.Substantiated.mono {e : FecEvent} (h : e.Substantiated C P calls)
    (hsub : ∀ c ∈ calls, c ∈ calls') : e.Substantiated C P calls' := by
  cases e with
  | reconstructed key root das => exact ⟨h.1, h.2.mono hsub⟩
  | slotFinalized slot roots slotRoot n conf =>
      obtain ⟨hconf, is, hne, hsorted, hall⟩ := h
      exact ⟨hconf, is, hne, hsorted, hall.imp fun _ _ hb => hb.mono hsub⟩
  | started key root => trivial
  | shredAccepted key n i => trivial
  | rejected reason => trivial

/-- The events of an exit are backed once its call is counted in. -/
theorem Exit.substantiated {pre : List Call} {c : Call} {es₁ : List FecEvent}
    (hpre : ingestAll C P .new pre = .ok (a, es₁))
    (hc : ingest C P c.leaders a c.raw = .ok (a.put x.key st ss, es))
    (hexit : Exit C a x st ss es) : ∀ e ∈ es, e.Substantiated C P (pre ++ [c]) := by
  have hrun := ingestAll_snoc_eq_ok.mpr ⟨a, es₁, es, hpre, hc, rfl⟩
  have hwf := run_wellFormed hrun
  intro e he
  cases e with
  | started key root => trivial
  | shredAccepted key n i => trivial
  | rejected reason => trivial
  | reconstructed key root das =>
      have hin := List.mem_filter.mpr ⟨he, (rfl : FecEvent.isReconstructed _ = true)⟩
      obtain ⟨hkey, _, _, hrec, hroot, _⟩ := hexit.reports_reconstructed he
      rw [hexit.filter_reconstructed] at hin
      split at hin
      · have hone := List.mem_singleton.mp hin
        refine ⟨(FecEvent.reconstructed.inj hone).2.2, ?_⟩
        apply backed_of_reconstructed hrun
        · rw [hkey, FecAssembler.stateOf_put_self]
          exact hrec
        · rw [hkey, FecAssembler.stateOf_put_self]
          exact hroot
      · cases hin
  | slotFinalized slot roots slotRoot n conf =>
      have hin := List.mem_filter.mpr ⟨he, (rfl : FecEvent.isSlotFinalized _ = true)⟩
      obtain ⟨rfl, rfl, _, l, hl, hlast, hall⟩ := hexit.reports he
      have hslot : (a.put x.key st ss).slotOf x.key.slot = ss := FecAssembler.slotOf_put_self a
      have hrec : ∀ i ∈ listed ss,
          ((a.put x.key st ss).stateOf ⟨x.key.slot, i⟩).reconstructed = true := by
        intro i hi
        have hdone := (hall i hi).2
        rw [← hslot, hwf.mem_reconstructed] at hdone
        exact hdone
      have hconf : conf = 1 := by
        rcases hexit.filter_slotFinalized with ⟨_, hnone⟩ | ⟨_, _, _, hone⟩
        · rw [hnone] at hin
          cases hin
        · rw [hone, List.mem_singleton, finalEvent, FecEvent.slotFinalized.injEq] at hin
          rw [hin.2.2.2.2]
          exact finalConfidence hlast (run_certain hrun _ (hrec l hlast))
      refine ⟨hconf, listed ss, List.ne_nil_of_mem hlast, pairwise_listed ss, ?_⟩
      rw [listedRoots, List.forall₂_map_right_iff, List.forall₂_same]
      intro i hi
      obtain ⟨r, hr⟩ := hwf.root (stateOf_eq_of_reconstructed (hrec i hi))
      rw [rootOf, hr, Option.getD_some]
      exact backed_of_reconstructed hrun (hrec i hi) hr

/-- **Every report of a run is backed by its calls.** -/
theorem run_substantiated (h : ingestAll C P .new calls = .ok (a, es)) :
    ∀ e ∈ es, e.Substantiated C P calls := by
  intro e he
  obtain ⟨pre, c, post, a₁, es₁, a₂, es₂, rfl, hpre, hc, he⟩ := mem_events h he
  have hsub : ∀ d ∈ pre ++ [c], d ∈ pre ++ c :: post := by
    intro d hd
    rw [List.append_cons]
    exact List.mem_append_left post hd
  rcases ingest_cases (run_wellFormed hpre) hc with ⟨_, _, _, rfl⟩ | ⟨x, st, ss, _, rfl, hexit⟩
  · rw [List.mem_singleton] at he
    subst he
    trivial
  · exact (hexit.substantiated hpre hc e he).mono hsub

/-! ## At most once -/

/-- Whether the event reports this slot final. -/
def FecEvent.finalizes (slot : UInt64) : FecEvent → Bool
  | .slotFinalized slot' .. => slot' = slot
  | _ => false

theorem filter_finalizes (slot : UInt64) (es : List FecEvent) :
    es.filter (FecEvent.finalizes slot) =
      (es.filter FecEvent.isSlotFinalized).filter (FecEvent.finalizes slot) := by
  rw [List.filter_filter]
  apply List.filter_congr
  intro e _
  cases e with
  | slotFinalized slot' roots slotRoot n conf => simp [FecEvent.finalizes, FecEvent.isSlotFinalized]
  | started key root => rfl
  | shredAccepted key n i => rfl
  | reconstructed key root das => rfl
  | rejected reason => rfl

/-- A slot is reported final once, by the time it is. -/
theorem run_finalized_once (h : ingestAll C P .new calls = .ok (a, es)) (slot : UInt64) :
    (es.filter (FecEvent.finalizes slot)).length =
      if (a.slotOf slot).finalized = true then 1 else 0 := by
  refine (run_events (Q := fun _ a es => ∀ slot, (es.filter (FecEvent.finalizes slot)).length =
    if (a.slotOf slot).finalized = true then 1 else 0) ?_ ?_ ?_ h).2 slot
  · intro slot
    rfl
  · intro H a es reason hq slot
    rw [List.filter_append, List.length_append, hq]
    rfl
  · intro H a es x st ss es' _ hq hexit slot
    rw [List.filter_append, List.length_append, hq, filter_finalizes slot es']
    by_cases hslot : slot = x.key.slot
    · subst hslot
      rw [FecAssembler.slotOf_put_self]
      rcases hexit.filter_slotFinalized with ⟨hsame, hnone⟩ | ⟨hbefore, hafter, _, hone⟩
      · rw [hnone, hsame]
        rfl
      · rw [hone, hbefore, hafter]
        simp [finalEvent, FecEvent.finalizes]
    · rw [FecAssembler.slotOf_put_ne a hslot]
      rcases hexit.filter_slotFinalized with ⟨_, hnone⟩ | ⟨_, _, _, hone⟩
      · rw [hnone]
        rfl
      · rw [hone]
        simp [finalEvent, FecEvent.finalizes, Ne.symm hslot]

end Lattica.Listener
