import Lattica.Listener.Steps

/-!
# Runs

A run is a sequence of calls on a fresh assembler. `ingest_cases` reads one
returned call as a rejection at the gate or an exit; `run_induction` carries a
property of the admitted history and the assembler through every run.
-/

namespace Lattica.Listener

open Foundation Shred Reedsol

variable {C : Crates} {P : Profile} {a a' : FecAssembler} {raw : List UInt8} {leaders : Leaders}
  {es : List FecEvent}

/-- What a returned call did. -/
theorem ingest_cases (h : WellFormed a) (hi : ingest C P leaders a raw = .ok (a', es)) :
    (∃ reason, gate C P leaders raw = .ok (.error reason) ∧ a' = a ∧ es = [.rejected reason]) ∨
      ∃ x st ss, gate C P leaders raw = .ok (.ok x) ∧ a' = a.put x.key st ss ∧
        Exit C a x st ss es := by
  rw [ingest_eq_gate] at hi
  obtain ⟨r, hgate, hi⟩ := Exec.bind_eq_ok.mp hi
  cases r with
  | error reason =>
      cases hi
      exact Or.inl ⟨reason, hgate, rfl, rfl⟩
  | ok x =>
      obtain ⟨st, ss, es', heq, hexit⟩ := ingestAdmitted_exit (C := C) (P := P) h x
      simp only [heq] at hi
      cases hi
      exact Or.inr ⟨x, st, ss, hgate, rfl, hexit⟩

theorem ingest_wellFormed (h : WellFormed a) (hi : ingest C P leaders a raw = .ok (a', es)) :
    WellFormed a' := by
  rcases ingest_cases h hi with ⟨_, _, rfl, _⟩ | ⟨x, st, ss, _, rfl, hexit⟩
  · exact h
  · exact hexit.wellFormed h

/-- An admitted shred is never the cause of a panic. -/
theorem ingest_admitted (h : WellFormed a) {x : Admitted}
    (hgate : gate C P leaders raw = .ok (.ok x)) :
    ∃ st ss es, ingest C P leaders a raw = .ok (a.put x.key st ss, es) ∧ Exit C a x st ss es := by
  obtain ⟨st, ss, es, heq, hexit⟩ := ingestAdmitted_exit (C := C) (P := P) h x
  exact ⟨st, ss, es, by rw [ingest_eq_gate, hgate, Exec.ok_bind]; exact heq, hexit⟩

/-! ## Sequences of calls -/

theorem ingestAll_append (a : FecAssembler) : ∀ cs ds : List Call,
    ingestAll C P a (cs ++ ds) = ingestAll C P a cs >>= fun r =>
      ingestAll C P r.1 ds >>= fun r' => .ok (r'.1, r.2 ++ r'.2)
  | [], ds => by
      rw [List.nil_append, ingestAll, Exec.ok_bind]
      cases ingestAll C P a ds with
      | ok r => rfl
      | err e => exact e.elim
      | panic q => rfl
  | c :: cs, ds => by
      rw [List.cons_append, ingestAll, ingestAll]
      cases ingest C P c.leaders a c.raw with
      | err e => exact e.elim
      | panic q => rfl
      | ok r =>
          obtain ⟨a₁, events⟩ := r
          simp only [Exec.ok_bind, ingestAll_append a₁ cs ds]
          cases ingestAll C P a₁ cs with
          | err e => exact e.elim
          | panic q => rfl
          | ok r =>
              obtain ⟨a₂, rest⟩ := r
              simp only [Exec.ok_bind, Exec.pure_eq]
              cases ingestAll C P a₂ ds with
              | err e => exact e.elim
              | panic q => rfl
              | ok r => simp [List.append_assoc]

theorem ingestAll_single (a : FecAssembler) (c : Call) :
    ingestAll C P a [c] = ingest C P c.leaders a c.raw := by
  rw [ingestAll]
  cases ingest C P c.leaders a c.raw with
  | err e => exact e.elim
  | panic q => rfl
  | ok r => simp [ingestAll]

/-- The last call of a run. -/
theorem ingestAll_snoc_eq_ok {cs : List Call} {c : Call} :
    ingestAll C P a (cs ++ [c]) = .ok (a', es) ↔ ∃ a₁ es₁ es₂,
      ingestAll C P a cs = .ok (a₁, es₁) ∧ ingest C P c.leaders a₁ c.raw = .ok (a', es₂) ∧
        es = es₁ ++ es₂ := by
  rw [ingestAll_append, Exec.bind_eq_ok]
  constructor
  · rintro ⟨⟨a₁, es₁⟩, hcs, h⟩
    rw [ingestAll_single, Exec.bind_eq_ok] at h
    obtain ⟨⟨a₂, es₂⟩, hc, h⟩ := h
    cases h
    exact ⟨a₁, es₁, es₂, hcs, hc, rfl⟩
  · rintro ⟨a₁, es₁, es₂, hcs, hc, hr⟩
    refine ⟨(a₁, es₁), hcs, ?_⟩
    rw [ingestAll_single, hc, Exec.ok_bind, hr]

/-- An event of a run is an event of one of its calls. -/
theorem mem_events : ∀ {cs : List Call} {a' : FecAssembler} {es : List FecEvent} {e : FecEvent},
    ingestAll C P .new cs = .ok (a', es) → e ∈ es →
      ∃ pre c post a₁ es₁ a₂ es₂, cs = pre ++ c :: post ∧
        ingestAll C P .new pre = .ok (a₁, es₁) ∧
        ingest C P c.leaders a₁ c.raw = .ok (a₂, es₂) ∧ e ∈ es₂ := by
  intro cs
  induction cs using List.reverseRecOn with
  | nil =>
      intro a' es e h he
      cases h
      exact absurd he (by simp)
  | append_singleton cs c ih =>
      intro a' es e h he
      obtain ⟨a₁, es₁, es₂, hcs, hc, hes⟩ := ingestAll_snoc_eq_ok.mp h
      rw [hes, List.mem_append] at he
      rcases he with he | he
      · obtain ⟨pre, c', post, b, esb, b', esb', rfl, hpre, hc', he'⟩ := ih hcs he
        exact ⟨pre, c', post ++ [c], b, esb, b', esb', by simp, hpre, hc', he'⟩
      · exact ⟨cs, c, [], a₁, es₁, a', es₂, rfl, hcs, hc, he⟩

/-! ## Accepted shreds -/

/-- The datagram of the call is accepted as `w`, under the leader of its slot. -/
def Call.Accepts (C : Crates) (P : Profile) (c : Call) (w : VerifiedShred) : Prop :=
  ∃ pk, c.leaders w.slot = some pk ∧ verifyShred C P c.raw pk = .ok w

theorem accepts_of_gate {c : Call} {x : Admitted}
    (h : gate C P c.leaders c.raw = .ok (.ok x)) :
    c.Accepts C P x.shred := by
  obtain ⟨v, i, pk, hl, hv, rfl⟩ := gate_eq_admitted h
  exact ⟨pk, hl, hv.verifyShred_eq⟩

theorem gate_of_accepts {c : Call} {w : VerifiedShred} (h : c.Accepts C P w) :
    ∃ x, gate C P c.leaders c.raw = .ok (.ok x) ∧ x.shred = w := by
  obtain ⟨pk, hl, hw⟩ := h
  obtain ⟨v, i, hv, rfl⟩ := verifyShred_eq_ok hw
  exact ⟨_, Verified.gate_eq hv hl, rfl⟩

/-- The shred a call admits. -/
def Call.admission (C : Crates) (P : Profile) (c : Call) : Option Admitted :=
  match gate C P c.leaders c.raw with
  | .ok (.ok x) => some x
  | _ => none

/-- The admitted shreds of a run, in order. -/
def admitted (C : Crates) (P : Profile) (calls : List Call) : List Admitted :=
  calls.filterMap (Call.admission C P)

theorem admit_of_gate {c : Call} {x : Admitted} (h : gate C P c.leaders c.raw = .ok (.ok x)) :
    c.admission C P = some x := by
  rw [Call.admission, h]

theorem admit_eq_some {c : Call} {x : Admitted} (h : c.admission C P = some x) :
    gate C P c.leaders c.raw = .ok (.ok x) := by
  unfold Call.admission at h
  split at h
  · rename_i heq
    cases h
    exact heq
  · cases h

theorem mem_admitted {calls : List Call} {x : Admitted} (h : x ∈ admitted C P calls) :
    ∃ c ∈ calls, gate C P c.leaders c.raw = .ok (.ok x) := by
  obtain ⟨c, hc, hx⟩ := List.mem_filterMap.mp h
  exact ⟨c, hc, admit_eq_some hx⟩

theorem length_of_mem_admitted {calls : List Call} {x : Admitted} (h : x ∈ admitted C P calls) :
    x.bytes.length = 987 := by
  obtain ⟨c, _, hgate⟩ := mem_admitted h
  obtain ⟨v, i, pk, _, hv, rfl⟩ := gate_eq_admitted hgate
  exact length_admittedAs hv.full

theorem admitted_snoc (calls : List Call) (c : Call) :
    admitted C P (calls ++ [c]) = admitted C P calls ++ (c.admission C P).toList := by
  rw [admitted, List.filterMap_append, admitted]
  cases h : c.admission C P with
  | none => simp [h]
  | some x => simp [h]

/-- **The run rule.** What holds of a fresh assembler and survives every
rejection at the gate and every exit holds after every run. -/
theorem run_events {Q : List Admitted → FecAssembler → List FecEvent → Prop} (hnew : Q [] .new [])
    (hreject : ∀ {H a es reason}, Q H a es → Q H a (es ++ [.rejected reason]))
    (hexit : ∀ {H a es x st ss es'}, WellFormed a → Q H a es → Exit C a x st ss es' →
      Q (H ++ [x]) (a.put x.key st ss) (es ++ es')) :
    ∀ {calls : List Call} {a : FecAssembler} {es : List FecEvent},
      ingestAll C P .new calls = .ok (a, es) → WellFormed a ∧ Q (admitted C P calls) a es := by
  intro calls
  induction calls using List.reverseRecOn with
  | nil =>
      intro a es h
      cases h
      exact ⟨wellFormed_new, hnew⟩
  | append_singleton calls c ih =>
      intro a es h
      obtain ⟨a₁, es₁, es₂, hcs, hc, rfl⟩ := ingestAll_snoc_eq_ok.mp h
      obtain ⟨hwf, hq⟩ := ih hcs
      refine ⟨ingest_wellFormed hwf hc, ?_⟩
      rw [admitted_snoc]
      rcases ingest_cases hwf hc with ⟨reason, hgate, rfl, rfl⟩ | ⟨x, st, ss, hgate, rfl, hx⟩
      · have hnone : c.admission C P = none := by rw [Call.admission, hgate]
        rw [hnone, Option.toList_none, List.append_nil]
        exact hreject hq
      · rw [admit_of_gate hgate]
        exact hexit hwf hq hx

/-- The run rule for properties that do not look at the events. -/
theorem run_induction {Q : List Admitted → FecAssembler → Prop} (hnew : Q [] .new)
    (hexit : ∀ {H a x st ss es}, WellFormed a → Q H a → Exit C a x st ss es →
      Q (H ++ [x]) (a.put x.key st ss)) {calls : List Call} {a : FecAssembler} {es : List FecEvent}
    (h : ingestAll C P .new calls = .ok (a, es)) : WellFormed a ∧ Q (admitted C P calls) a :=
  run_events (Q := fun H a _ => Q H a) hnew id (fun hwf hq hx => hexit hwf hq hx) h

theorem run_wellFormed {calls : List Call} (h : ingestAll C P .new calls = .ok (a, es)) :
    WellFormed a :=
  (run_induction (Q := fun _ _ => True) trivial (fun _ _ _ => trivial) h).1

/-- A run of admitted shreds returns. -/
theorem run_of_admits : ∀ {calls : List Call},
    (∀ c ∈ calls, ∃ x, gate C P c.leaders c.raw = .ok (.ok x)) →
    ∃ a es, ingestAll C P .new calls = .ok (a, es) := by
  intro calls
  induction calls using List.reverseRecOn with
  | nil => exact fun _ => ⟨.new, [], rfl⟩
  | append_singleton calls c ih =>
      intro h
      obtain ⟨a, es, hrun⟩ := ih fun c hc => h c (List.mem_append_left _ hc)
      obtain ⟨x, hgate⟩ := h c (by simp)
      obtain ⟨st, ss, es', hstep, _⟩ := ingest_admitted (run_wellFormed hrun) hgate
      exact ⟨_, _, ingestAll_snoc_eq_ok.mpr ⟨a, es, es', hrun, hstep, rfl⟩⟩

theorem reachable_new : Reachable C P .new := ⟨[], [], rfl⟩

theorem Reachable.wellFormed (h : Reachable C P a) : WellFormed a := by
  obtain ⟨calls, es, h⟩ := h
  exact run_wellFormed h

end Lattica.Listener
