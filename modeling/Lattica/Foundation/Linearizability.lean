import Mathlib.Data.List.Nodup

/-!
# Linearizability

Calls of a shared object overlap. A history is what is seen at its boundary,
calls made and calls answered, in the order it happens; it is linearizable when
the calls can be put into one sequence that the sequential object allows, that
has every answer given, and that keeps calls apart which did not overlap.

`Committed` is the usual way to get there: every call takes effect at one moment
between being made and being answered, and the sequence is that of the effects.
-/

namespace Lattica.Foundation.Linearizability

variable {Op Res : Type}

/-- Call `n` is made, or answered. -/
inductive Event (Op Res : Type) where
  | invoke (n : ℕ) (op : Op)
  | respond (n : ℕ) (res : Res)

def Event.call : Event Op Res → ℕ
  | .invoke n _ => n
  | .respond n _ => n

/-- A call with the answer it gets. -/
structure Commit (Op Res : Type) where
  call : ℕ
  op : Op
  res : Res

/-- Call `n` was answered before call `m` was made. -/
def Precedes (h : List (Event Op Res)) (n m : ℕ) : Prop :=
  ∃ pre post op res, h = pre ++ .invoke m op :: post ∧ .respond n res ∈ pre

/-- `c` comes before `d`. -/
def Before (l : List (Commit Op Res)) (c d : Commit Op Res) : Prop :=
  ∃ pre post, l = pre ++ d :: post ∧ c ∈ pre

/-- The history `h` with the calls that have taken effect, in that order. -/
inductive Committed : List (Event Op Res) → List (Commit Op Res) → Prop where
  | nil : Committed [] []
  | invoke {h l} {n : ℕ} {op : Op} (hc : Committed h l) (hfresh : ∀ e ∈ h, e.call ≠ n) :
      Committed (h ++ [.invoke n op]) l
  | commit {h l} {c : Commit Op Res} (hc : Committed h l) (hinvoked : .invoke c.call c.op ∈ h)
      (hfirst : c.call ∉ l.map Commit.call) : Committed h (l ++ [c])
  | respond {h l} {c : Commit Op Res} (hc : Committed h l) (heffect : c ∈ l) :
      Committed (h ++ [.respond c.call c.res]) l

variable {h : List (Event Op Res)} {l : List (Commit Op Res)}

/-- The last event is the invocation of the later call, or the order was there before. -/
theorem precedes_snoc {e : Event Op Res} {n m : ℕ} (hp : Precedes (h ++ [e]) n m) :
    Precedes h n m ∨ ∃ op res, e = .invoke m op ∧ .respond n res ∈ h := by
  obtain ⟨pre, post, op, res, heq, hmem⟩ := hp
  rcases List.eq_nil_or_concat post with rfl | ⟨post, d, rfl⟩
  · obtain ⟨rfl, hlast⟩ := List.append_inj' heq rfl
    exact Or.inr ⟨op, res, (List.singleton_inj.mp hlast), hmem⟩
  · have hsplit : h ++ [e] = (pre ++ .invoke m op :: post) ++ [d] := by
      rw [heq, List.concat_eq_append, List.append_assoc, List.cons_append]
    obtain ⟨rfl, _⟩ := List.append_inj' hsplit rfl
    exact Or.inl ⟨pre, post, op, res, rfl, hmem⟩

theorem Before.snoc {c d e : Commit Op Res} (hb : Before l c d) : Before (l ++ [e]) c d := by
  obtain ⟨pre, post, rfl, hc⟩ := hb
  exact ⟨pre, post ++ [e], by rw [List.append_assoc, List.cons_append], hc⟩

namespace Committed

theorem invoked (hc : Committed h l) : ∀ c ∈ l, .invoke c.call c.op ∈ h := by
  induction hc with
  | nil =>
      intro c hc
      cases hc
  | invoke _ _ ih =>
      intro c hc
      exact List.mem_append_left _ (ih c hc)
  | commit _ hinvoked _ ih =>
      intro c hc
      rcases List.mem_append.mp hc with hc | hc
      · exact ih c hc
      · rw [List.mem_singleton.mp hc]
        exact hinvoked
  | respond _ _ ih =>
      intro c hc
      exact List.mem_append_left _ (ih c hc)

theorem answered (hc : Committed h l) :
    ∀ n res, .respond n res ∈ h → ∃ c ∈ l, c.call = n ∧ c.res = res := by
  induction hc with
  | nil =>
      intro n res hmem
      cases hmem
  | invoke _ _ ih =>
      intro n res hmem
      rcases List.mem_append.mp hmem with hmem | hmem
      · exact ih n res hmem
      · cases List.mem_singleton.mp hmem
  | commit _ _ _ ih =>
      intro n res hmem
      obtain ⟨c, hc, hrest⟩ := ih n res hmem
      exact ⟨c, List.mem_append_left _ hc, hrest⟩
  | @respond _ _ c _ heffect ih =>
      intro n res hmem
      rcases List.mem_append.mp hmem with hmem | hmem
      · exact ih n res hmem
      · cases List.mem_singleton.mp hmem
        exact ⟨c, heffect, rfl, rfl⟩

/-- Effects keep the order of calls that do not overlap. -/
theorem order (hc : Committed h l) :
    ∀ c ∈ l, ∀ d ∈ l, Precedes h c.call d.call → Before l c d := by
  induction hc with
  | nil =>
      intro c hc
      cases hc
  | @invoke h l n op hc hfresh ih =>
      intro c hcl d hdl hp
      rcases precedes_snoc hp with hp | ⟨op', res, heq, _⟩
      · exact ih c hcl d hdl hp
      · -- a call just made has had no effect yet
        cases heq
        exact absurd rfl (hfresh _ (hc.invoked d hdl))
  | @commit h l e hc hinvoked hfirst ih =>
      intro c hcl d hdl hp
      rcases List.mem_append.mp hcl with hcl | hcl
      · rcases List.mem_append.mp hdl with hdl | hdl
        · exact (ih c hcl d hdl hp).snoc
        · rw [List.mem_singleton.mp hdl]
          exact ⟨l, [], rfl, hcl⟩
      · -- what has just taken effect was not answered
        rw [List.mem_singleton.mp hcl] at hp
        obtain ⟨pre, post, op, res, rfl, hmem⟩ := hp
        obtain ⟨c', hc', hcall, _⟩ := hc.answered _ _ (List.mem_append_left _ hmem)
        exact absurd (List.mem_map.mpr ⟨c', hc', hcall⟩) hfirst
  | respond _ _ ih =>
      intro c hcl d hdl hp
      rcases precedes_snoc hp with hp | ⟨op', res, heq, _⟩
      · exact ih c hcl d hdl hp
      · cases heq

end Committed

end Lattica.Foundation.Linearizability
