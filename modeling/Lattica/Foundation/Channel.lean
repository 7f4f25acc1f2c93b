import Lattica.Foundation.Exec
import Mathlib.Data.List.Induction

/-!
# A task behind a bounded channel

A task takes one input at a time and sends what handling it yields into a
bounded channel before it takes the next one. A consumer takes from the other
end, and may go away at any moment. The steps of the two interleave freely.

`Accounts` is what every interleaving keeps: what the consumer took, what is in
the channel and what is still unsent are together the outputs of the inputs, in
order. `drains` says that the two never block each other for good.
-/

namespace Lattica.Foundation.Channel

variable {σ ι ο : Type} {cap : ℕ}

/-- Messages in the order they were sent, at most `cap` of them. -/
structure Queue (cap : ℕ) (ο : Type) where
  elems : List ο
  le_cap : elems.length ≤ cap

namespace Queue

def empty : Queue cap ο := ⟨[], Nat.zero_le cap⟩

def push (q : Queue cap ο) (e : ο) (h : q.elems.length < cap) : Queue cap ο where
  elems := q.elems ++ [e]
  le_cap := by
    rw [List.length_append]
    exact h

/-- What is left once the head is taken. -/
def rest (q : Queue cap ο) : Queue cap ο where
  elems := q.elems.tail
  le_cap := by
    rw [List.length_tail]
    exact (Nat.sub_le _ 1).trans q.le_cap

end Queue

inductive Task (σ ι ο : Type) where
  /-- Alive; `unsent` is what is left of the outputs of the last input, and
  `strict` whether a closed channel ends the task there. -/
  | running (state : σ) (unsent : List ο) (strict : Bool)
  | returned
  /-- Handling `input` panicked. -/
  | panicked (input : ι) (p : Panic)

def Task.unsent : Task σ ι ο → List ο
  | .running _ unsent _ => unsent
  | _ => []

structure System (cap : ℕ) (σ ι ο : Type) where
  task : Task σ ι ο
  /-- `none` once the consumer is gone. -/
  channel : Option (Queue cap ο)
  /-- The inputs handled so far. -/
  handled : List ι
  /-- What the consumer has taken so far. -/
  taken : List ο

/-- The task is spawned with an empty channel. -/
def System.spawned (s : σ) : System cap σ ι ο where
  task := .running s [] true
  channel := some .empty
  handled := []
  taken := []

inductive Action (ι : Type) where
  | input (x : ι)
  | send
  /-- A send that finds the channel closed. -/
  | fail
  | take
  | drop

/-- The steps that move messages towards the consumer. -/
def Action.Moves : Action ι → Prop
  | .send => True
  | .take => True
  | _ => False

section Steps

variable (handle : σ → ι → Exec Empty (σ × List ο)) (strict : ι → Bool)

inductive Step : System cap σ ι ο → Action ι → System cap σ ι ο → Prop where
  /-- The next input is taken once the outputs of the last one are sent. -/
  | handle {S : System cap σ ι ο} {s s' : σ} {b : Bool} {x : ι} {out : List ο}
      (hready : S.task = .running s [] b) (hrun : handle s x = .ok (s', out)) :
      Step S (.input x) { S with
        task := .running s' out (strict x)
        handled := S.handled ++ [x] }
  | panic {S : System cap σ ι ο} {s : σ} {b : Bool} {x : ι} {p : Panic}
      (hready : S.task = .running s [] b) (hrun : handle s x = .panic p) :
      Step S (.input x) { S with task := .panicked x p }
  | send {S : System cap σ ι ο} {s : σ} {e : ο} {rest : List ο} {b : Bool} {q : Queue cap ο}
      (hnext : S.task = .running s (e :: rest) b) (hopen : S.channel = some q)
      (hroom : q.elems.length < cap) :
      Step S .send { S with task := .running s rest b, channel := some (q.push e hroom) }
  /-- The task returns on the first send that fails. -/
  | stop {S : System cap σ ι ο} {s : σ} {e : ο} {rest : List ο}
      (hnext : S.task = .running s (e :: rest) true) (hclosed : S.channel = none) :
      Step S .fail { S with task := .returned }
  /-- Outputs whose send may fail are discarded. -/
  | skip {S : System cap σ ι ο} {s : σ} {e : ο} {rest : List ο}
      (hnext : S.task = .running s (e :: rest) false) (hclosed : S.channel = none) :
      Step S .fail { S with task := .running s rest false }
  | take {S : System cap σ ι ο} {q : Queue cap ο} {e : ο}
      (hopen : S.channel = some q) (hhead : q.elems.head? = some e) :
      Step S .take { S with channel := some q.rest, taken := S.taken ++ [e] }
  | drop {S : System cap σ ι ο} {q : Queue cap ο} (hopen : S.channel = some q) :
      Step S .drop { S with channel := none }

inductive Runs (S : System cap σ ι ο) : List (Action ι) → System cap σ ι ο → Prop where
  | refl : Runs S [] S
  | snoc {acts : List (Action ι)} {a : Action ι} {T U : System cap σ ι ο}
      (hruns : Runs S acts T) (hstep : Step handle strict T a U) : Runs S (acts ++ [a]) U

/-- Some interleaving of task and consumer leads there. -/
def Reachable (s₀ : σ) (S : System cap σ ι ο) : Prop :=
  ∃ acts, Runs handle strict (.spawned s₀) acts S

/-- The inputs handled one after the other, with nobody else around. -/
def handleAll : σ → List ι → Exec Empty (σ × List ο)
  | s, [] => .ok (s, [])
  | s, x :: xs => do
      let (s, out) ← handle s x
      let (s, rest) ← handleAll s xs
      return (s, out ++ rest)

end Steps

variable {handle : σ → ι → Exec Empty (σ × List ο)} {strict : ι → Bool}

theorem handleAll_snoc {xs : List ι} {x : ι} {s s' s'' : σ} {es out : List ο}
    (hxs : handleAll handle s xs = .ok (s', es)) (hx : handle s' x = .ok (s'', out)) :
    handleAll handle s (xs ++ [x]) = .ok (s'', es ++ out) := by
  induction xs generalizing s es with
  | nil =>
      cases hxs
      show (handle s' x >>= _) = _
      rw [hx]
      show Exec.ok (s'', out ++ []) = _
      rw [List.append_nil, List.nil_append]
  | cons y ys ih =>
      obtain ⟨⟨s₁, out₁⟩, hy, hxs⟩ := Exec.bind_eq_ok.mp hxs
      obtain ⟨⟨s₂, rest⟩, hys, hxs⟩ := Exec.bind_eq_ok.mp hxs
      cases hxs
      show (handle s y >>= _) = _
      rw [hy, Exec.ok_bind]
      show (handleAll handle s₁ (ys ++ [x]) >>= _) = _
      rw [ih hys, Exec.ok_bind]
      show Exec.ok (s'', out₁ ++ (rest ++ out)) = _
      rw [List.append_assoc]

theorem handleAll_snoc_eq_ok {x : ι} : ∀ {xs : List ι} {s s'' : σ} {es : List ο},
    handleAll handle s (xs ++ [x]) = .ok (s'', es) →
    ∃ s' es₁ out, handleAll handle s xs = .ok (s', es₁) ∧ handle s' x = .ok (s'', out) ∧
      es = es₁ ++ out := by
  intro xs
  induction xs with
  | nil =>
      intro s s'' es h
      obtain ⟨⟨s₁, out⟩, hx, h⟩ := Exec.bind_eq_ok.mp h
      cases h
      exact ⟨s, [], out, rfl, hx, List.append_nil out⟩
  | cons y ys ih =>
      intro s s'' es h
      obtain ⟨⟨s₁, out₁⟩, hy, h⟩ := Exec.bind_eq_ok.mp h
      obtain ⟨⟨s₂, rest⟩, hys, h⟩ := Exec.bind_eq_ok.mp h
      cases h
      obtain ⟨s', es₁, out, hrun, hx, rfl⟩ := ih hys
      refine ⟨s', out₁ ++ es₁, out, ?_, hx, (List.append_assoc _ _ _).symm⟩
      show (handle s y >>= _) = _
      rw [hy, Exec.ok_bind]
      show (handleAll handle s₁ ys >>= _) = _
      rw [hrun]
      rfl

/-- Handlers that agree along a map of their states yield the same outputs. -/
theorem handleAll_simulates {τ : Type} {handle' : τ → ι → Exec Empty (τ × List ο)} (f : σ → τ)
    (hsim : ∀ s x s' out, handle s x = .ok (s', out) → handle' (f s) x = .ok (f s', out)) :
    ∀ {xs : List ι} {s s' : σ} {es : List ο}, handleAll handle s xs = .ok (s', es) →
      handleAll handle' (f s) xs = .ok (f s', es) := by
  intro xs
  induction xs with
  | nil =>
      intro s s' es h
      cases h
      rfl
  | cons x xs ih =>
      intro s s' es h
      obtain ⟨⟨s₁, out⟩, hx, h⟩ := Exec.bind_eq_ok.mp h
      obtain ⟨⟨s₂, rest⟩, hxs, h⟩ := Exec.bind_eq_ok.mp h
      cases h
      show (handle' (f s) x >>= _) = _
      rw [hsim s x s₁ out hx, Exec.ok_bind]
      show (handleAll handle' (f s₁) xs >>= _) = _
      rw [ih hxs]
      rfl

/-! ## Accounting -/

/-- Nothing is lost, duplicated or reordered between the inputs and the
consumer: `es` is what handling the inputs one after the other yields. -/
structure Accounts (handle : σ → ι → Exec Empty (σ × List ο)) (s₀ : σ)
    (S : System cap σ ι ο) (s : σ) (es : List ο) : Prop where
  run : handleAll handle s₀ S.handled = .ok (s, es)
  state : ∀ {s' : σ} {unsent : List ο} {b : Bool}, S.task = .running s' unsent b → s' = s
  crash : ∀ {x : ι} {p : Panic}, S.task = .panicked x p → handle s x = .panic p
  returned : S.task = .returned → S.channel = none
  sent : ∀ {q : Queue cap ο}, S.channel = some q → es = S.taken ++ q.elems ++ S.task.unsent
  closed : S.channel = none → S.taken <+: es

theorem accounts_spawned (s₀ : σ) :
    Accounts handle s₀ (System.spawned s₀ : System cap σ ι ο) s₀ [] where
  run := rfl
  state h := by
    cases h
    rfl
  crash h := by cases h
  returned h := by cases h
  sent h := by
    cases h
    rfl
  closed h := by cases h

/-- **Every step keeps the accounts.** -/
theorem Accounts.step {s₀ s : σ} {es : List ο} {S T : System cap σ ι ο} {a : Action ι}
    (h : Accounts handle s₀ S s es) (hstep : Step handle strict S a T) :
    ∃ s' es', Accounts handle s₀ T s' es' ∧ es <+: es' := by
  cases hstep with
  | @handle s₁ s' b x out hready hrun =>
      have hs := h.state hready
      subst hs
      refine ⟨s', es ++ out, ?_, List.prefix_append es out⟩
      refine
        { run := handleAll_snoc h.run hrun, state := ?_, crash := ?_, returned := ?_, sent := ?_
          closed := ?_ }
      · intro s'' unsent b' heq
        cases heq
        rfl
      · intro y p heq
        cases heq
      · intro heq
        cases heq
      · intro q hq
        show es ++ out = S.taken ++ q.elems ++ out
        have hes := h.sent hq
        rw [hready] at hes
        rw [hes]
        show S.taken ++ q.elems ++ [] ++ out = _
        rw [List.append_nil]
      · intro hclosed
        exact (h.closed hclosed).trans (List.prefix_append es out)
  | @panic s₁ b x p hready hrun =>
      have hs := h.state hready
      subst hs
      refine ⟨s₁, es, ?_, List.prefix_refl es⟩
      refine
        { run := h.run, state := ?_, crash := ?_, returned := ?_, sent := ?_
          closed := h.closed }
      · intro s' unsent b' heq
        cases heq
      · intro y p' heq
        cases heq
        exact hrun
      · intro heq
        cases heq
      · intro q hq
        have hes := h.sent hq
        rw [hready] at hes
        exact hes
  | @send s₁ e rest b q hnext hopen hroom =>
      refine ⟨s, es, ?_, List.prefix_refl es⟩
      refine
        { run := h.run, state := ?_, crash := ?_, returned := ?_, sent := ?_, closed := ?_ }
      · intro s' unsent b' heq
        cases heq
        exact h.state hnext
      · intro x p heq
        cases heq
      · intro heq
        cases heq
      · intro q' hq'
        cases hq'
        have hes := h.sent hopen
        rw [hnext] at hes
        rw [hes]
        show S.taken ++ q.elems ++ (e :: rest) = S.taken ++ (q.elems ++ [e]) ++ rest
        simp only [List.append_assoc, List.singleton_append]
      · intro hclosed
        cases hclosed
  | @stop s₁ e rest hnext hclosed =>
      refine ⟨s, es, ?_, List.prefix_refl es⟩
      refine
        { run := h.run, state := ?_, crash := ?_, returned := fun _ => hclosed, sent := ?_
          closed := h.closed }
      · intro s' unsent b heq
        cases heq
      · intro x p heq
        cases heq
      · intro q hq
        rw [hclosed] at hq
        cases hq
  | @skip s₁ e rest hnext hclosed =>
      refine ⟨s, es, ?_, List.prefix_refl es⟩
      refine
        { run := h.run, state := ?_, crash := ?_, returned := ?_, sent := ?_
          closed := h.closed }
      · intro s' unsent b heq
        cases heq
        exact h.state hnext
      · intro x p heq
        cases heq
      · intro heq
        cases heq
      · intro q hq
        rw [hclosed] at hq
        cases hq
  | @take q e hopen hhead =>
      refine ⟨s, es, ?_, List.prefix_refl es⟩
      have hq := h.sent hopen
      have helems : q.elems = e :: q.elems.tail := List.eq_cons_of_mem_head? hhead
      refine
        { run := h.run, state := h.state, crash := h.crash, returned := ?_, sent := ?_
          closed := ?_ }
      · intro heq
        have hnone := h.returned heq
        rw [hopen] at hnone
        cases hnone
      · intro q' hq'
        cases hq'
        show es = S.taken ++ [e] ++ q.elems.tail ++ S.task.unsent
        rw [hq, helems]
        simp only [List.append_assoc, List.singleton_append, List.tail_cons]
      · intro hclosed
        cases hclosed
  | @drop q hopen =>
      refine ⟨s, es, ?_, List.prefix_refl es⟩
      refine
        { run := h.run, state := h.state, crash := h.crash, returned := fun _ => rfl
          sent := ?_, closed := ?_ }
      · intro q' hq'
        cases hq'
      · intro _
        rw [h.sent hopen, List.append_assoc]
        exact List.prefix_append _ _

theorem Accounts.runs {s₀ s : σ} {es : List ο} {S T : System cap σ ι ο} {acts : List (Action ι)}
    (h : Accounts handle s₀ S s es) (hruns : Runs handle strict S acts T) :
    ∃ s' es', Accounts handle s₀ T s' es' ∧ es <+: es' := by
  induction hruns with
  | refl => exact ⟨s, es, h, List.prefix_refl es⟩
  | snoc _ hstep ih =>
      obtain ⟨s₁, es₁, h₁, hle₁⟩ := ih
      obtain ⟨s₂, es₂, h₂, hle₂⟩ := h₁.step hstep
      exact ⟨s₂, es₂, h₂, hle₁.trans hle₂⟩

theorem Reachable.accounts {s₀ : σ} {S : System cap σ ι ο}
    (h : Reachable handle strict s₀ S) : ∃ s es, Accounts handle s₀ S s es := by
  obtain ⟨acts, hruns⟩ := h
  obtain ⟨s, es, hacc, _⟩ := (accounts_spawned s₀).runs hruns
  exact ⟨s, es, hacc⟩

/-- What the consumer took is what the first inputs yield, however the run went. -/
theorem Accounts.taken_le {s₀ s : σ} {es : List ο} {S : System cap σ ι ο}
    (h : Accounts handle s₀ S s es) : S.taken <+: es := by
  cases hch : S.channel with
  | none => exact h.closed hch
  | some q =>
      rw [h.sent hch, List.append_assoc]
      exact List.prefix_append _ _

/-! ## The end of the task -/

/-- A task that panicked handles nothing more. -/
theorem Runs.panicked {S T : System cap σ ι ο} {acts : List (Action ι)} {x : ι} {p : Panic}
    (hend : S.task = .panicked x p) (h : Runs handle strict S acts T) :
    T.task = .panicked x p ∧ T.handled = S.handled := by
  induction h with
  | refl => exact ⟨hend, rfl⟩
  | snoc _ hstep ih =>
      obtain ⟨htask, hhandled⟩ := ih
      cases hstep with
      | handle hready _ =>
          rw [htask] at hready
          cases hready
      | panic hready _ =>
          rw [htask] at hready
          cases hready
      | send hnext _ _ =>
          rw [htask] at hnext
          cases hnext
      | stop hnext _ =>
          rw [htask] at hnext
          cases hnext
      | skip hnext _ =>
          rw [htask] at hnext
          cases hnext
      | take _ _ => exact ⟨htask, hhandled⟩
      | drop _ => exact ⟨htask, hhandled⟩

/-! ## Backlog -/

/-- What is left unsent is an end of the outputs of one input. -/
theorem unsent_le {k : ℕ} {s₀ : σ}
    (hk : ∀ (s s' : σ) (x : ι) (out : List ο) (S : System cap σ ι ο) (b : Bool),
      Reachable handle strict s₀ S → S.task = .running s [] b → handle s x = .ok (s', out) →
      out.length ≤ k)
    {S : System cap σ ι ο} {acts : List (Action ι)}
    (h : Runs handle strict (.spawned s₀) acts S) : S.task.unsent.length ≤ k := by
  induction h with
  | refl => exact Nat.zero_le k
  | snoc hruns hstep ih =>
      cases hstep with
      | handle hready hrun => exact hk _ _ _ _ _ _ ⟨_, hruns⟩ hready hrun
      | panic _ _ => exact Nat.zero_le k
      | send hnext _ _ =>
          rw [hnext] at ih
          exact (Nat.le_succ _).trans ih
      | stop _ _ => exact Nat.zero_le k
      | skip hnext _ =>
          rw [hnext] at ih
          exact (Nat.le_succ _).trans ih
      | take _ _ => exact ih
      | drop _ => exact ih

/-! ## Draining -/

/-- The moves it takes until the consumer has everything: a message still
unsent moves twice, one in the channel once. -/
def System.load (S : System cap σ ι ο) : ℕ :=
  2 * S.task.unsent.length + (S.channel.elim [] Queue.elems).length

theorem Step.load_lt {S T : System cap σ ι ο} {a : Action ι}
    (hstep : Step handle strict S a T) (ha : a.Moves) :
    T.load + 1 = S.load ∧ T.handled = S.handled ∧ T.channel.isSome = true := by
  cases hstep with
  | handle _ _ => exact ha.elim
  | panic _ _ => exact ha.elim
  | @send s e rest b q hnext hopen hroom =>
      refine ⟨?_, rfl, rfl⟩
      unfold System.load
      rw [hnext, hopen]
      show 2 * rest.length + (q.elems ++ [e]).length + 1 = 2 * (rest.length + 1) + q.elems.length
      rw [List.length_append, List.length_singleton]
      omega
  | stop _ _ => exact ha.elim
  | skip _ _ => exact ha.elim
  | @take q e hopen hhead =>
      refine ⟨?_, rfl, rfl⟩
      have helems : q.elems = e :: q.elems.tail := List.eq_cons_of_mem_head? hhead
      unfold System.load
      rw [hopen]
      show 2 * S.task.unsent.length + q.elems.tail.length + 1 =
        2 * S.task.unsent.length + q.elems.length
      rw [helems]
      rfl
  | drop _ => exact ha.elim

variable (handle strict) in
/-- As long as something is on its way, the task can send or the consumer can take. -/
theorem exists_move (hcap : 0 < cap) {S : System cap σ ι ο} {q : Queue cap ο}
    (hopen : S.channel = some q) (hload : S.load ≠ 0) :
    ∃ a T, Step handle strict S a T ∧ a.Moves := by
  cases helems : q.elems with
  | cons e rest =>
      refine ⟨.take, _, Step.take (e := e) hopen ?_, trivial⟩
      rw [helems]
      rfl
  | nil =>
      cases htask : S.task with
      | running s unsent b =>
          cases unsent with
          | nil =>
              refine absurd ?_ hload
              unfold System.load
              rw [htask, hopen]
              show 2 * 0 + q.elems.length = 0
              rw [helems]
              rfl
          | cons e rest =>
              refine ⟨.send, _, Step.send htask hopen ?_, trivial⟩
              rw [helems]
              exact hcap
      | returned =>
          refine absurd ?_ hload
          unfold System.load
          rw [htask, hopen]
          show 2 * 0 + q.elems.length = 0
          rw [helems]
          rfl
      | panicked x p =>
          refine absurd ?_ hload
          unfold System.load
          rw [htask, hopen]
          show 2 * 0 + q.elems.length = 0
          rw [helems]
          rfl

/-- Moves in any order come to an end. -/
theorem Runs.moves_le {S T : System cap σ ι ο} {acts : List (Action ι)}
    (h : Runs handle strict S acts T) (hmoves : ∀ a ∈ acts, a.Moves) :
    T.load + acts.length = S.load ∧ T.handled = S.handled := by
  induction h with
  | refl => exact ⟨rfl, rfl⟩
  | snoc _ hstep ih =>
      obtain ⟨hload, hhandled⟩ := ih fun a ha => hmoves a (List.mem_append_left _ ha)
      obtain ⟨hlt, hsame, _⟩ := hstep.load_lt (hmoves _ (by simp))
      refine ⟨?_, hsame.trans hhandled⟩
      rw [List.length_append, List.length_singleton]
      omega

/-- Moves do not close the channel. -/
theorem Runs.moves_open {S T : System cap σ ι ο} {acts : List (Action ι)}
    (h : Runs handle strict S acts T) (hmoves : ∀ a ∈ acts, a.Moves)
    (hopen : ∃ q, S.channel = some q) : ∃ q, T.channel = some q := by
  cases h with
  | refl => exact hopen
  | snoc _ hstep =>
      have hsome := (hstep.load_lt (hmoves _ (by simp))).2.2
      exact Option.isSome_iff_exists.mp hsome

/-- Moves leave a running task running. -/
theorem Runs.moves_running {S T : System cap σ ι ο} {acts : List (Action ι)} {s : σ} {b : Bool}
    (h : Runs handle strict S acts T) (hmoves : ∀ a ∈ acts, a.Moves)
    (hrunning : ∃ unsent, S.task = .running s unsent b) :
    ∃ unsent, T.task = .running s unsent b := by
  induction h with
  | refl => exact hrunning
  | snoc _ hstep ih =>
      obtain ⟨unsent, htask⟩ := ih fun a ha => hmoves a (List.mem_append_left _ ha)
      have ha := hmoves _ (List.mem_append_right _ (List.mem_singleton_self _))
      cases hstep with
      | handle _ _ => exact ha.elim
      | panic _ _ => exact ha.elim
      | send hnext _ _ =>
          rw [htask] at hnext
          cases hnext
          exact ⟨_, rfl⟩
      | stop _ _ => exact ha.elim
      | skip _ _ => exact ha.elim
      | take _ _ => exact ⟨unsent, htask⟩
      | drop _ => exact ha.elim

theorem Runs.trans {S T U : System cap σ ι ο} {acts acts' : List (Action ι)}
    (h : Runs handle strict S acts T) (h' : Runs handle strict T acts' U) :
    Runs handle strict S (acts ++ acts') U := by
  induction h' with
  | refl =>
      rw [List.append_nil]
      exact h
  | snoc _ hstep ih =>
      rw [← List.append_assoc]
      exact ih.snoc hstep

variable (handle strict) in
/-- **No deadlock.** While the consumer is there, moves alone bring everything to it. -/
theorem drains (hcap : 0 < cap) : ∀ (n : ℕ) {S : System cap σ ι ο} {q : Queue cap ο},
    S.channel = some q → S.load = n →
    ∃ acts T, Runs handle strict S acts T ∧ (∀ a ∈ acts, a.Moves) ∧ T.load = 0 ∧
      T.channel.isSome = true := by
  intro n
  induction n with
  | zero =>
      intro S q hopen hload
      refine ⟨[], S, .refl, fun a ha => absurd ha List.not_mem_nil, hload, ?_⟩
      rw [hopen]
      rfl
  | succ n ih =>
      intro S q hopen hload
      obtain ⟨a, T, hstep, ha⟩ := exists_move handle strict hcap hopen (by omega)
      obtain ⟨hlt, _, hsome⟩ := hstep.load_lt ha
      obtain ⟨q', hq'⟩ := Option.isSome_iff_exists.mp hsome
      obtain ⟨acts, U, hruns, hmoves, hdone, hend⟩ := ih hq' (by omega)
      refine ⟨[a] ++ acts, U, Runs.trans (Runs.snoc .refl hstep) hruns, ?_, hdone, hend⟩
      intro a' ha'
      rcases List.mem_append.mp ha' with ha' | ha'
      · rw [List.mem_singleton.mp ha']
        exact ha
      · exact hmoves a' ha'

/-- A system with nothing on its way has nothing unsent. -/
theorem unsent_of_load {S : System cap σ ι ο} (hload : S.load = 0) : S.task.unsent = [] := by
  have htwo := (Nat.eq_zero_of_add_eq_zero hload).1
  exact List.length_eq_zero_iff.mp (by omega)

/-- Once everything is delivered, the consumer has the outputs of all inputs. -/
theorem Accounts.delivered {s₀ s : σ} {es : List ο} {S : System cap σ ι ο}
    (h : Accounts handle s₀ S s es) (hopen : S.channel.isSome = true) (hload : S.load = 0) :
    S.taken = es := by
  obtain ⟨q, hq⟩ := Option.isSome_iff_exists.mp hopen
  have hunsent := unsent_of_load hload
  unfold System.load at hload
  rw [hq] at hload
  have hqueue : q.elems = [] := List.length_eq_zero_iff.mp (Nat.eq_zero_of_add_eq_zero hload).2
  rw [h.sent hq, hqueue, hunsent, List.append_nil, List.append_nil]

variable (strict) in
/-- Handling inputs one after the other is one of the interleavings: the
consumer takes everything before the next input comes. -/
theorem exists_reachable (hcap : 0 < cap) {s₀ : σ} {xs : List ι} :
    ∀ {s : σ} {es : List ο}, handleAll handle s₀ xs = .ok (s, es) →
      ∃ (S : System cap σ ι ο) (b : Bool), Reachable handle strict s₀ S ∧ S.handled = xs ∧
        S.taken = es ∧ S.task = .running s [] b ∧ S.channel.isSome = true ∧ S.load = 0 := by
  induction xs using List.reverseRecOn with
  | nil =>
      intro s es h
      cases h
      exact ⟨.spawned s₀, true, ⟨[], .refl⟩, rfl, rfl, rfl, rfl, rfl⟩
  | append_singleton xs x ih =>
      intro s es h
      obtain ⟨s₁, es₁, out, hxs, hx, rfl⟩ := handleAll_snoc_eq_ok h
      obtain ⟨S, b, ⟨acts, hruns⟩, hhandled, _, htask, hopen, _⟩ := ih hxs
      have hstep : Step handle strict S (.input x) { S with
          task := .running s out (strict x)
          handled := S.handled ++ [x] } := .handle htask hx
      obtain ⟨q, hq⟩ := Option.isSome_iff_exists.mp hopen
      obtain ⟨acts', T, hruns', hmoves, hzero, hsome⟩ :=
        drains handle strict hcap _ (S := { S with
          task := .running s out (strict x)
          handled := S.handled ++ [x] }) hq rfl
      have hreach := (hruns.snoc hstep).trans hruns'
      obtain ⟨unsent, htaskT⟩ := hruns'.moves_running hmoves ⟨out, rfl⟩
      have hnil := unsent_of_load hzero
      rw [htaskT] at hnil
      change unsent = [] at hnil
      subst hnil
      have hhandledT : T.handled = xs ++ [x] := by
        rw [(hruns'.moves_le hmoves).2, ← hhandled]
      refine ⟨T, strict x, ⟨_, hreach⟩, hhandledT, ?_, htaskT, hsome, hzero⟩
      obtain ⟨s', es', hacc, _⟩ := (accounts_spawned s₀).runs hreach
      have hrun := hacc.run
      rw [hhandledT, handleAll_snoc hxs hx] at hrun
      have hes : es₁ ++ out = es' := congrArg Prod.snd (Exec.ok.inj hrun)
      rw [hes]
      exact hacc.delivered hsome hzero

end Lattica.Foundation.Channel
