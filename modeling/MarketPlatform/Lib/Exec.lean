/-
Computations that keep their state when they raise.

`EStateM ε σ` with its default (non-backtracking) exception handling is
the semantics of an imperative language with exceptions: a raise stops
the computation, and the assignments made before it stand. This file
adds what a verification over such programs needs and core does not
carry: the state a result ends in whichever way it ended, lifting an
`Except` into the program, and two judgments with their composition
rules.

# The two judgments

- `Lockstep R x y`: from `R`-related states the programs `x` and `y`
  end the same way — same value or same exception — in `R`-related
  states. This is the two-run judgment; it composes through bind.
- `Frame π x`: `x` leaves the projection `π` of the state alone, however
  it ends. Framed statements before a last one that changes the
  projection or raises, not both, make a program that `Commits`.

`Tracks R x y` forgets the way the two programs end and keeps only the
relation of the states. A program whose last statement may fail in one
run and succeed in the other is not in lockstep with itself, but it
still tracks itself when that statement does (`Lockstep.tracks_bind`).

`Simulates R x y` is one-sided: a run of `x` that does not raise is
matched by one of `y`. Two lists of commands that simulate themselves
inside the state they share can be run in any `Interleave`d order
(`Interleave.run`).
-/
import Mathlib.Tactic.Common

namespace EStateM

variable {ε σ τ α β : Type}

-- ============================================================== results

/-- The state a computation ends in, whichever way it ends. -/
def Result.state : Result ε σ α → σ
  | .ok _ s => s
  | .error _ s => s

/-- The computation ended without raising. -/
def Result.isOk : Result ε σ α → Bool
  | .ok _ _ => true
  | .error _ _ => false

@[simp] theorem Result.state_ok (a : α) (s : σ) :
    (Result.ok a s : Result ε σ α).state = s := rfl

@[simp] theorem Result.state_error (e : ε) (s : σ) :
    (Result.error e s : Result ε σ α).state = s := rfl

@[simp] theorem Result.isOk_ok (a : α) (s : σ) :
    (Result.ok a s : Result ε σ α).isOk = true := rfl

@[simp] theorem Result.isOk_error (e : ε) (s : σ) :
    (Result.error e s : Result ε σ α).isOk = false := rfl

/-- A result of unit type that is ok is determined by its state. -/
theorem Result.eq_ok_of_isOk {r : Result ε σ Unit} (h : r.isOk = true) :
    r = .ok () r.state := by
  cases r with
  | ok a s => rfl
  | error e s => simp at h

/-- A result that is not ok is an exception with a state. -/
theorem Result.eq_error_of_isOk {r : Result ε σ α} (h : r.isOk = false) :
    ∃ e, r = .error e r.state := by
  cases r with
  | ok a s => simp at h
  | error e s => exact ⟨e, rfl⟩

/-- Run a computation that reads no state. -/
def attempt : Except ε α → EStateM ε σ α
  | .ok a => pure a
  | .error e => throw e

@[simp] theorem run_attempt_ok (a : α) (s : σ) :
    (attempt (.ok a) : EStateM ε σ α).run s = .ok a s := rfl

@[simp] theorem run_attempt_error (e : ε) (s : σ) :
    (attempt (.error e) : EStateM ε σ α).run s = .error e s := rfl

/-- A sequence that does not raise splits at the value passed on. -/
theorem run_bind_ok {x : EStateM ε σ α} {f : α → EStateM ε σ β}
    {s s' : σ} {b : β} (h : (x >>= f).run s = .ok b s') :
    ∃ a s₁, x.run s = .ok a s₁ ∧ (f a).run s₁ = .ok b s' := by
  rw [run_bind] at h
  cases hx : x.run s with
  | ok a s₁ => exact ⟨a, s₁, rfl, by simpa [hx] using h⟩
  | error e s₁ => simp [hx] at h

/-- A sequence goes on with the value of its first part, in its
state. -/
theorem run_bind_of_ok {x : EStateM ε σ α} {f : α → EStateM ε σ β}
    {s s' : σ} {a : α} (h : x.run s = .ok a s') :
    (x >>= f).run s = (f a).run s' := by
  rw [run_bind, h]

/-- An attempt that does not raise hands on its value and leaves the
state alone. -/
theorem run_attempt_bind_ok {x : Except ε α} {f : α → EStateM ε σ β}
    {s s' : σ} {b : β} (h : (attempt x >>= f).run s = .ok b s') :
    ∃ a, x = .ok a ∧ (f a).run s = .ok b s' := by
  cases x with
  | ok a => exact ⟨a, rfl, h⟩
  | error e => simp [run_bind] at h

/-- An attempt that raises has left the state alone. -/
theorem run_attempt_bind_error {x : Except ε α} {f : α → EStateM ε σ β}
    {s s' : σ} {e : ε} (h : (attempt x >>= f).run s = .error e s') :
    s' = s ∨ ∃ a, x = .ok a ∧ (f a).run s = .error e s' := by
  cases x with
  | ok a => exact Or.inr ⟨a, rfl, h⟩
  | error e' =>
      cases h
      exact Or.inl rfl

/-- Assigning the whole state does not raise. -/
theorem run_set_bind (t : σ) (f : PUnit → EStateM ε σ β) (s : σ) :
    (EStateM.set t >>= f).run s = (f ⟨⟩).run t := rfl

/-- Reading the state changes nothing. -/
theorem run_get_bind (f : σ → EStateM ε σ β) (s : σ) :
    (get >>= f).run s = (f s).run s := rfl

/-- An assignment does not raise. -/
theorem run_modify_bind (g : σ → σ) (f : Unit → EStateM ε σ β) (s : σ) :
    (modify g >>= f).run s = (f ()).run (g s) := rfl

-- ============================================================= lockstep

/-- Two results of one kind, with one value or exception, in related
states. -/
def Result.Alike (R : σ → τ → Prop) :
    Result ε σ α → Result ε τ α → Prop
  | .ok a s, .ok b t => a = b ∧ R s t
  | .error e s, .error e' t => e = e' ∧ R s t
  | _, _ => False

/-- Whichever way two results ended, their states are related. -/
theorem Result.Alike.state {R : σ → τ → Prop} {r : Result ε σ α}
    {r' : Result ε τ α} (h : r.Alike R r') : R r.state r'.state := by
  cases r with
  | ok a s =>
      cases r' with
      | ok b t => exact h.2
      | error e t => exact h.elim
  | error e s =>
      cases r' with
      | ok b t => exact h.elim
      | error e' t => exact h.2

/-- Two programs end the same way, in related states. -/
def Lockstep (R : σ → τ → Prop) (x : EStateM ε σ α) (y : EStateM ε τ α) :
    Prop :=
  ∀ s t, R s t → (x.run s).Alike R (y.run t)

/-- Two programs end in related states, however each of them ends. -/
def Tracks (R : σ → τ → Prop) (x : EStateM ε σ α) (y : EStateM ε τ α) :
    Prop :=
  ∀ s t, R s t → R (x.run s).state (y.run t).state

section Lockstep

variable {R : σ → τ → Prop}

/-- Returning one value on both sides. -/
theorem Lockstep.of_pure (a : α) :
    Lockstep R (pure a : EStateM ε σ α) (pure a : EStateM ε τ α) :=
  fun _ _ h => ⟨rfl, h⟩

/-- Raising one exception on both sides. -/
theorem Lockstep.of_throw (e : ε) :
    Lockstep R (throw e : EStateM ε σ α) (throw e : EStateM ε τ α) :=
  fun _ _ h => ⟨rfl, h⟩

/-- An expression that reads no state gives the same on both sides. -/
theorem Lockstep.of_attempt (x : Except ε α) :
    Lockstep R (attempt x : EStateM ε σ α) (attempt x : EStateM ε τ α) := by
  cases x with
  | ok a => exact Lockstep.of_pure a
  | error e => exact Lockstep.of_throw e

/-- Assignments that keep the relation. -/
theorem Lockstep.of_modify {f : σ → σ} {g : τ → τ}
    (h : ∀ s t, R s t → R (f s) (g t)) :
    Lockstep R (modify f : EStateM ε σ Unit)
      (modify g : EStateM ε τ Unit) :=
  fun s t hst => ⟨rfl, h s t hst⟩

/-- A program that reads its state is judged at the states themselves. -/
theorem Lockstep.of_get {f : σ → EStateM ε σ α} {g : τ → EStateM ε τ α}
    (h : ∀ s t, R s t → ((f s).run s).Alike R ((g t).run t)) :
    Lockstep R (get >>= f) (get >>= g) := h

/-- Programs in lockstep, one after the other: the values passed on are
equal, so the continuations need to agree at one value only. -/
theorem Lockstep.bind {x : EStateM ε σ α} {y : EStateM ε τ α}
    {f : α → EStateM ε σ β} {g : α → EStateM ε τ β}
    (hxy : Lockstep R x y) (hfg : ∀ a, Lockstep R (f a) (g a)) :
    Lockstep R (x >>= f) (y >>= g) := by
  intro s t hst
  have h := hxy s t hst
  rw [run_bind, run_bind]
  cases hx : x.run s with
  | ok a s' =>
      cases hy : y.run t with
      | ok b t' =>
          rw [hx, hy] at h
          obtain ⟨rfl, h'⟩ := h
          exact hfg a s' t' h'
      | error e t' => rw [hx, hy] at h; exact h.elim
  | error e s' =>
      cases hy : y.run t with
      | ok b t' => rw [hx, hy] at h; exact h.elim
      | error e' t' => rw [hx, hy] at h; exact h

/-- Programs in lockstep track each other. -/
theorem Lockstep.tracks {x : EStateM ε σ α} {y : EStateM ε τ α}
    (h : Lockstep R x y) : Tracks R x y :=
  fun s t hst => (h s t hst).state

/-- Programs in lockstep, continued by programs that only track each
other, track each other. -/
theorem Lockstep.tracks_bind {x : EStateM ε σ α} {y : EStateM ε τ α}
    {f : α → EStateM ε σ β} {g : α → EStateM ε τ β}
    (hxy : Lockstep R x y) (hfg : ∀ a, Tracks R (f a) (g a)) :
    Tracks R (x >>= f) (y >>= g) := by
  intro s t hst
  have h := hxy s t hst
  rw [run_bind, run_bind]
  cases hx : x.run s with
  | ok a s' =>
      cases hy : y.run t with
      | ok b t' =>
          rw [hx, hy] at h
          obtain ⟨rfl, h'⟩ := h
          exact hfg a s' t' h'
      | error e t' => rw [hx, hy] at h; exact h.elim
  | error e s' =>
      cases hy : y.run t with
      | ok b t' => rw [hx, hy] at h; exact h.elim
      | error e' t' => rw [hx, hy] at h; exact h.2

end Lockstep

-- =========================================================== simulation

/-- Where `x` does not raise, `y` does not either: it ends with the same
value, in a related state. -/
def Simulates (R : σ → τ → Prop) (x : EStateM ε σ α) (y : EStateM ε τ α) :
    Prop :=
  ∀ s t, R s t → ∀ a s', x.run s = .ok a s' →
    ∃ t', y.run t = .ok a t' ∧ R s' t'

section Simulates

variable {R : σ → τ → Prop}

/-- Returning one value on both sides. -/
theorem Simulates.of_pure (a : α) :
    Simulates R (pure a : EStateM ε σ α) (pure a : EStateM ε τ α) := by
  intro s t h b s' hrun
  obtain ⟨rfl, rfl⟩ := Result.ok.inj hrun
  exact ⟨t, rfl, h⟩

/-- A program that raises is simulated by any; this one raises as
well. -/
theorem Simulates.of_throw (e : ε) :
    Simulates R (throw e : EStateM ε σ α) (throw e : EStateM ε τ α) := by
  intro s t _ a s' hrun
  cases hrun

/-- An expression that reads no state either raises on both sides or
gives one value. -/
theorem Simulates.of_attempt (x : Except ε α) :
    Simulates R (attempt x : EStateM ε σ α) (attempt x : EStateM ε τ α) := by
  cases x with
  | ok a => exact Simulates.of_pure a
  | error e => exact Simulates.of_throw e

/-- Assignments that keep the relation. -/
theorem Simulates.of_modify {f : σ → σ} {g : τ → τ}
    (h : ∀ s t, R s t → R (f s) (g t)) :
    Simulates R (modify f : EStateM ε σ Unit)
      (modify g : EStateM ε τ Unit) := by
  intro s t hst a s' hrun
  obtain ⟨rfl, rfl⟩ := Result.ok.inj hrun
  exact ⟨g t, rfl, h s t hst⟩

/-- Simulations, one after the other. -/
theorem Simulates.bind {x : EStateM ε σ α} {y : EStateM ε τ α}
    {f : α → EStateM ε σ β} {g : α → EStateM ε τ β}
    (hxy : Simulates R x y) (hfg : ∀ a, Simulates R (f a) (g a)) :
    Simulates R (x >>= f) (y >>= g) := by
  intro s t hst b s' hrun
  obtain ⟨a, s₁, hx, hf⟩ := run_bind_ok hrun
  obtain ⟨t₁, hy, hst₁⟩ := hxy s t hst a s₁ hx
  obtain ⟨t', hg, hst'⟩ := hfg a s₁ t₁ hst₁ b s' hf
  exact ⟨t', (run_bind_of_ok hy).trans hg, hst'⟩

end Simulates

/-- A loop that raises has run the elements before the one that does. By
induction on the elements: the first raises, or the rest does. -/
theorem run_forM_error {f : α → EStateM ε σ PUnit} {as : List α} {e : ε}
    {s s' : σ} (h : (as.forM f).run s = .error e s') :
    ∃ pre a rest s₁, as = pre ++ a :: rest
      ∧ (pre.forM f).run s = .ok ⟨⟩ s₁ ∧ (f a).run s₁ = .error e s' := by
  induction as generalizing s with
  | nil => cases h
  | cons a as ih =>
      have hcons : (f a >>= fun _ => as.forM f).run s = .error e s' := h
      rw [run_bind] at hcons
      cases hrun : (f a).run s with
      | error e' s₁ =>
          rw [hrun] at hcons
          exact ⟨[], a, as, s, rfl, rfl, hrun.trans hcons⟩
      | ok u s₁ =>
          rw [hrun] at hcons
          obtain ⟨pre, b, rest, s₂, rfl, hpre, hb⟩ := ih hcons
          exact ⟨a :: pre, b, rest, s₂, rfl, (run_bind_of_ok hrun).trans hpre,
            hb⟩

/-- A loop goes on where its first elements leave the state. -/
theorem run_forM_append {f : α → EStateM ε σ PUnit} {as bs : List α}
    {s s' : σ} (h : (as.forM f).run s = .ok ⟨⟩ s') :
    ((as ++ bs).forM f).run s = (bs.forM f).run s' := by
  induction as generalizing s with
  | nil =>
      obtain ⟨-, rfl⟩ := Result.ok.inj h
      rfl
  | cons a as ih =>
      obtain ⟨⟨⟩, s₁, ha, has⟩ := run_bind_ok h
      exact (run_bind_of_ok ha).trans (ih has)

/-- The third list is made of the first two, each in its own order. -/
inductive Interleave : List α → List α → List α → Prop
  | nil : Interleave [] [] []
  | left {a : α} {as bs cs : List α} (h : Interleave as bs cs) :
      Interleave (a :: as) bs (a :: cs)
  | right {b : α} {as bs cs : List α} (h : Interleave as bs cs) :
      Interleave as (b :: bs) (b :: cs)

/-- What the third list holds comes from one of the others. -/
theorem Interleave.mem {as bs cs : List α} (h : Interleave as bs cs)
    {c : α} : c ∈ cs → c ∈ as ∨ c ∈ bs := by
  induction h with
  | nil => exact Or.inl
  | left h ih =>
      intro hc
      rcases List.mem_cons.mp hc with rfl | hc
      · exact Or.inl List.mem_cons_self
      · exact (ih hc).imp_left (List.mem_cons_of_mem _)
  | right h ih =>
      intro hc
      rcases List.mem_cons.mp hc with rfl | hc
      · exact Or.inr List.mem_cons_self
      · exact (ih hc).imp_right (List.mem_cons_of_mem _)

/-- A list is made of itself and nothing. -/
theorem Interleave.alone : ∀ as : List α, Interleave as [] as
  | [] => .nil
  | _ :: as => .left (Interleave.alone as)

/-- The commands of two lists, run in an interleaved order: a relation
between the state they share and the states each list has when it is run
alone is kept, when each command keeps it. By induction on the
interleaving, one case for the list that the next command is of. -/
theorem Interleave.run {R : σ → σ → σ → Prop}
    {step : α → EStateM ε σ PUnit} {as bs cs : List α}
    (h : Interleave as bs cs)
    (hleft : ∀ a ∈ as, ∀ u,
      Simulates (fun t s => R s t u) (step a) (step a))
    (hright : ∀ b ∈ bs, ∀ t,
      Simulates (fun u s => R s t u) (step b) (step b))
    {s t u t' u' : σ} (hR : R s t u)
    (ht : (as.forM step).run t = .ok ⟨⟩ t')
    (hu : (bs.forM step).run u = .ok ⟨⟩ u') :
    ∃ s', (cs.forM step).run s = .ok ⟨⟩ s' ∧ R s' t' u' := by
  induction h generalizing s t u with
  | nil =>
      obtain ⟨-, rfl⟩ := Result.ok.inj ht
      obtain ⟨-, rfl⟩ := Result.ok.inj hu
      exact ⟨s, rfl, hR⟩
  | left h ih =>
      obtain ⟨ha, has⟩ := List.forall_mem_cons.mp hleft
      obtain ⟨⟨⟩, t₁, hstep, hrest⟩ := run_bind_ok ht
      obtain ⟨s₁, hs₁, hR₁⟩ := ha u t s hR ⟨⟩ t₁ hstep
      obtain ⟨s', hs', hR'⟩ := ih has hright hR₁ hrest hu
      exact ⟨s', (run_bind_of_ok hs₁).trans hs', hR'⟩
  | right h ih =>
      obtain ⟨hb, hbs⟩ := List.forall_mem_cons.mp hright
      obtain ⟨⟨⟩, u₁, hstep, hrest⟩ := run_bind_ok hu
      obtain ⟨s₁, hs₁, hR₁⟩ := hb t u s hR ⟨⟩ u₁ hstep
      obtain ⟨s', hs', hR'⟩ := ih hleft hbs hR₁ ht hrest
      exact ⟨s', (run_bind_of_ok hs₁).trans hs', hR'⟩

-- ================================================================ frame

/-- The projection `π` of the state survives the program. -/
def Frame (π : σ → β) (x : EStateM ε σ α) : Prop :=
  ∀ s, π (x.run s).state = π s

/-- A program that raises has left the projection alone. -/
def Commits (π : σ → β) (x : EStateM ε σ α) : Prop :=
  ∀ s, (x.run s).isOk = false → π (x.run s).state = π s

section Frame

variable {π : σ → τ} {x : EStateM ε σ α} {f : α → EStateM ε σ β}

/-- Returning touches nothing. -/
theorem Frame.of_pure (a : α) : Frame π (pure a : EStateM ε σ α) :=
  fun _ => rfl

/-- Nor does raising. -/
theorem Frame.of_throw (e : ε) : Frame π (throw e : EStateM ε σ α) :=
  fun _ => rfl

/-- Nor does an expression that reads no state. -/
theorem Frame.of_attempt (x : Except ε α) :
    Frame π (attempt x : EStateM ε σ α) := by
  cases x with
  | ok a => exact Frame.of_pure a
  | error e => exact Frame.of_throw e

/-- An assignment that leaves the projection. -/
theorem Frame.of_modify {g : σ → σ} (h : ∀ s, π (g s) = π s) :
    Frame π (modify g : EStateM ε σ Unit) :=
  fun s => h s

/-- Framed programs, one after the other. -/
theorem Frame.bind (hx : Frame π x) (hf : ∀ a, Frame π (f a)) :
    Frame π (x >>= f) := by
  intro s
  have h := hx s
  rw [run_bind]
  cases hrun : x.run s with
  | ok a s' =>
      rw [hrun] at h
      exact (hf a s').trans h
  | error e s' =>
      rw [hrun] at h
      exact h

/-- A framed program leaves the projection however it ends, and so when
it raises. -/
theorem Frame.commits (hx : Frame π x) : Commits π x := fun s _ => hx s

/-- A framed program may come before one that commits. -/
theorem Frame.commits_bind (hx : Frame π x) (hf : ∀ a, Commits π (f a)) :
    Commits π (x >>= f) := by
  intro s
  have h := hx s
  rw [run_bind]
  cases hrun : x.run s with
  | ok a s' =>
      rw [hrun] at h
      exact fun herr => (hf a s' herr).trans h
  | error e s' =>
      rw [hrun] at h
      exact fun _ => h

end Frame

-- ============================================================ invariants

/-- The invariant survives the program, raise or not. -/
def Preserves (I : σ → Prop) (x : EStateM ε σ α) : Prop :=
  ∀ s, I s → I (x.run s).state

section Preserves

variable {I : σ → Prop} {x : EStateM ε σ α} {f : α → EStateM ε σ β}

/-- Returning keeps every invariant. -/
theorem Preserves.of_pure (a : α) :
    Preserves I (pure a : EStateM ε σ α) := fun _ h => h

/-- So does raising. -/
theorem Preserves.of_throw (e : ε) :
    Preserves I (throw e : EStateM ε σ α) := fun _ h => h

/-- So does an expression that reads no state. -/
theorem Preserves.of_attempt (x : Except ε α) :
    Preserves I (attempt x : EStateM ε σ α) := by
  cases x with
  | ok a => exact Preserves.of_pure a
  | error e => exact Preserves.of_throw e

/-- What follows an attempt may use what it gave. -/
theorem Preserves.of_attempt_bind {x : Except ε α}
    (h : ∀ a, x = .ok a → Preserves I (f a)) :
    Preserves I (attempt x >>= f) := by
  cases x with
  | ok a => exact h a rfl
  | error e => exact Preserves.of_throw e

/-- An assignment that keeps the invariant. -/
theorem Preserves.of_modify {g : σ → σ} (h : ∀ s, I s → I (g s)) :
    Preserves I (modify g : EStateM ε σ Unit) := h

/-- Programs that keep the invariant, one after the other: the second
starts where the first ended, and is not run when the first raised. -/
theorem Preserves.bind (hx : Preserves I x) (hf : ∀ a, Preserves I (f a)) :
    Preserves I (x >>= f) := by
  intro s hs
  have h := hx s hs
  rw [run_bind]
  cases hrun : x.run s with
  | ok a s' =>
      rw [hrun] at h
      exact hf a s' h
  | error e s' =>
      rw [hrun] at h
      exact h

/-- A program that reads its state is judged at the state itself. -/
theorem Preserves.of_get {f : σ → EStateM ε σ α}
    (h : ∀ s, I s → I ((f s).run s).state) : Preserves I (get >>= f) := by
  intro s hs
  rw [run_get_bind]
  exact h s hs

end Preserves

end EStateM
