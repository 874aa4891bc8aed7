/-
The pace of connection attempts.

# The backoff

Between two openings the consumer sleeps: the backoff times a factor
drawn from [0.5, 1.5). The backoff doubles with each sleep up to its
bound, and is set back by a connection that succeeds and by nothing else
(`backoff_run`). In particular a connection that is dropped as soon as
it is made sets it back.

# The pace

Over any run the openings are bounded by the time slept and the time
slept by the openings (`openings_paced`): however the exchange refuses
or drops connections, the consumer neither attempts them in a tight loop
nor stays away for hours.

The argument is by potential. At the top of its loop the consumer may
open once without having slept first (`mayOpen`), and everywhere else,
unless it has exited, one sleep may come before the next opening
(`maySleep`). A step pays for what it does: what it adds to the
openings, and what its phase then still allows, is covered by the time
it slept (`Paced.paid`), and the other way round (`Paced.capped`). With
the bounds of the backoff, which every step keeps, the two inequalities
add up over a run (`paced_run`).
-/
import MarketPlatform.Proofs.Connections
import Mathlib.Algebra.Order.Field.Basic
import Mathlib.Tactic.Linarith
import Mathlib.Tactic.Ring

namespace MarketPlatform.Consumer.WebSocketConsumer

variable (config : Config)

-- ================================================================= backoff

/-- The backoff after `n` sleeps since the last success. -/
def backoffAfter : Nat → ℚ
  | 0 => config.backoffInitialS
  | n + 1 => min (config.backoffInitialS * 2 ^ (n + 1)) config.backoffMaxS

/-- The sleeps since the last connection that succeeded, given those
before the step. -/
def sleepsAfter (s : WebSocketConsumer) (n : Nat) : Event → Nat
  | .connected true => if s.phase = .connecting then 0 else n
  | .wake => if s.phase = .backingOff then n + 1 else n
  | _ => n

/-- The sleeps since the last connection that succeeded in a run. -/
def sleeps (s : WebSocketConsumer) (n : Nat) : List Event → Nat
  | [] => n
  | e :: es => sleeps (step config s e).1 (sleepsAfter s n e) es

/-- Doubling the backoff up to its bound. -/
theorem backoffAfter_succ (hmax : 0 ≤ config.backoffMaxS) (n : Nat) :
    min (backoffAfter config n * 2) config.backoffMaxS
      = backoffAfter config (n + 1) := by
  cases n with
  | zero => simp [backoffAfter]
  | succ n =>
      have hbound : config.backoffMaxS ≤ config.backoffMaxS * 2 := by
        linarith
      simp only [backoffAfter]
      rw [min_mul_of_nonneg _ _ (by norm_num : (0 : ℚ) ≤ 2), min_assoc,
        min_eq_right hbound, mul_assoc, ← pow_succ]

/-- A step keeps the backoff at that of the sleeps since the last
success. Only a connection, which sets it to its first value, and the
end of a sleep, which doubles it, touch it. -/
theorem backoff_step (hmax : 0 ≤ config.backoffMaxS) {n : Nat}
    {s : WebSocketConsumer} (e : Event)
    (h : s.backoff = backoffAfter config n) :
    (step config s e).1.backoff
      = backoffAfter config (sleepsAfter s n e) := by
  have hm := moves_step config s e
  generalize (step config s e).1 = s', (step config s e).2 = acts at hm ⊢
  cases hm with
  | idle e unable =>
      have hsame : sleepsAfter s n e = n := by
        cases e with
        | connected ok =>
            have hphase : s.phase ≠ .connecting := by
              intro hphase
              rw [hphase] at unable
              cases unable
            cases ok with
            | true => exact if_neg hphase
            | false => rfl
        | wake =>
            refine if_neg fun hphase => ?_
            rw [hphase] at unable
            cases unable
        | _ => rfl
      rw [hsame, h]
  | connects w phase task => simp [sleepsAfter, phase, backoffAfter]
  | wakes phase =>
      simp only [sleepsAfter, phase, if_true, h]
      exact backoffAfter_succ config hmax n
  | _ => exact h

/-- At every point of a run the backoff is the initial one doubled for each
sleep since the last connection that succeeded, up to the bound. -/
theorem backoff_run (hmax : 0 ≤ config.backoffMaxS)
    (publisher : Publisher) (es : List Event) :
    (run config (new config publisher) es).backoff
      = backoffAfter config (sleeps config (new config publisher) 0 es) := by
  have hrun : ∀ (es : List Event) (s : WebSocketConsumer) (n : Nat),
      s.backoff = backoffAfter config n →
      (run config s es).backoff = backoffAfter config (sleeps config s n es) := by
    intro es
    induction es with
    | nil => exact fun s n h => h
    | cons e es ih =>
        exact fun s n h => ih _ _ (backoff_step config hmax e h)
  exact hrun es _ 0 rfl

/-- A connection that is refused twice, then made and lost. -/
def refusals : List Event :=
  [.enter, .connected false, .unwind, .wake, .enter, .connected false,
    .unwind, .wake, .enter, .connected true, .closed true, .unwind]

theorem backoff_run_refusals :
    (run { products := [] }
        (new { products := [] } RecordingPublisher) (refusals.take 8)).backoff
        = 4
      ∧ (run { products := [] }
        (new { products := [] } RecordingPublisher) refusals).backoff = 1 := by
  constructor
  · rw [backoff_run _ (by decide)]
    decide +kernel
  · rw [backoff_run _ (by decide)]
    decide +kernel

-- ================================================================= pacing

/-- The seconds slept in a step, with the draw of `random.random()`: only
the backoff sleep takes any. -/
def slept (s : WebSocketConsumer) (draw : ℚ) : Event → ℚ
  | .wake => if s.phase = .backingOff then s.backoff * (1 / 2 + draw) else 0
  | _ => 0

/-- The seconds slept in a run whose steps come with their draws. -/
def sleptOver (s : WebSocketConsumer) : List (Event × ℚ) → ℚ
  | [] => 0
  | x :: xs => slept s x.2 x.1 + sleptOver (step config s x.1).1 xs

/-- A step that cannot be made takes no time. -/
theorem slept_of_unable {s : WebSocketConsumer} {e : Event} (draw : ℚ)
    (h : able s.phase e = false) : slept s draw e = 0 := by
  cases e with
  | wake =>
      refine if_neg fun hphase => ?_
      rw [hphase] at h
      cases h
  | _ => rfl

/-- The connection attempts among the acts. -/
def attempts (acts : List Act) : ℚ := acts.countP Act.opens

/-- The attempts of two lists of acts. -/
theorem attempts_append (as bs : List Act) :
    attempts (as ++ bs) = attempts as + attempts bs := by
  simp [attempts, List.countP_append]

/-- The backoff stays between the smaller and the larger of its bounds. -/
structure Bounded (s : WebSocketConsumer) : Prop where
  least : min config.backoffInitialS config.backoffMaxS ≤ s.backoff
  most : s.backoff ≤ max config.backoffInitialS config.backoffMaxS

/-- The shortest backoff sleep there is. -/
def leastSleep : ℚ := min config.backoffInitialS config.backoffMaxS / 2

/-- What no backoff sleep reaches. -/
def mostSleep : ℚ := max config.backoffInitialS config.backoffMaxS * (3 / 2)

/-- The opening that needs no sleep first. -/
def mayOpen : Phase → ℚ
  | .top => 1
  | _ => 0

/-- The sleep that may come before the next opening. -/
def maySleep : Phase → ℚ
  | .top => 0
  | .exited => 0
  | _ => 1

/-- What a step adds to the openings and to the time slept, with what the
phase it ends in still allows. -/
structure Paced (s s' : WebSocketConsumer) (acts : List Act) (seconds : ℚ) :
    Prop where
  bounded : Bounded config s'
  paid : (attempts acts + mayOpen s'.phase) * leastSleep config
    ≤ mayOpen s.phase * leastSleep config + seconds
  capped : seconds + maySleep s'.phase * mostSleep config
    ≤ (maySleep s.phase + attempts acts) * mostSleep config

variable {config}

/-- A step that neither opens nor sleeps. -/
theorem Paced.of_still {s s' : WebSocketConsumer} {acts : List Act}
    (hinit : 0 ≤ config.backoffInitialS) (hmax : 0 ≤ config.backoffMaxS)
    (hbounded : Bounded config s') (hacts : attempts acts = 0)
    (hopen : mayOpen s'.phase ≤ mayOpen s.phase)
    (hsleep : maySleep s'.phase ≤ maySleep s.phase) :
    Paced config s s' acts 0 := by
  have hleast : 0 ≤ leastSleep config :=
    div_nonneg (le_min hinit hmax) (by norm_num)
  have hmost : 0 ≤ mostSleep config :=
    mul_nonneg (hinit.trans (le_max_left _ _)) (by norm_num)
  refine ⟨hbounded, ?_, ?_⟩
  · rw [hacts, zero_add, add_zero]
    exact mul_le_mul_of_nonneg_right hopen hleast
  · rw [hacts, zero_add, add_zero]
    exact mul_le_mul_of_nonneg_right hsleep hmost

/-- Doubling keeps the bounds. -/
theorem Bounded.wake {s s' : WebSocketConsumer} (h : Bounded config s)
    (hinit : 0 ≤ config.backoffInitialS) (hmax : 0 ≤ config.backoffMaxS)
    (hs' : s'.backoff = min (s.backoff * 2) config.backoffMaxS) :
    Bounded config s' := by
  have hbackoff : 0 ≤ s.backoff := (le_min hinit hmax).trans h.least
  have hdouble : s.backoff ≤ s.backoff * 2 := by linarith
  constructor
  · rw [hs']
    exact le_min (h.least.trans hdouble) (min_le_right _ _)
  · rw [hs']
    exact (min_le_right _ _).trans (le_max_right _ _)

/-- One step: an opening is paid for by the sleep before it, and a sleep
is shorter than the most. By cases on the moves; only an opening and the
end of a sleep change anything. -/
theorem paced_step (hinit : 0 ≤ config.backoffInitialS)
    (hmax : 0 ≤ config.backoffMaxS) {s s' : WebSocketConsumer} {e : Event}
    {acts : List Act} (hb : Bounded config s)
    (hm : Moves config s e s' acts) {draw : ℚ} (hdraw : 0 ≤ draw)
    (hone : draw < 1) : Paced config s s' acts (slept s draw e) := by
  have hstill : ∀ t : WebSocketConsumer, t.backoff = s.backoff →
      Bounded config t := fun t ht => ⟨ht ▸ hb.least, ht ▸ hb.most⟩
  cases hm with
  | idle e unable =>
      rw [slept_of_unable draw unable]
      exact .of_still hinit hmax hb rfl le_rfl le_rfl
  | stops => exact .of_still hinit hmax (hstill _ rfl) rfl le_rfl le_rfl
  | returns phase stopping =>
      refine .of_still hinit hmax (hstill _ rfl) rfl ?_ ?_ <;>
        simp [phase, mayOpen, maySleep]
  | opens phase going =>
      refine ⟨hstill _ rfl, ?_, ?_⟩ <;>
        simp [phase, mayOpen, maySleep, slept, attempts, Act.opens]
  | connects w phase task =>
      refine .of_still hinit hmax ⟨min_le_left _ _, le_max_left _ _⟩ rfl ?_ ?_
        <;> simp [phase, mayOpen, maySleep]
  | refused phase =>
      refine .of_still hinit hmax (hstill _ rfl) rfl ?_ ?_ <;>
        simp [phase, mayOpen, maySleep]
  | abandons text now raised w phase =>
      refine .of_still hinit hmax (hstill _ rfl) rfl ?_ ?_ <;>
        simp [phase, mayOpen, maySleep]
  | handles text now message w after phase going decoded goes =>
      refine .of_still hinit hmax (hstill _ rfl) rfl ?_ ?_ <;>
        rw [goes] <;> split <;> simp [phase, mayOpen, maySleep]
  | checks now w acts phase seen =>
      refine .of_still hinit hmax (hstill _ rfl) ?_ ?_ ?_
      · rw [seen]
        split <;> rfl
      · simp [phase, mayOpen]
      · simp [phase, maySleep]
  | closes error w phase =>
      refine .of_still hinit hmax (hstill _ rfl) rfl ?_ ?_ <;>
        simp [phase, mayOpen, maySleep]
  | breaks raised w phase stopping =>
      refine .of_still hinit hmax (hstill _ rfl) rfl ?_ ?_ <;>
        simp [phase, mayOpen, maySleep]
  | ends raised w after phase goes =>
      refine .of_still hinit hmax (hstill _ rfl) rfl ?_ ?_ <;>
        rw [goes] <;> split <;> simp [phase, mayOpen, maySleep]
  | wakes phase =>
      have hbackoff : 0 ≤ s.backoff := (le_min hinit hmax).trans hb.least
      have hslept : slept s draw .wake = s.backoff * (1 / 2 + draw) := by
        simp [slept, phase]
      refine ⟨hb.wake hinit hmax rfl, ?_, ?_⟩
      · rw [hslept]
        have hleast := hb.least
        simp only [phase, mayOpen, attempts, leastSleep, List.countP_nil]
        push_cast
        nlinarith [mul_nonneg hbackoff hdraw]
      · rw [hslept]
        have hmost := hb.most
        simp only [phase, maySleep, attempts, mostSleep, List.countP_nil]
        push_cast
        nlinarith [mul_nonneg hbackoff (sub_nonneg.mpr hone.le)]

/-- The inequalities of the steps, added up over a run. What may be
opened or slept without having been paid for yet is the potential of the
phase, which the sums leave over at the end. -/
theorem paced_run (hinit : 0 ≤ config.backoffInitialS)
    (hmax : 0 ≤ config.backoffMaxS) (xs : List (Event × ℚ))
    (hdraws : ∀ x ∈ xs, 0 ≤ x.2 ∧ x.2 < 1) {s : WebSocketConsumer}
    (hb : Bounded config s) :
    attempts (trace config s (xs.map Prod.fst)) * leastSleep config
        ≤ mayOpen s.phase * leastSleep config + sleptOver config s xs
      ∧ sleptOver config s xs
        ≤ (maySleep s.phase + attempts (trace config s (xs.map Prod.fst)))
          * mostSleep config := by
  have hleast : 0 ≤ leastSleep config :=
    div_nonneg (le_min hinit hmax) (by norm_num)
  have hmost : 0 ≤ mostSleep config :=
    mul_nonneg (hinit.trans (le_max_left _ _)) (by norm_num)
  induction xs generalizing s with
  | nil =>
      have hopen : 0 ≤ mayOpen s.phase := by
        cases s.phase <;> simp [mayOpen]
      have hsleep : 0 ≤ maySleep s.phase := by
        cases s.phase <;> simp [maySleep]
      simp only [List.map_nil, trace, attempts, sleptOver, List.countP_nil,
        Nat.cast_zero, zero_mul, add_zero]
      exact ⟨mul_nonneg hopen hleast, mul_nonneg hsleep hmost⟩
  | cons x xs ih =>
      obtain ⟨⟨hdraw, hone⟩, hdraws⟩ := List.forall_mem_cons.mp hdraws
      have hstep := paced_step hinit hmax hb (moves_step config s x.1)
        hdraw hone
      obtain ⟨hpaid, hcapped⟩ := ih hdraws hstep.bounded
      have hpaid' := hstep.paid
      have hcapped' := hstep.capped
      simp only [List.map_cons, trace, sleptOver, attempts_append]
      exact ⟨by linarith, by linarith⟩

/-- The openings of a run are bounded by the time slept: each after the
first takes at least the shortest sleep. And the time slept is bounded
by the openings: no attempt is followed by more than the longest. The
consumer starts at the top of its loop, with one opening that needs no
sleep and none that may come before it. -/
theorem openings_paced (hinit : 0 ≤ config.backoffInitialS)
    (hmax : 0 ≤ config.backoffMaxS) (publisher : Publisher)
    (xs : List (Event × ℚ)) (hdraws : ∀ x ∈ xs, 0 ≤ x.2 ∧ x.2 < 1) :
    (attempts (trace config (new config publisher) (xs.map Prod.fst)) - 1)
        * leastSleep config
      ≤ sleptOver config (new config publisher) xs
    ∧ sleptOver config (new config publisher) xs
      ≤ attempts (trace config (new config publisher) (xs.map Prod.fst))
        * mostSleep config := by
  have hnew : Bounded config (new config publisher) :=
    ⟨min_le_left _ _, le_max_left _ _⟩
  obtain ⟨hpaid, hcapped⟩ := paced_run hinit hmax xs hdraws hnew
  have hopen : mayOpen (new config publisher).phase = 1 := rfl
  have hsleep : maySleep (new config publisher).phase = 0 := rfl
  rw [hopen] at hpaid
  rw [hsleep] at hcapped
  exact ⟨by linarith, by linarith⟩

theorem openings_paced_refusals :
    (attempts (trace { products := [] }
          (new { products := [] } RecordingPublisher)
          ((refusals.map fun e => (e, (1 / 4 : ℚ))).map Prod.fst)) - 1)
        * leastSleep { products := [] }
      ≤ sleptOver { products := [] }
          (new { products := [] } RecordingPublisher)
          (refusals.map fun e => (e, 1 / 4))
    ∧ sleptOver { products := [] }
          (new { products := [] } RecordingPublisher)
          (refusals.map fun e => (e, 1 / 4))
      ≤ attempts (trace { products := [] }
          (new { products := [] } RecordingPublisher)
          ((refusals.map fun e => (e, (1 / 4 : ℚ))).map Prod.fst))
        * mostSleep { products := [] } := by
  refine openings_paced (by decide) (by decide) _ _ fun x hx => ?_
  obtain ⟨e, -, rfl⟩ := List.mem_map.mp hx
  constructor <;> norm_num

end MarketPlatform.Consumer.WebSocketConsumer
