/-
Per-product continuity detection (`consumer/sequence.py`).

# The tracker

The tracker keeps, per product, the highest trade id seen. `observe`
classifies one id against it and is the only operation that moves a
baseline; `resetAll` forgets every baseline and no total. A baseline
never moves back: an id that is not higher is a duplicate, and is not
looked at again.

# What is claimed of an id

The verdicts are relative to the baseline alone. `first` says that the
product has none, as at the start and after a reset, and claims nothing
about what came before; `gap` says how many ids lie between, and
`duplicate` says only that the id is not above the highest one seen,
which an id that comes late and for the first time is as well.

# The lemmas

`observation_eq` gives the verdict by cases on the baseline;
`last_observe` and `observe_totals` say all that one observation does,
the first to the baselines, the second to the totals, which follow what
the observation is reported as. Later proofs use these and do not open
`observe`.
-/
import Mathlib.Data.Int.Notation
import Mathlib.Logic.Function.Basic
import Mathlib.Tactic.Common

namespace MarketPlatform.Consumer

/-- What one observed id means relative to what came before. -/
inductive Continuity where
  | first
  | inOrder
  | gap
  | duplicate
  deriving DecidableEq, Repr

/-- The verdict on a single message. `missing` is positive exactly at a
gap. -/
structure Observation where
  productId : String
  value : Int
  continuity : Continuity
  missing : Int := 0

/-- The highest trade id seen per product, and the tracker's totals. -/
structure ContinuityTracker where
  last : String → Option Int := fun _ => none
  gapsTotal : Int := 0
  messagesLostTotal : Int := 0
  duplicatesTotal : Int := 0

namespace ContinuityTracker

/-- `last_seen(product_id)`. -/
def lastSeen (t : ContinuityTracker) (productId : String) : Option Int :=
  t.last productId

/-- `self._last[product_id] = value`. -/
def setLast (t : ContinuityTracker) (productId : String) (value : Int) :
    ContinuityTracker :=
  { t with
    last := fun p => if p = productId then some value else t.last p }

/-- `observe(product_id, value)`: the tracker after it, and the
verdict. -/
def observe (t : ContinuityTracker) (productId : String) (value : Int) :
    ContinuityTracker × Observation :=
  match t.last productId with
  | none => (t.setLast productId value, ⟨productId, value, .first, 0⟩)
  | some last =>
      if value ≤ last then
        -- a replayed old id must not move the baseline back
        ({ t with duplicatesTotal := t.duplicatesTotal + 1 },
          ⟨productId, value, .duplicate, 0⟩)
      else
        let missing := value - last - 1
        let t := t.setLast productId value
        if missing > 0 then
          ({ t with
              gapsTotal := t.gapsTotal + 1
              messagesLostTotal := t.messagesLostTotal + missing },
            ⟨productId, value, .gap, missing⟩)
        else (t, ⟨productId, value, .inOrder, 0⟩)

/-- Forget one product's baseline. -/
def reset (t : ContinuityTracker) (productId : String) :
    ContinuityTracker :=
  { t with last := fun p => if p = productId then none else t.last p }

/-- `reset_all()`, after a disconnect. -/
def resetAll (t : ContinuityTracker) : ContinuityTracker :=
  { t with last := fun _ => none }

/-- Setting one baseline leaves the others. -/
@[simp] theorem lastSeen_setLast (t : ContinuityTracker) (p q : String)
    (v : Int) :
    (t.setLast p v).lastSeen q = if q = p then some v else t.lastSeen q :=
  rfl

/-- After a reset no product has a baseline. -/
@[simp] theorem lastSeen_resetAll (t : ContinuityTracker) (p : String) :
    t.resetAll.lastSeen p = none := rfl

/-- What `observe` does to the baselines: the observed product's
baseline becomes the larger of itself and the value. By cases on whether
there is a baseline and whether the value is above it. -/
theorem last_observe (t : ContinuityTracker) (p : String) (v : Int) :
    (t.observe p v).1.last
      = Function.update t.last p (some
          (match t.last p with | none => v | some l => max l v)) := by
  funext q
  unfold observe
  cases hp : t.last p with
  | none => simp only [setLast, Function.update_apply]
  | some l =>
      simp only [Function.update_apply]
      split
      case isTrue hle =>
        rw [Int.max_eq_left hle]
        by_cases hq : q = p
        · rw [if_pos hq, hq, hp]
        · rw [if_neg hq]
      case isFalse hlt =>
        rw [Int.max_eq_right (by omega)]
        split <;> rfl

/-- The verdict on an id, which depends on the baseline alone. -/
theorem observation_eq (t : ContinuityTracker) (p : String) (v : Int) :
    (t.observe p v).2 = match t.last p with
      | none => ⟨p, v, .first, 0⟩
      | some last =>
          if v ≤ last then ⟨p, v, .duplicate, 0⟩
          else if v - last - 1 > 0 then ⟨p, v, .gap, v - last - 1⟩
          else ⟨p, v, .inOrder, 0⟩ := by
  unfold observe
  cases t.last p with
  | none => rfl
  | some last =>
      dsimp only
      split
      · rfl
      · split <;> rfl

/-- What one id adds to the tracker's totals is what it is reported as.
One case for each verdict. -/
theorem observe_totals (t : ContinuityTracker) (p : String) (v : Int) :
    (t.observe p v).1.gapsTotal = t.gapsTotal
        + (if (t.observe p v).2.continuity = .gap then 1 else 0)
      ∧ (t.observe p v).1.messagesLostTotal = t.messagesLostTotal
        + (if (t.observe p v).2.continuity = .gap
          then (t.observe p v).2.missing else 0)
      ∧ (t.observe p v).1.duplicatesTotal = t.duplicatesTotal
        + (if (t.observe p v).2.continuity = .duplicate then 1 else 0) := by
  unfold observe
  cases t.last p with
  | none => simp [setLast]
  | some last =>
      by_cases hle : v ≤ last
      · simp only [if_pos hle]
        simp
      · simp only [if_neg hle]
        by_cases hgap : v - last - 1 > 0
        · simp only [if_pos hgap]
          simp [setLast]
        · simp only [if_neg hgap]
          simp [setLast]

end ContinuityTracker

end MarketPlatform.Consumer
