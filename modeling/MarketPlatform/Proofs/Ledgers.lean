/-
The two ledgers of lost trades.

The tracker keeps totals of its own next to those of `Counters`, and the
two are not the same. A match is entered in both alike: its observation
is counted in the tracker by `observe` and in the counters by
`countObservation`.

A heartbeat that is ahead is not. The handler counts every id from the
baseline to the heartbeat's own, which no message brought either. Then
it moves the baseline on by observing the heartbeat's id, and the
tracker, which takes an observed id as received, counts only the ids
before it. So each such heartbeat leaves the tracker one lost id behind;
and one gap behind when the heartbeat is ahead by exactly one, because
then there is no id in between and the tracker sees none missing.

# The invariant

`Reconciled h ones` states the three differences: the lost ids differ by
the heartbeats that were ahead, the gaps by those that were ahead by
one, and the duplicates not at all. A match keeps it, because it adds
the same to both ledgers (`Reconciled.tracked`), and a heartbeat keeps
it with its own contribution (`Reconciled.heartbeatTracked`).
`aheadByOne` counts the second kind along a run, each heartbeat against
the baseline at its own place, and `ledgers_reconcile` is the induction
over the calls.

Nothing in the source promises that the ledgers agree; the law says by
how much they differ.
-/
import MarketPlatform.Proofs.LossAccounting

namespace MarketPlatform.Consumer

open Lib EStateM

-- ============================================================ one id

namespace ContinuityTracker

/-- An id ahead of the baseline is missed by the ids between the two. -/
theorem observe_ahead {t : ContinuityTracker} {p : String} {v last : Int}
    (hlast : t.last p = some last) (hv : last < v) :
    (t.observe p v).1.gapsTotal
        = t.gapsTotal + (if v - last = 1 then 0 else 1)
      ∧ (t.observe p v).1.messagesLostTotal
        = t.messagesLostTotal + (v - last - 1)
      ∧ (t.observe p v).1.duplicatesTotal = t.duplicatesTotal := by
  have hverdict : (t.observe p v).2
      = if v - last - 1 > 0 then ⟨p, v, .gap, v - last - 1⟩
        else ⟨p, v, .inOrder, 0⟩ := by
    rw [observation_eq, hlast]
    exact if_neg (not_le.mpr hv)
  obtain ⟨hgaps, hlost, hduplicates⟩ := t.observe_totals p v
  by_cases hone : v - last = 1
  · have hnext : ¬ v - last - 1 > 0 := by omega
    rw [if_neg hnext] at hverdict
    simp only [hverdict] at hgaps hlost hduplicates
    rw [if_pos hone]
    refine ⟨hgaps, ?_, by simpa using hduplicates⟩
    rw [hlost, hone]
    rfl
  · have hgap : v - last - 1 > 0 := by omega
    rw [if_pos hgap] at hverdict
    simp only [hverdict] at hgaps hlost hduplicates
    rw [if_neg hone]
    exact ⟨hgaps, hlost, by simpa using hduplicates⟩

end ContinuityTracker

-- ========================================================= the two ledgers

namespace MessageHandler

theorem countObservation_totals (c : Counters) (o : Observation) :
    (countObservation c o).sequenceGapsTotal = c.sequenceGapsTotal
        + (if o.continuity = .gap then 1 else 0)
      ∧ (countObservation c o).messagesLostTotal = c.messagesLostTotal
        + (if o.continuity = .gap then o.missing else 0)
      ∧ (countObservation c o).duplicatesTotal = c.duplicatesTotal
        + (if o.continuity = .duplicate then 1 else 0)
      ∧ (countObservation c o).heartbeatDetectedGapsTotal
        = c.heartbeatDetectedGapsTotal := by
  unfold countObservation
  cases o.continuity <;> simp

/-- The tracker is one lost id behind for each heartbeat that was ahead,
and one gap behind for each of those that was ahead by one. -/
structure Reconciled (h : MessageHandler) (ones : Int) : Prop where
  lost : h.continuity.messagesLostTotal
      + h.counters.heartbeatDetectedGapsTotal = h.counters.messagesLostTotal
  gaps : h.continuity.gapsTotal + ones
    = h.counters.sequenceGapsTotal + h.counters.heartbeatDetectedGapsTotal
  duplicates : h.continuity.duplicatesTotal = h.counters.duplicatesTotal

variable {h h' : MessageHandler} {ones : Int}

theorem Reconciled.tracked (hk : Reconciled h ones) (p : String)
    (v : Int) : Reconciled (h.tracked p v) ones := by
  obtain ⟨hgaps, hlost, hdups⟩ := h.continuity.observe_totals p v
  obtain ⟨hgaps', hlost', hdups', hbeats⟩ :=
    countObservation_totals h.counters (h.continuity.observe p v).2
  have hk₁ := hk.lost
  have hk₂ := hk.gaps
  have hk₃ := hk.duplicates
  constructor
  · show (h.continuity.observe p v).1.messagesLostTotal
      + (countObservation _ _).heartbeatDetectedGapsTotal
      = (countObservation _ _).messagesLostTotal
    omega
  · show (h.continuity.observe p v).1.gapsTotal + ones
      = (countObservation _ _).sequenceGapsTotal
        + (countObservation _ _).heartbeatDetectedGapsTotal
    omega
  · show (h.continuity.observe p v).1.duplicatesTotal
      = (countObservation _ _).duplicatesTotal
    omega

/-- How far a heartbeat of an id is ahead of the baseline. -/
def lead (h : MessageHandler) (p : String) (v : Int) : Int :=
  match h.continuity.lastSeen p with
  | some seen => v - seen
  | none => 0

/-- A heartbeat, and what it adds to the difference. A product without a
baseline and a heartbeat that is not ahead change neither ledger; one
that is ahead is observed by the tracker (`observe_ahead`) and counted
by the handler. -/
theorem Reconciled.heartbeatTracked (hk : Reconciled h ones) (p : String)
    (v : Int) :
    Reconciled (h.heartbeatTracked p v)
      (ones + if h.lead p v = 1 then 1 else 0) := by
  have hk₁ := hk.lost
  have hk₂ := hk.gaps
  have hk₃ := hk.duplicates
  unfold lead MessageHandler.heartbeatTracked ContinuityTracker.lastSeen
  cases hseen : h.continuity.last p with
  | none => simpa using hk
  | some seen =>
      dsimp only
      by_cases hv : v > seen
      · obtain ⟨hgaps, hlost, hdups⟩ :=
          ContinuityTracker.observe_ahead hseen hv
        rw [if_pos hv]
        constructor
        · show (h.continuity.observe p v).1.messagesLostTotal
            + (h.counters.heartbeatDetectedGapsTotal + 1)
            = h.counters.messagesLostTotal + (v - seen)
          omega
        · show (h.continuity.observe p v).1.gapsTotal
            + (ones + if v - seen = 1 then 1 else 0)
            = h.counters.sequenceGapsTotal
              + (h.counters.heartbeatDetectedGapsTotal + 1)
          omega
        · exact hdups.trans hk₃
      · rw [if_neg hv, if_neg (by omega), Int.add_zero]
        exact hk

-- ================================================================= the runs

/-- How far a call is ahead of what its product has seen; only a heartbeat
is. -/
def aheadBy (h : MessageHandler) : Call → Int
  | .handle msg t =>
      match typeOf msg, heartbeatOf msg t with
      | .heartbeat, .ok beat => h.lead beat.productId beat.lastTradeId
      | _, _ => 0
  | .onDisconnect => 0

/-- How many calls are ahead by one, each where it is made. -/
def aheadByOne (h : MessageHandler) : List Call → Int
  | [] => 0
  | c :: cs => (if h.aheadBy c = 1 then 1 else 0)
      + aheadByOne ((call c).run h).state cs

theorem aheadBy_of_type {msg : Json} {t : Int}
    (htype : typeOf msg ≠ .heartbeat) : h.aheadBy (.handle msg t) = 0 := by
  rw [aheadBy]
  cases hof : typeOf msg with
  | heartbeat => exact absurd hof htype
  | _ => rfl

/-- Only a heartbeat is ahead. -/
theorem Reconciled.of_type {msg : Json} {t : Int}
    (hk : Reconciled h' ones) (htype : typeOf msg ≠ .heartbeat) :
    Reconciled h' (ones + if h.aheadBy (.handle msg t) = 1 then 1 else 0)
    := by
  rw [aheadBy_of_type htype, if_neg (by decide), Int.add_zero]
  exact hk

/-- A message that is handled keeps the ledgers reconciled, with what a
heartbeat adds. Books, lags and publishing are in neither ledger. -/
theorem Reconciled.handle (hk : Reconciled h ones) {msg : Json} {t : Int}
    (hrun : (handle msg t).run h = .ok () h') :
    Reconciled h' (ones + if h.aheadBy (.handle msg t) = 1 then 1 else 0)
    := by
  cases handle_ok hrun with
  | trade trade lag type of run =>
      obtain ⟨rfl, -⟩ := run_publish_ok run
      have hk' : Reconciled (h.withCounters (·.recordMessage "trades")) ones :=
        ⟨hk.lost, hk.gaps, hk.duplicates⟩
      have htracked := hk'.tracked trade.productId trade.tradeId
      apply Reconciled.of_type _ (by simp [type])
      exact ⟨htracked.lost, htracked.gaps, htracked.duplicates⟩
  | snapshot s b b' type of book applied run =>
      obtain ⟨rfl, -⟩ := run_publish_ok run
      apply Reconciled.of_type _ (by simp [type])
      exact ⟨hk.lost, hk.gaps, hk.duplicates⟩
  | update u b b' type of book applied run =>
      obtain ⟨rfl, -⟩ := run_publish_ok run
      apply Reconciled.of_type _ (by simp [type])
      unfold crossChecked
      split
      · exact ⟨hk.lost, hk.gaps, hk.duplicates⟩
      · exact ⟨hk.lost, hk.gaps, hk.duplicates⟩
  | heartbeat beat type of run =>
      obtain ⟨rfl, -⟩ := run_publish_ok run
      have hk' : Reconciled
          { h.withCounters (·.recordMessage "heartbeat") with
            lastHeartbeatAt := some t } ones :=
        ⟨hk.lost, hk.gaps, hk.duplicates⟩
      have hbeat := hk'.heartbeatTracked beat.productId beat.lastTradeId
      have hahead : h.aheadBy (.handle msg t)
          = h.lead beat.productId beat.lastTradeId := by
        rw [aheadBy, type, of]
      rw [hahead]
      exact ⟨hbeat.lost, hbeat.gaps, hbeat.duplicates⟩
  | ignored type same =>
      rw [same]
      exact hk.of_type (by simp [type])

theorem Reconciled.call (hk : Reconciled h ones) {c : Call}
    (hrun : (call c).run h = .ok () h') :
    Reconciled h' (ones + if h.aheadBy c = 1 then 1 else 0) := by
  cases c with
  | handle msg t => exact hk.handle hrun
  | onDisconnect =>
      obtain ⟨-, rfl⟩ := Result.ok.inj hrun
      -- the baselines go, the totals stay
      have hzero : h.aheadBy .onDisconnect = 0 := rfl
      rw [hzero, if_neg (by decide), Int.add_zero]
      exact ⟨hk.lost, hk.gaps, hk.duplicates⟩

theorem Reconciled.calls {cs : List Call} (hk : Reconciled h ones)
    (hrun : (calls cs).run h = .ok () h') :
    Reconciled h' (ones + h.aheadByOne cs) := by
  induction cs generalizing h ones with
  | nil =>
      obtain ⟨-, rfl⟩ := Result.ok.inj hrun
      rw [aheadByOne, Int.add_zero]
      exact hk
  | cons c cs ih =>
      obtain ⟨h₁, hc, hcs⟩ := calls_cons_ok hrun
      have hnext := ih (hk.call hc) hcs
      rw [aheadByOne, hc, ← Int.add_assoc]
      exact hnext

/-- After calls that do not raise, the ledgers differ by the heartbeats
that were ahead, and by nothing else. -/
theorem ledgers_reconcile (products : List String) (publisher : Publisher)
    (cs : List Call) (hok : completes products publisher cs = true) :
    Reconciled (after products publisher cs)
      (aheadByOne (new products publisher) cs) := by
  have hnew : Reconciled (new products publisher) 0 := ⟨rfl, rfl, rfl⟩
  have hrun := hnew.calls (calls_of_completes hok)
  rwa [Int.zero_add] at hrun

/-- The heartbeat mentions a trade whose match never came: one lost trade
and one gap in the counters, none in the tracker. -/
theorem heartbeat_parts_the_ledgers :
    completes ["BTC-USD"] RecordingPublisher [btcMatch 10, btcHeartbeat 11]
        = true
      ∧ (after ["BTC-USD"] RecordingPublisher
          [btcMatch 10, btcHeartbeat 11]).counters.messagesLostTotal = 1
      ∧ (after ["BTC-USD"] RecordingPublisher
          [btcMatch 10, btcHeartbeat 11]).continuity.messagesLostTotal = 0
      ∧ (after ["BTC-USD"] RecordingPublisher
          [btcMatch 10, btcHeartbeat 11]).counters.heartbeatDetectedGapsTotal
        = 1
      ∧ (after ["BTC-USD"] RecordingPublisher
          [btcMatch 10, btcHeartbeat 11]).continuity.gapsTotal = 0 := by
  decide +kernel

/-- A gap, heartbeats ahead by one and by two, and a new connection. -/
theorem ledgers_reconcile_beats :
    Reconciled (after ["BTC-USD"] RecordingPublisher
        [btcMatch 10, btcMatch 13, btcHeartbeat 14, btcHeartbeat 16,
          btcMatch 16, .onDisconnect, btcHeartbeat 40])
      1 :=
  ledgers_reconcile ["BTC-USD"] RecordingPublisher
    [btcMatch 10, btcMatch 13, btcHeartbeat 14, btcHeartbeat 16,
      btcMatch 16, .onDisconnect, btcHeartbeat 40] (by decide +kernel)

end MessageHandler

end MarketPlatform.Consumer
