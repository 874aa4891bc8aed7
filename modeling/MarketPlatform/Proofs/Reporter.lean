/-
What the metrics reporter writes, and when.

`MetricsReporter.flush` takes a snapshot of the counters, skips the
write if the last one is less than ten seconds ago, and writes
otherwise. The time of the last write is a field that starts at zero. No
path of `flush` assigns it, and none clears the samples of the counters;
so no flush changes the reporter at all (`flush_fst`), and only recorded
lags and counts do.

# The spacing of the writes

The guard therefore compares every clock time with what the field
started from, and lets all of them through that are ten seconds past it
(`writeTimes_run`). A fresh reporter's writes are its flushes from ten
seconds after the epoch on, and they are spaced if and only if the
flushes are (`writes_spaced_iff`). Two flushes half a second apart, as at a
shutdown, make two writes (`shutdown_writes_twice`).

# The percentiles of a window

The percentiles that a flush reports are those of every sample kept
since the start (`samples_run`), and not of those since the flush
before. To say that a window's report depends on the window alone, it is
compared with the report of a reporter that starts with the window and
records the same lags. The two agree for every window exactly when no
lag was recorded before it (`percentiles_of_window_iff`): one lag before
a window without any makes a report where the other reporter has none to
make.

The names of the percentiles in the snapshot are told from the other
metrics by their first letter (`ne_lag`).
-/
import MarketPlatform.Consumer.Metrics

namespace MarketPlatform.Consumer.MetricsReporter

-- ============================================================== one call

theorem snapshot_ne_nil (c : Counters) : c.snapshot.isEmpty = false := rfl

/-- No flush changes the reporter. -/
theorem flush_fst (r : MetricsReporter) (force : Bool) (now : ℚ)
    (raised : Option String) : (r.flush force now raised).1 = r := by
  unfold flush
  dsimp only
  split
  · rfl
  · split
    · rfl
    · split
      · rfl
      · rfl

/-- No call changes when the reporter last wrote. -/
theorem lastWriteAt_step (r : MetricsReporter) (call : Call) :
    (r.step call).1.lastWriteAt = r.lastWriteAt
      ∧ (r.step call).1.enabled = r.enabled := by
  cases call with
  | recordLag lagMs => exact ⟨rfl, rfl⟩
  | count tallies => exact ⟨rfl, rfl⟩
  | flush force now raised =>
      have h : (r.step (.flush force now raised)).1 = r := flush_fst ..
      rw [h]
      exact ⟨rfl, rfl⟩

-- ================================================================ writes

/-- The times of the calls that reach `_write`. -/
def writeTimes (flushes : List (ℚ × Flushed)) : List ℚ :=
  flushes.filterMap fun
    | (now, .written ..) => some now
    | _ => none

/-- The times at which `flush` is called. -/
def flushTimes (calls : List Call) : List ℚ :=
  calls.filterMap fun
    | .flush _ now _ => some now
    | _ => none

/-- No flush is forced. -/
def Unforced (calls : List Call) : Prop :=
  ∀ now raised, Call.flush true now raised ∉ calls

/-- Any two times are at least `MIN_WRITE_INTERVAL_S` apart. -/
def Spaced (times : List ℚ) : Prop :=
  times.Pairwise fun t t' => minWriteIntervalS ≤ |t' - t|

/-- An unforced flush writes once the interval has passed since the last
write that the reporter remembers. -/
theorem writeTimes_flush {r : MetricsReporter} (henabled : r.enabled = true)
    (now : ℚ) (raised : Option String) :
    writeTimes [(now, (r.flush false now raised).2)]
      = if r.lastWriteAt + minWriteIntervalS ≤ now then [now] else [] := by
  unfold flush
  dsimp only
  rw [snapshot_ne_nil, henabled]
  by_cases h : r.lastWriteAt + minWriteIntervalS ≤ now
  · have hlate : ¬ now - r.lastWriteAt < minWriteIntervalS :=
      not_lt.mpr (le_sub_iff_add_le'.mpr h)
    rw [if_pos h]
    simp [writeTimes, hlate]
  · have hsoon : now - r.lastWriteAt < minWriteIntervalS :=
      sub_lt_iff_lt_add'.mpr (not_le.mp h)
    rw [if_neg h]
    simp [writeTimes, hsoon]

/-- A reporter writes whenever it is flushed, from the interval on. -/
theorem writeTimes_run {r : MetricsReporter} (henabled : r.enabled = true)
    {calls : List Call} (hunforced : Unforced calls) :
    writeTimes (r.run calls).2 = (flushTimes calls).filter fun now =>
      r.lastWriteAt + minWriteIntervalS ≤ now := by
  induction calls generalizing r with
  | nil => rfl
  | cons call calls ih =>
      have hrest : Unforced calls := fun now raised hmem =>
        hunforced now raised (List.mem_cons_of_mem _ hmem)
      obtain ⟨hlast, henabled'⟩ := lastWriteAt_step r call
      have hwrites := ih (henabled'.trans henabled) hrest
      rw [hlast] at hwrites
      show writeTimes ((r.step call).2 ++ ((r.step call).1.run calls).2) = _
      unfold writeTimes flushTimes at hwrites ⊢
      rw [List.filterMap_append, hwrites]
      cases call with
      | recordLag lagMs => rfl
      | count tallies => rfl
      | flush force now raised =>
          cases force with
          | true => exact absurd List.mem_cons_self (hunforced now raised)
          | false =>
              have hone := writeTimes_flush henabled now raised
              unfold writeTimes at hone
              show List.filterMap _ [(now, (r.flush false now raised).2)]
                ++ _ = _
              rw [hone]
              by_cases h : r.lastWriteAt + minWriteIntervalS ≤ now
              · rw [if_pos h]
                simp [h]
              · rw [if_neg h]
                simp [h]

/-- The writes of a fresh reporter are spaced if and only if its flushes
are, but for those within ten seconds of the epoch. -/
theorem writes_spaced_iff (projectId : String) (hproject : projectId ≠ "")
    (calls : List Call) (hunforced : Unforced calls) :
    Spaced (writeTimes ((new projectId true).run calls).2)
      ↔ Spaced ((flushTimes calls).filter fun now =>
        minWriteIntervalS ≤ now) := by
  have henabled : (new projectId true).enabled = true := by
    simp [new, hproject]
  have hlast : (new projectId true).lastWriteAt = 0 := rfl
  rw [writeTimes_run henabled hunforced, hlast]
  simp only [zero_add]

/-- The flusher wakes on the stop, and `main` flushes once more. -/
def shutdown : List Call :=
  [.flush false 1700000000 none, .flush false (1700000000 + 1 / 2) none]

theorem unforced_shutdown : Unforced shutdown := by
  intro now raised h
  simp [shutdown] at h

theorem shutdown_writes_twice :
    Unforced shutdown
      ∧ (flushTimes shutdown).Pairwise (fun t t' => t ≤ t')
      ∧ writeTimes ((new "market" true).run shutdown).2
        = [1700000000, 1700000000 + 1 / 2]
      ∧ ¬ Spaced (writeTimes ((new "market" true).run shutdown).2) := by
  have hwrites : writeTimes ((new "market" true).run shutdown).2
      = [1700000000, 1700000000 + 1 / 2] := by
    rw [writeTimes_run rfl unforced_shutdown]
    decide +kernel
  refine ⟨unforced_shutdown, by decide +kernel, hwrites, ?_⟩
  rw [hwrites]
  unfold Spaced minWriteIntervalS
  decide +kernel

/-- A minute of the flusher. -/
def quietMinute : List Call :=
  [.flush false 1700000000 none, .recordLag 5, .flush false 1700000060 none]

theorem writes_spaced_iff_quiet :
    Spaced (writeTimes ((new "market" true).run quietMinute).2) := by
  refine (writes_spaced_iff "market" (by decide) quietMinute ?_).mpr ?_
  · intro now raised h
    simp [quietMinute] at h
  · unfold Spaced minWriteIntervalS
    decide +kernel

-- =========================================================== percentiles

/-- The lags recorded by a list of calls. -/
def lags (calls : List Call) : List ℚ :=
  calls.filterMap fun
    | .recordLag lagMs => some lagMs
    | _ => none

/-- The samples that are kept when one more is recorded. -/
def keep (samples : List ℚ) (lagMs : ℚ) : List ℚ :=
  let c : Counters := { ingestLagSamplesMs := samples }
  (c.recordLag lagMs).ingestLagSamplesMs

theorem keep_ne_nil (samples : List ℚ) (lagMs : ℚ) :
    keep samples lagMs ≠ [] := by
  unfold keep Counters.recordLag
  dsimp only
  split
  · next hlen =>
      intro hnil
      have hdrop := List.drop_eq_nil_iff.mp hnil
      omega
  · exact List.append_ne_nil_of_right_ne_nil _ (List.cons_ne_nil _ _)

theorem foldl_keep_eq_nil_iff {samples new : List ℚ} :
    new.foldl keep samples = [] ↔ samples = [] ∧ new = [] := by
  induction new generalizing samples with
  | nil => simp
  | cons lagMs new ih =>
      rw [List.foldl_cons, ih]
      simp [keep_ne_nil]

/-- The samples are those kept of every lag recorded so far; a flush takes
none away. -/
theorem samples_run (r : MetricsReporter) (calls : List Call) :
    (r.run calls).1.counters.ingestLagSamplesMs
      = (lags calls).foldl keep r.counters.ingestLagSamplesMs := by
  induction calls generalizing r with
  | nil => rfl
  | cons call calls ih =>
      show ((r.step call).1.run calls).1.counters.ingestLagSamplesMs = _
      rw [ih]
      cases call with
      | recordLag lagMs => rfl
      | count tallies => rfl
      | flush force now raised =>
          have h : (r.step (.flush force now raised)).1 = r := flush_fst ..
          rw [h]
          rfl

theorem lastWriteAt_run (r : MetricsReporter) (calls : List Call) :
    (r.run calls).1.lastWriteAt = r.lastWriteAt
      ∧ (r.run calls).1.enabled = r.enabled := by
  induction calls generalizing r with
  | nil => exact ⟨rfl, rfl⟩
  | cons call calls ih =>
      obtain ⟨hlast, henabled⟩ := lastWriteAt_step r call
      obtain ⟨hlast', henabled'⟩ := ih (r.step call).1
      exact ⟨hlast'.trans hlast, henabled'.trans henabled⟩

-- ==================================================== what a flush reports

/-- The percentiles that a flush reports; none when it is skipped. -/
def percentiles : Flushed → Option (List (Option ℚ))
  | .logged snapshot | .written snapshot _ =>
      some (["p50", "p95", "p99"].map fun name =>
        (snapshot.find? fun m => m.1 = "ingest_lag_ms." ++ name).map Prod.snd)
  | .empty | .skipped => none

theorem lagPercentile_eq_none_iff {c : Counters} {pct : ℚ} :
    c.lagPercentile pct = none ↔ c.ingestLagSamplesMs = [] := by
  unfold Counters.lagPercentile
  dsimp only
  have hlen : c.ingestLagSamplesMs.mergeSort.length
      = c.ingestLagSamplesMs.length := List.length_mergeSort ..
  rw [List.getElem?_eq_none_iff, ← List.length_eq_zero_iff, hlen]
  omega

/-- A name with another first letter is not that of a percentile. -/
theorem ne_lag {metric : String} (h : metric.toList.head? ≠ some 'i')
    (name : String) : metric ≠ "ingest_lag_ms." ++ name := by
  intro heq
  apply h
  have hi : "ingest_lag_ms.".toList = 'i' :: "ngest_lag_ms.".toList := by
    decide
  rw [heq, String.toList_append, hi]
  rfl

/-- The totals and the tallies of the channels have other names. -/
theorem find?_totals (c : Counters) (name : String) :
    ((([("sequence_gaps_total", c.sequenceGapsTotal),
      ("heartbeat_detected_gaps_total", c.heartbeatDetectedGapsTotal),
      ("messages_lost_total", c.messagesLostTotal),
      ("duplicates_total", c.duplicatesTotal),
      ("websocket_reconnects_total", c.websocketReconnectsTotal),
      ("book_resets_total", c.bookResetsTotal),
      ("crossed_books_total", c.crossedBooksTotal),
      ("publish_errors_total", c.publishErrorsTotal)]
        : List (String × Int)).map fun m => (m.1, (m.2 : ℚ))).find? fun m =>
          m.1 = "ingest_lag_ms." ++ name) = none := by
  refine List.find?_eq_none.mpr fun m hm => ?_
  rw [decide_eq_true_iff]
  apply ne_lag
  simp only [List.map_cons, List.map_nil, List.mem_cons, List.not_mem_nil,
    or_false] at hm
  rcases hm with rfl | rfl | rfl | rfl | rfl | rfl | rfl | rfl <;>
    (dsimp only; decide)

theorem find?_received (c : Counters) (name : String) :
    (c.messagesReceived.map fun m =>
      ("messages_received." ++ m.1, (m.2 : ℚ))).find? (fun m =>
        m.1 = "ingest_lag_ms." ++ name) = none := by
  refine List.find?_eq_none.mpr fun m hm => ?_
  rw [decide_eq_true_iff]
  apply ne_lag
  obtain ⟨x, -, rfl⟩ := List.mem_map.mp hm
  have hm : "messages_received.".toList = 'm' :: "essages_received.".toList :=
    by decide
  rw [String.toList_append, hm, List.cons_append, List.head?_cons]
  decide

/-- The percentiles of a snapshot are those of the samples. -/
theorem find?_snapshot (c : Counters) :
    (["p50", "p95", "p99"].map fun name =>
        (c.snapshot.find? fun m => m.1 = "ingest_lag_ms." ++ name).map
          Prod.snd)
      = [50 / 100, 95 / 100, 99 / 100].map c.lagPercentile := by
  unfold Counters.snapshot
  simp only [List.find?_append, find?_totals, find?_received,
    Option.none_or]
  by_cases hnil : c.ingestLagSamplesMs = []
  · have hnone : ∀ pct, c.lagPercentile pct = none := fun pct =>
      lagPercentile_eq_none_iff.mpr hnil
    simp only [List.filterMap_cons, List.filterMap_nil, List.map_cons,
      List.map_nil, hnone, Option.map_none, List.find?_nil]
  · have hsome : ∀ pct, ∃ v, c.lagPercentile pct = some v := fun pct =>
      Option.ne_none_iff_exists'.mp fun h =>
        hnil (lagPercentile_eq_none_iff.mp h)
    obtain ⟨p50, h50⟩ := hsome (50 / 100)
    obtain ⟨p95, h95⟩ := hsome (95 / 100)
    obtain ⟨p99, h99⟩ := hsome (99 / 100)
    simp only [List.filterMap_cons, List.filterMap_nil, List.map_cons,
      List.map_nil, h50, h95, h99, Option.map_some]
    rfl

/-- A flush reports them unless it is skipped. -/
theorem percentiles_flush (r : MetricsReporter) (force : Bool) (now : ℚ)
    (raised : Option String) :
    percentiles (r.flush force now raised).2
      = if r.enabled && !force && now - r.lastWriteAt < minWriteIntervalS
        then none else some ([50 / 100, 95 / 100, 99 / 100].map r.counters.lagPercentile) := by
  unfold flush
  dsimp only
  rw [snapshot_ne_nil, if_neg Bool.false_ne_true]
  split
  · rfl
  · rw [← find?_snapshot]
    split
    · rfl
    · rfl

/-- The percentiles that a flush after a list of calls reports. -/
def reportAfter (r : MetricsReporter) (calls : List Call) (force : Bool)
    (now : ℚ) (raised : Option String) : Option (List (Option ℚ)) :=
  percentiles ((r.run calls).1.flush force now raised).2

/-- A report is made from the lags recorded since the start. -/
theorem reportAfter_congr {r : MetricsReporter} {calls calls' : List Call}
    (h : lags calls = lags calls') (force : Bool) (now : ℚ)
    (raised : Option String) :
    reportAfter r calls force now raised
      = reportAfter r calls' force now raised := by
  have hsamples : (r.run calls).1.counters.ingestLagSamplesMs
      = (r.run calls').1.counters.ingestLagSamplesMs := by
    rw [samples_run, samples_run, h]
  have hpercentile : (r.run calls).1.counters.lagPercentile
      = (r.run calls').1.counters.lagPercentile := by
    funext pct
    unfold Counters.lagPercentile
    rw [hsamples]
  unfold reportAfter
  rw [percentiles_flush, percentiles_flush, hpercentile,
    (lastWriteAt_run r calls).1, (lastWriteAt_run r calls).2,
    (lastWriteAt_run r calls').1, (lastWriteAt_run r calls').2]

theorem lags_append (calls more : List Call) :
    lags (calls ++ more) = lags calls ++ lags more := List.filterMap_append

/-- The lags of a window, recorded by a reporter that starts with it. -/
def recorded (window : List Call) : List Call :=
  (lags window).map Call.recordLag

theorem lags_recorded (window : List Call) :
    lags (recorded window) = lags window := by
  unfold recorded
  generalize lags window = samples
  induction samples with
  | nil => rfl
  | cons lagMs samples ih =>
      show lagMs :: lags (samples.map Call.recordLag) = _
      rw [ih]

/-- The reports after a flush are made from the lags recorded since
then, whatever is recorded and however the next flush goes, if and only
if no lag was recorded before it.

If one was, the empty window tells the two apart: its report has
percentiles on the one side and none on the other. -/
theorem percentiles_of_window_iff (projectId : String) (enabled : Bool)
    (before : List Call) (force : Bool) (now : ℚ) (raised : Option String) :
    (∀ window, flushTimes window = [] → ∀ force' now' raised',
        reportAfter (new projectId enabled)
            (before ++ [.flush force now raised] ++ window)
            force' now' raised'
          = reportAfter (new projectId enabled) (recorded window)
            force' now' raised')
      ↔ lags before = [] := by
  constructor
  · intro h
    have hempty := h [] rfl true 0 none
    have hsamples := samples_run (new projectId enabled)
      (before ++ [.flush force now raised])
    have hlags : lags (before ++ [.flush force now raised]) = lags before := by
      rw [lags_append]
      exact List.append_nil _
    rw [List.append_nil] at hempty
    unfold reportAfter at hempty
    rw [percentiles_flush, percentiles_flush] at hempty
    simp only [Bool.not_true, Bool.and_false, Bool.false_and,
      Bool.false_eq_true, if_false, Option.some_inj, List.map_cons] at hempty
    -- a reporter without samples reports none
    have hnone := (List.cons.inj hempty).1
    have hfresh : Counters.lagPercentile
        ((new projectId enabled).run (recorded [])).1.counters (50 / 100) = none := by
      rw [lagPercentile_eq_none_iff]
      rfl
    rw [hfresh, lagPercentile_eq_none_iff, hsamples, hlags,
      foldl_keep_eq_nil_iff] at hnone
    exact hnone.2
  · intro hnone window _ force' now' raised'
    apply reportAfter_congr
    rw [lags_recorded, lags_append, lags_append, hnone]
    rfl

/-- What a flush that is not too soon reports of a few samples. -/
theorem reportAfter_eq (ordered : List ℚ) {r : MetricsReporter}
    {calls : List Call} {now : ℚ}
    (hlate : r.lastWriteAt + minWriteIntervalS ≤ now)
    (h : ((lags calls).foldl keep r.counters.ingestLagSamplesMs).mergeSort
      = ordered) (raised : Option String) :
    reportAfter r calls false now raised
      = some ([50 / 100, 95 / 100, 99 / 100].map fun pct : ℚ =>
        ordered[min ⌊ordered.length * pct⌋₊ (ordered.length - 1)]?) := by
  have hnot : ¬ now - r.lastWriteAt < minWriteIntervalS :=
    not_lt.mpr (le_sub_iff_add_le'.mpr hlate)
  unfold reportAfter
  rw [percentiles_flush, (lastWriteAt_run r calls).1]
  simp only [hnot, decide_false, Bool.and_false, Bool.false_eq_true, if_false]
  unfold Counters.lagPercentile
  dsimp only
  rw [samples_run, h]

/-- After one slow message, the next window reports its lag. -/
theorem incident_outlives_its_window :
    reportAfter (new "market" true)
        [.recordLag 60000, .flush false 1700000000 none, .recordLag 50]
        false 1700000060 none
      = some [some 60000, some 60000, some 60000]
      ∧ reportAfter (new "market" true) [.recordLag 50]
        false 1700000060 none
      = some [some 50, some 50, some 50] := by
  have hboth : List.mergeSort [(60000 : ℚ), 50] = [50, 60000] := by
    simp [List.mergeSort, List.merge]
    decide +kernel
  have hone : List.mergeSort [(50 : ℚ)] = [50] := List.mergeSort_singleton ..
  have hlate : (new "market" true).lastWriteAt + minWriteIntervalS
      ≤ 1700000060 := by decide +kernel
  constructor
  · refine (reportAfter_eq [50, 60000] hlate ?_ none).trans ?_
    · exact hboth
    · decide +kernel
  · refine (reportAfter_eq [50] hlate ?_ none).trans ?_
    · exact hone
    · decide +kernel

/-- Before the first lag every flush leaves the next window alone. -/
theorem percentiles_of_window_iff_first :
    reportAfter (new "market" true)
        [.count {}, .flush false 1700000000 none, .recordLag 50]
        false 1700000060 none
      = reportAfter (new "market" true) [.recordLag 50]
        false 1700000060 none :=
  (percentiles_of_window_iff "market" true [.count {}] false 1700000000
    none).mpr rfl [.recordLag 50] rfl false 1700000060 none

end MarketPlatform.Consumer.MetricsReporter
