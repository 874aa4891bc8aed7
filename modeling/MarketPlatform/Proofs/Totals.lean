/-
The totals the reporter writes.

A flush that comes too soon is dropped, and the comment in `flush` says
this loses nothing: the totals are cumulative, so the next flush carries
the same information. They are: over any run of the program, completions
and disconnects and raises included, every metric reported once is
reported from then on, and never at a smaller value (`totals_grow`). The
percentiles of the lag are the exception, and they are no totals.

A write gives all the metrics at once, and fails as a whole. No run
makes it give one time series twice, after the dots of the names have
become underscores, and the names never clash with an attribute of a log
record, so the last statement of `main`, which logs them all, does not
raise (`series_distinct`).

# What is done to the counters

Both results are about the counters after any run, and neither depends
on what the messages say. So the module first lists what the program
does to the counters at all: a gap adds one and a positive number of
lost ids, a duplicate adds one, a heartbeat ahead adds one and a
positive number, a crossed book adds one, a lag is recorded (`Tallied`);
a message is counted on one of three channels, and a disconnect adds one
to two tallies (`Kept`). An invariant of the counters that all of these
keep holds after any run.

# From the parts to the run

The four handlers are sequences of a few statements. There is a lemma
that each kind of statement keeps the invariant (the lemmas called
`tallied_`), and `handle_of_parts` goes through the handlers once, in
the order of the source. It is stated of any judgment `J` of programs
and not of preservation alone, because the first part of a handler, the
reading of the product and the counting of the message, has to be told
from the rest by other results: what is counted there is counted before
anything can be published. From a message the invariant goes to a step
of the consumer, a step of the program and a run (`kept_handle`,
`kept_moves`, `kept_step`, `kept_run`).

# The two invariants

`Grown base`: no tally is smaller than in `base` and no channel is gone.
`Keyed`: each of the handlers' channels is counted under one key. A
snapshot is then known by its names (`Keyed.subperm`): it has a sublist
of a list of names without repeats, which stays without repeats when the
dots are replaced.
-/
import MarketPlatform.Consumer.Main
import MarketPlatform.Proofs.Connections
import Mathlib.Data.List.Perm.Subperm

namespace MarketPlatform.Consumer

open Lib EStateM

-- ==================================================== what moves a counter

/-- The channels the handlers count. -/
def countedChannels : List String := ["trades", "l2", "heartbeat"]

/-- An invariant of the counters that a message keeps, apart from the count
of its channel. -/
structure Counters.Tallied (I : Counters → Prop) : Prop where
  recordLag : ∀ lag c, I c → I (c.recordLag lag)
  gap : ∀ missing c, 0 < missing → I c → I { c with
    sequenceGapsTotal := c.sequenceGapsTotal + 1
    messagesLostTotal := c.messagesLostTotal + missing }
  duplicate : ∀ c, I c →
    I { c with duplicatesTotal := c.duplicatesTotal + 1 }
  ahead : ∀ missed c, 0 < missed → I c → I { c with
    heartbeatDetectedGapsTotal := c.heartbeatDetectedGapsTotal + 1
    messagesLostTotal := c.messagesLostTotal + missed }
  crossed : ∀ c, I c →
    I { c with crossedBooksTotal := c.crossedBooksTotal + 1 }

/-- An invariant of the counters that everything done to them keeps. -/
structure Counters.Kept (I : Counters → Prop) : Prop extends
    Counters.Tallied I where
  received : ∀ channel ∈ countedChannels, ∀ c, I c →
    I (c.recordMessage channel)
  disconnected : ∀ c, I c →
    I { c with
      bookResetsTotal := c.bookResetsTotal + 1
      websocketReconnectsTotal := c.websocketReconnectsTotal + 1 }

/-- The gap of an observation is a gap: at least one id is missing. The
tracker reports one only for an id more than one past the baseline. -/
theorem ContinuityTracker.observe_gap_pos {t : ContinuityTracker}
    {p : String} {v : Int} (h : (t.observe p v).2.continuity = .gap) :
    0 < (t.observe p v).2.missing := by
  rw [observation_eq] at h ⊢
  cases hlast : t.last p with
  | none =>
      rw [hlast] at h
      cases h
  | some last =>
      simp only [hlast] at h ⊢
      by_cases hv : v ≤ last
      · rw [if_pos hv] at h
        cases h
      · rw [if_neg hv] at h ⊢
        by_cases hgap : v - last - 1 > 0
        · rw [if_pos hgap]
          exact hgap
        · rw [if_neg hgap] at h
          cases h

namespace MessageHandler

variable {I : Counters → Prop}

/-- Recording the lag of a match. -/
theorem tallied_recordLag (hI : Counters.Tallied I) (lag : ℚ) :
    Preserves (fun h => I h.counters)
      (modify fun h => h.withCounters (·.recordLag lag) : Handling) :=
  Preserves.of_modify fun h hh => hI.recordLag lag h.counters hh

/-- The time of a heartbeat is not in the counters. -/
theorem tallied_beat (t : Int) :
    Preserves (fun h => I h.counters)
      (modify fun h => { h with lastHeartbeatAt := some t } : Handling) :=
  Preserves.of_modify fun _ hh => hh

/-- Tracking an id adds a gap or a duplicate, or nothing. -/
theorem tallied_trackContinuity (hI : Counters.Tallied I) (p : String) (v : Int) :
    Preserves (fun h => I h.counters) (trackContinuity p v) := by
  intro h hh
  rw [run_trackContinuity]
  simp only [Result.state_ok, tracked, countObservation]
  split
  · next hgap => exact hI.gap _ _ (ContinuityTracker.observe_gap_pos hgap) hh
  · exact hI.duplicate _ hh
  · exact hh

/-- A heartbeat of a product that has a baseline adds the ids it is
ahead by, if it is. -/
theorem tallied_trackHeartbeat (hI : Counters.Tallied I) (p : String) (v : Int) :
    Preserves (fun h => I h.counters) (trackHeartbeat p v) := by
  intro h hh
  rw [run_trackHeartbeat]
  simp only [Result.state_ok, heartbeatTracked]
  split
  · exact hh
  · split
    · next hv => exact hI.ahead _ _ (Int.sub_pos.mpr hv) hh
    · exact hh

/-- The check may count a crossed book, and does not raise. -/
theorem tallied_checkCrossed (hI : Counters.Tallied I) (p : String) :
    Preserves (fun h => I h.counters) (checkCrossed p) := by
  intro h hh
  rw [state_checkCrossed]
  unfold crossChecked
  split
  · exact hI.crossed _ hh
  · exact hh

/-- The book's own loops do not see the counters, whether they raise or
not. -/
theorem tallied_onBook (p : String) (x : EStateM Exc OrderBook Unit) :
    Preserves (fun h => I h.counters) (onBook p x) := by
  intro h hh
  obtain ⟨books, hbooks⟩ := state_onBook p x h
  rw [hbooks]
  exact hh

/-- Publishing changes the publisher alone. -/
theorem tallied_publish (m : Published) :
    Preserves (fun h => I h.counters) (publish m) := by
  intro h hh
  rw [run_publish]
  split <;> exact hh

/-- Reading a value may raise and changes nothing. -/
theorem tallied_attempt {α : Type} {x : Py α} {f : α → Handling}
    (h : ∀ a, Preserves (fun h => I h.counters) (f a)) :
    Preserves (fun h => I h.counters)
      ((attempt x : EStateM Exc MessageHandler α) >>= f) :=
  (Preserves.of_attempt x).bind h

section Handle

variable {ι : Type} {K : ι → Counters → Prop} {J : Handling → Prop}

/-- A handler reads the product, counts its message, and goes on with
parts that keep what is tallied: a judgment is shown of a message by
what it says of these three.

The cases are the types of messages, and in each the statements come in
the order of the source. After the count, every statement keeps each of
the invariants `K`, so that their sequence does. -/
theorem handle_of_parts (hK : ∀ i, Counters.Tallied (K i))
    (hattempt : ∀ {α : Type} (x : Py α) (f : α → Handling),
      (∀ a, J (f a)) → J ((attempt x : EStateM Exc MessageHandler α) >>= f))
    (hreceived : ∀ channel ∈ countedChannels, ∀ f : Unit → Handling,
      (∀ i, Preserves (fun h => K i h.counters) (f ())) →
      J ((modify fun h => h.withCounters (·.recordMessage channel)
        : Handling) >>= f))
    (hdone : J (pure ())) (hraised : J (throw .keyError))
    (msg : Json) (t : Int) : J (handle msg t) := by
  refine hattempt _ _ fun type => ?_
  cases msgType type with
  | match_ =>
      refine hattempt _ _ fun p => ?_
      refine hreceived "trades" (by decide) _ fun i => ?_
      refine tallied_attempt fun v => ?_
      refine (tallied_trackContinuity (hK i) p v).bind fun _ => ?_
      refine tallied_attempt fun time => ?_
      refine tallied_attempt fun lag => ?_
      refine (tallied_recordLag (hK i) _).bind fun _ => ?_
      -- the fields still to read, then the publish
      iterate 6 refine tallied_attempt fun _ => ?_
      exact tallied_publish _
  | snapshot =>
      refine hattempt _ _ fun p => ?_
      refine hreceived "l2" (by decide) _ fun i => ?_
      refine tallied_attempt fun bids => ?_
      refine tallied_attempt fun asks => ?_
      refine (tallied_onBook p _).bind fun _ => ?_
      refine tallied_attempt fun sequence => ?_
      exact tallied_publish _
  | l2update =>
      refine hattempt _ _ fun p => ?_
      refine hreceived "l2" (by decide) _ fun i => ?_
      refine tallied_attempt fun changes => ?_
      refine (tallied_onBook p _).bind fun _ => ?_
      refine (tallied_checkCrossed (hK i) p).bind fun _ => ?_
      refine tallied_attempt fun time => ?_
      refine tallied_attempt fun sequence => ?_
      exact tallied_publish _
  | heartbeat =>
      refine hattempt _ _ fun p => ?_
      refine hreceived "heartbeat" (by decide) _ fun i => ?_
      refine (tallied_beat t).bind fun _ => ?_
      refine tallied_attempt fun v => ?_
      refine (tallied_trackHeartbeat (hK i) p v).bind fun _ => ?_
      refine tallied_attempt fun sequence => ?_
      refine tallied_attempt fun time => ?_
      exact tallied_publish _
  | error => exact hraised
  | other => exact hdone

end Handle

/-- A message, raise or not, keeps the invariant. -/
theorem kept_handle (hI : Counters.Kept I) (msg : Json) (t : Int) :
    Preserves (fun h => I h.counters) (handle msg t) := by
  refine handle_of_parts (K := fun _ : Unit => I)
    (J := Preserves fun h => I h.counters) (fun _ => hI.toTallied)
    (fun _ _ h => tallied_attempt h) (fun channel hchannel f hf => ?_)
    (Preserves.of_pure ()) (Preserves.of_throw _) msg t
  exact (Preserves.of_modify fun h hh =>
    hI.received channel hchannel h.counters hh).bind fun _ => hf ()

end MessageHandler

/-- A step of the consumer keeps the invariant. Only a message and a
disconnect reach the counters. -/
theorem WebSocketConsumer.kept_moves {I : Counters → Prop}
    (hI : Counters.Kept I) {config : Config} {s s' : WebSocketConsumer}
    {e : Event} {acts : List Act} (hm : Moves config s e s' acts)
    (h : I s.handler.counters) : I s'.handler.counters := by
  cases hm with
  | handles text now message w after phase going decoded goes =>
      exact MessageHandler.kept_handle hI message now s.handler h
  | ends raised w after phase goes => exact hI.disconnected _ h
  | _ => exact h

namespace Main

variable {config : Config}

/-- A step of the program leaves the consumer alone, or is one of its. -/
theorem consumer_step (config : Config) (m : Main) (step : Step) :
    (m.step config step).consumer = m.consumer
      ∨ ∃ e, (m.step config step).consumer
        = (WebSocketConsumer.step config m.consumer e).1 := by
  cases step with
  | consumer e => exact Or.inr ⟨e, rfl⟩
  | done future exception =>
      refine Or.inl ?_
      simp only [Main.step]
      split
      · rfl
      · split
        · rfl
        · cases exception <;> rfl
  | flush => exact Or.inl rfl

theorem kept_step {I : Counters → Prop} (hI : Counters.Kept I) (m : Main)
    (step : Step) (h : I m.consumer.handler.counters) :
    I (m.step config step).consumer.handler.counters := by
  rcases consumer_step config m step with hsame | ⟨e, hmoves⟩
  · rwa [hsame]
  · rw [hmoves]
    exact WebSocketConsumer.kept_moves hI
      (WebSocketConsumer.moves_step config m.consumer e) h

/-- An invariant of the counters that everything done to them keeps
holds after any run. By induction on the steps of the program. -/
theorem kept_run {I : Counters → Prop} (hI : Counters.Kept I)
    (steps : List Step) {m : Main} (h : I m.consumer.handler.counters) :
    I (run config m steps).consumer.handler.counters := by
  induction steps generalizing m with
  | nil => exact h
  | cons step steps ih => exact ih (kept_step hI m step h)

end Main

-- ============================================================== the totals

namespace Counters

/-- The tallies every snapshot has. -/
def tallies : List (String × (Counters → Int)) :=
  [("sequence_gaps_total", sequenceGapsTotal),
    ("heartbeat_detected_gaps_total", heartbeatDetectedGapsTotal),
    ("messages_lost_total", messagesLostTotal),
    ("duplicates_total", duplicatesTotal),
    ("websocket_reconnects_total", websocketReconnectsTotal),
    ("book_resets_total", bookResetsTotal),
    ("crossed_books_total", crossedBooksTotal),
    ("publish_errors_total", publishErrorsTotal)]

/-- The percentiles of a snapshot, which are no totals. -/
def lagShares : List (ℚ × String) :=
  [(50 / 100, "p50"), (95 / 100, "p95"), (99 / 100, "p99")]

def lagNames : List String := lagShares.map fun p => "ingest_lag_ms." ++ p.2

theorem snapshot_eq (c : Counters) :
    c.snapshot = tallies.map (fun f => (f.1, (f.2 c : ℚ)))
      ++ c.messagesReceived.map (fun m =>
        ("messages_received." ++ m.1, (m.2 : ℚ)))
      ++ lagShares.filterMap fun p =>
        (c.lagPercentile p.1).map fun v => ("ingest_lag_ms." ++ p.2, v) :=
  rfl

/-- No tally is smaller and no channel is gone. -/
structure Grown (c c' : Counters) : Prop where
  tallies : ∀ f ∈ tallies, f.2 c ≤ f.2 c'
  received : ∀ m ∈ c.messagesReceived,
    ∃ n, (m.1, n) ∈ c'.messagesReceived ∧ m.2 ≤ n

theorem Grown.refl (c : Counters) : Grown c c :=
  ⟨fun _ _ => le_rfl, fun m hm => ⟨m.2, hm, le_rfl⟩⟩

theorem Grown.trans {a b c : Counters} (h : Grown a b) (h' : Grown b c) :
    Grown a c := by
  refine ⟨fun f hf => (h.tallies f hf).trans (h'.tallies f hf),
    fun m hm => ?_⟩
  obtain ⟨n, hn, hle⟩ := h.received m hm
  obtain ⟨n', hn', hle'⟩ := h'.received _ hn
  exact ⟨n', hn', hle.trans hle'⟩

/-- Counting a channel once more leaves every channel's count, or adds one
to it. -/
theorem bump_grows (channel : String) (m : String × Nat) :
    ∀ received : List (String × Nat), m ∈ received →
      ∃ n, (m.1, n) ∈ bump channel received ∧ m.2 ≤ n := by
  intro received
  induction received with
  | nil => exact fun hm => nomatch hm
  | cons r rest ih =>
      intro hm
      obtain ⟨c, n⟩ := r
      rcases List.mem_cons.mp hm with rfl | hm
      · by_cases hc : c = channel
        · exact ⟨n + 1, by simp [bump, hc], Nat.le_succ n⟩
        · exact ⟨n, by simp [bump, hc], le_rfl⟩
      · by_cases hc : c = channel
        · exact ⟨m.2, by simp [bump, hc, hm], le_rfl⟩
        · obtain ⟨n', hn', hle⟩ := ih hm
          exact ⟨n', by simp [bump, hc, hn'], hle⟩

/-- What only adds to the tallies grows the counters. -/
theorem Grown.of_tallies {c c' : Counters}
    (htallies : ∀ f ∈ Counters.tallies, f.2 c ≤ f.2 c')
    (hreceived : c'.messagesReceived = c.messagesReceived) : Grown c c' :=
  ⟨htallies, fun m hm => ⟨m.2, hreceived ▸ hm, le_rfl⟩⟩

/-- Everything done to the counters grows them. -/
theorem kept_grown (base : Counters) : Kept (Grown base) where
  received channel _ c h :=
    h.trans ⟨by simp [Counters.tallies, recordMessage],
      fun m hm => bump_grows channel m _ hm⟩
  recordLag lag c h :=
    h.trans (.of_tallies (by simp [Counters.tallies, recordLag]) rfl)
  gap missing c hpos h :=
    h.trans (.of_tallies (by simp [Counters.tallies, hpos.le]) rfl)
  duplicate c h := h.trans (.of_tallies (by simp [Counters.tallies]) rfl)
  ahead missed c hpos h :=
    h.trans (.of_tallies (by simp [Counters.tallies, hpos.le]) rfl)
  crossed c h := h.trans (.of_tallies (by simp [Counters.tallies]) rfl)
  disconnected c h := h.trans (.of_tallies (by simp [Counters.tallies]) rfl)

/-- Every metric of a snapshot that is a total is in a later one, and no
smaller. -/
def Carries (earlier later : List (String × ℚ)) : Prop :=
  ∀ m ∈ earlier, m.1 ∈ lagNames ∨ ∃ v, (m.1, v) ∈ later ∧ m.2 ≤ v

theorem Grown.carries {c c' : Counters} (h : Grown c c') :
    Carries c.snapshot c'.snapshot := by
  intro m hm
  rw [snapshot_eq, List.mem_append, List.mem_append] at hm
  rcases hm with (hm | hm) | hm
  · obtain ⟨f, hf, rfl⟩ := List.mem_map.mp hm
    refine Or.inr ⟨(f.2 c' : ℚ), ?_, Int.cast_le.mpr (h.tallies f hf)⟩
    rw [snapshot_eq]
    exact List.mem_append_left _ (List.mem_append_left _
      (List.mem_map_of_mem hf))
  · obtain ⟨r, hr, rfl⟩ := List.mem_map.mp hm
    obtain ⟨n, hn, hle⟩ := h.received r hr
    refine Or.inr ⟨(n : ℚ), ?_, Nat.cast_le.mpr hle⟩
    rw [snapshot_eq]
    exact List.mem_append_left _ (List.mem_append_right _
      (List.mem_map.mpr ⟨(r.1, n), hn, rfl⟩))
  · obtain ⟨p, hp, hv⟩ := List.mem_filterMap.mp hm
    obtain ⟨v, -, rfl⟩ := Option.map_eq_some_iff.mp hv
    exact Or.inl (List.mem_map_of_mem hp)

-- =============================================================== the names

/-- Each of the handlers' channels is counted under one key. -/
structure Keyed (c : Counters) : Prop where
  nodup : (c.messagesReceived.map Prod.fst).Nodup
  channels : ∀ m ∈ c.messagesReceived, m.1 ∈ countedChannels

theorem mem_bump {channel key : String} :
    ∀ received : List (String × Nat),
      key ∈ (bump channel received).map Prod.fst
        ↔ key = channel ∨ key ∈ received.map Prod.fst := by
  intro received
  induction received with
  | nil => simp [bump]
  | cons r rest ih =>
      obtain ⟨c, n⟩ := r
      by_cases hc : c = channel
      · simp [bump, hc]
      · simp only [bump, if_neg hc, List.map_cons, List.mem_cons, ih]
        tauto

theorem nodup_bump (channel : String) (received : List (String × Nat))
    (h : (received.map Prod.fst).Nodup) :
    ((bump channel received).map Prod.fst).Nodup := by
  induction received with
  | nil => simp [bump]
  | cons r rest ih =>
      obtain ⟨c, n⟩ := r
      rw [List.map_cons, List.nodup_cons] at h
      by_cases hc : c = channel
      · simpa [bump, hc] using h
      · simp only [bump, if_neg hc, List.map_cons, List.nodup_cons]
        refine ⟨fun hmem => ?_, ih h.2⟩
        exact ((mem_bump rest).mp hmem).elim hc h.1

/-- A channel is counted under a key that is there, or under a new
one. -/
theorem kept_keyed : Kept Keyed where
  received channel hchannel c h := by
    refine ⟨nodup_bump channel _ h.nodup, fun m hm => ?_⟩
    rcases (mem_bump _).mp (List.mem_map_of_mem hm) with heq | hmem
    · rw [heq]
      exact hchannel
    · obtain ⟨m', hm', heq⟩ := List.mem_map.mp hmem
      rw [← heq]
      exact h.channels m' hm'
  recordLag _ _ h := ⟨h.nodup, h.channels⟩
  gap _ _ _ h := ⟨h.nodup, h.channels⟩
  duplicate _ h := ⟨h.nodup, h.channels⟩
  ahead _ _ _ h := ⟨h.nodup, h.channels⟩
  crossed _ h := ⟨h.nodup, h.channels⟩
  disconnected _ h := ⟨h.nodup, h.channels⟩

/-- Every name a snapshot can have. -/
def names : List String :=
  tallies.map Prod.fst
    ++ countedChannels.map (fun channel => "messages_received." ++ channel)
    ++ lagNames

/-- The names of what may be missing are among all the names. -/
theorem filterMap_names_sublist {β : Type} (f : β → Option ℚ)
    (g : β → String) (l : List β) :
    ((l.filterMap fun p => (f p).map fun v => (g p, v)).map
      Prod.fst).Sublist (l.map g) := by
  induction l with
  | nil => exact List.Sublist.refl _
  | cons p l ih =>
      cases hp : f p with
      | none => simpa [hp] using ih.cons (g p)
      | some v => simpa [hp] using ih

theorem subperm_map {α β : Type} {l l' : List α} (f : α → β)
    (h : l.Subperm l') : (l.map f).Subperm (l'.map f) := by
  obtain ⟨l₁, hperm, hsub⟩ := h
  exact ⟨l₁.map f, hperm.map f, hsub.map f⟩

theorem nodup_of_subperm {α : Type} {l l' : List α} (h : l.Subperm l')
    (hl' : l'.Nodup) : l.Nodup := by
  obtain ⟨l₁, hperm, hsub⟩ := h
  exact hperm.nodup_iff.mp (hl'.sublist hsub)

/-- No name comes twice, and there are no others. -/
theorem Keyed.subperm {c : Counters} (h : Keyed c) :
    (c.snapshot.map Prod.fst).Subperm names := by
  have hreceived : (c.messagesReceived.map Prod.fst).Subperm
      countedChannels := by
    refine h.nodup.subperm fun channel hmem => ?_
    obtain ⟨m, hm, rfl⟩ := List.mem_map.mp hmem
    exact h.channels m hm
  rw [snapshot_eq, List.map_append, List.map_append]
  refine (List.Subperm.append ?_ ?_).append ?_
  · rw [List.map_map]
    exact List.Subperm.refl _
  · have hmap := subperm_map (fun c => "messages_received." ++ c) hreceived
    rw [List.map_map] at hmap ⊢
    exact hmap
  · exact (filterMap_names_sublist _ _ lagShares).subperm

end Counters

namespace Main

open MetricsReporter

variable (config : Config) (publisher : Publisher)

/-- Over any run of the program, raises, disconnects and failed publishes
included, every total that has been reported is reported again, at no
smaller a value. -/
theorem totals_grow (before after : List Step) :
    Counters.Carries (run config (new config publisher) before).snapshot
      (run config (new config publisher) (before ++ after)).snapshot := by
  have hsplit : run config (new config publisher) (before ++ after)
      = run config (run config (new config publisher) before) after :=
    List.foldl_append
  rw [hsplit]
  exact (kept_run (Counters.kept_grown _) after (.refl _)).carries

/-- The metrics of a run, by their names. -/
theorem names_snapshot (steps : List Step) :
    ((run config (new config publisher) steps).snapshot.map
      Prod.fst).Subperm Counters.names := by
  have hnew : Counters.Keyed (new config publisher).consumer.handler.counters :=
    ⟨List.nodup_nil, by simp [new, WebSocketConsumer.new, MessageHandler.new]⟩
  exact (kept_run Counters.kept_keyed steps hnew).subperm

/-- No write names one time series twice, and logging the metrics does not
raise. -/
theorem series_distinct (steps : List Step) :
    ((seriesBatch (run config (new config publisher) steps).snapshot).map
        Prod.fst).Nodup
      ∧ MessageHandler.logExtra
        ((run config (new config publisher) steps).snapshot.map Prod.fst)
        = pure () := by
  have hsub := names_snapshot config publisher steps
  constructor
  · have hmap := Counters.subperm_map metricType hsub
    rw [List.map_map] at hmap
    rw [seriesBatch, List.map_map]
    exact Counters.nodup_of_subperm hmap (by decide +kernel)
  · refine MessageHandler.logExtra_eq_pure (List.any_eq_false.mpr ?_)
    intro name hname
    have hfree : ∀ name ∈ Counters.names,
        name ∉ MessageHandler.reservedKeys := by decide +kernel
    simpa using hfree name (hsub.subset hname)

end Main

end MarketPlatform.Consumer
