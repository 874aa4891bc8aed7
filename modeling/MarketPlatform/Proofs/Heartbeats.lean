/-
Stall detection: what a check of the watchdog finds.

# The statement

The watchdog measures silence from the last heartbeat the handler has
seen. `on_disconnect` clears it, so on a new connection there is none
(`Unheard`), and a check that finds none passes however long the
connection has been silent: a feed that is dead from the start is never
noticed. `stall_detected_iff` says that this is all that goes wrong: a
check answers as it should exactly when a heartbeat was handled on the
connection, or its start is no more than the timeout ago.

# What the handler remembers

Along the events of an open connection the watchdog stays asleep and the
handler's last heartbeat is the last one the socket yielded (`watched`).
One event either leaves the connection, or is no heartbeat and leaves
the time, or is one and sets it (`watched_step`); with nothing
remembered at the start the handler knows the heartbeats of this
connection and no other (`Connection.lastHeartbeatAt`).

# How late a check is

The second half bounds the silence that a check can find, when the
checks are paced as the source paces them, by half the timeout: the
check before it could tell, did not raise, and is no more than the pace
ago, so the silence is at most the timeout and a half
(`Connection.silence_le`).
-/
import MarketPlatform.Proofs.Handling
import MarketPlatform.Proofs.Moves
import MarketPlatform.Proofs.Stall

namespace MarketPlatform.Consumer.WebSocketConsumer

open Lib EStateM MessageHandler

variable (config : Config)

-- ======================================================== the connections

/-- What happens on an open connection: messages, checks, `stop()`. -/
def OnConnection : Event → Prop
  | .raw _ _ => True
  | .tick _ => True
  | .stop => True
  | _ => False

/-- The arrival time of a heartbeat. -/
def beat : Event → Option Int
  | .raw text now =>
      (Json.loads text).bind fun message =>
        if typeOf message = .heartbeat then some now else none
  | _ => none

/-- The arrival times of the heartbeats among the events. -/
def beats (es : List Event) : List Int := es.filterMap beat

/-- The time of a check. -/
def checkTime : Event → Option Int
  | .tick now => some now
  | _ => none

/-- The time of a check or of a message. -/
def time : Event → Option Int
  | .raw _ now => some now
  | .tick now => some now
  | _ => none

/-- The later of the start of a connection and the last heartbeat on
it. -/
def heardAt (start : Int) (es : List Event) : Int :=
  match (beats es).getLast? with
  | none => start
  | some t => max start t

/-- A connection made at `start` after any run, and what has happened on
it. -/
structure Connection (publisher : Publisher) where
  before : List Event
  connecting : (run config (new config publisher) before).phase
    = .connecting
  start : Int
  since : List Event
  onConnection : ∀ e ∈ since, OnConnection e
  later : ∀ t ∈ beats since, start ≤ t

variable {config} {publisher : Publisher}

/-- The consumer when the connection is made. -/
def Connection.opened (c : Connection config publisher) :
    WebSocketConsumer :=
  (step config (run config (new config publisher) c.before)
    (.connected true)).1

/-- The consumer after what has happened on the connection. -/
def Connection.state (c : Connection config publisher) :
    WebSocketConsumer :=
  run config c.opened c.since

-- =========================================================== the handler

/-- A message that does not raise sets the time of the last heartbeat if
it is one. -/
theorem lastHeartbeatAt_handle {msg : Json} {t : Int}
    {h h' : MessageHandler} (hrun : (handle msg t).run h = .ok () h') :
    h'.lastHeartbeatAt
      = if typeOf msg = .heartbeat then some t else h.lastHeartbeatAt := by
  cases handle_ok hrun with
  | trade trade lag type of run =>
      obtain ⟨rfl, -⟩ := run_publish_ok run
      rw [type]
      rfl
  | snapshot s b b' type of book applied run =>
      obtain ⟨rfl, -⟩ := run_publish_ok run
      rw [type]
      rfl
  | update u b b' type of book applied run =>
      obtain ⟨rfl, -⟩ := run_publish_ok run
      obtain ⟨f, hf, -⟩ := crossChecked_eq
        { h.withCounters (·.recordMessage "l2") with
          books := h.books.put u.event.productId b' } u.event.productId
      rw [hf, type]
      rfl
  | heartbeat beat type of run =>
      obtain ⟨rfl, -⟩ := run_publish_ok run
      rw [type, if_pos rfl]
      unfold heartbeatTracked
      split
      · rfl
      · split <;> rfl
  | ignored type same =>
      rw [same, type]
      rfl

-- =================================================== between connections

/-- Outside a connection no heartbeat is remembered. -/
def Unheard (s : WebSocketConsumer) : Prop :=
  s.phase = .top ∨ s.phase = .connecting ∨ s.phase = .backingOff →
    s.handler.lastHeartbeatAt = none

/-- A step keeps it: a connection is left through `on_disconnect` only,
and the moves between connections leave the handler alone. -/
theorem unheard_step (s : WebSocketConsumer) (e : Event) (h : Unheard s) :
    Unheard (step config s e).1 := by
  have hmoves := moves_step config s e
  generalize (step config s e).2 = acts at hmoves
  generalize (step config s e).1 = s' at hmoves ⊢
  cases hmoves with
  | idle e unable => exact h
  | stops => exact h
  | opens phase going => exact fun _ => h (.inl phase)
  | refused phase => exact fun _ => h (.inr (.inl phase))
  | ends raised w after phase goes => exact fun _ => rfl
  | wakes phase => exact fun _ => h (.inr (.inr phase))
  | handles text now message w after phase going decoded goes =>
      intro hout
      rw [goes] at hout
      split at hout <;> simp at hout
  | _ => intro hout; simp at hout

/-- So does a run. -/
theorem unheard_run (es : List Event) : ∀ s : WebSocketConsumer,
    Unheard s → Unheard (run config s es) := by
  induction es with
  | nil => exact fun _ h => h
  | cons e es ih => exact fun s h => ih _ (unheard_step s e h)

-- ======================================================= on a connection

/-- An event that leaves the watchdog asleep found it asleep, and the
last heartbeat is the event's if it is one. By cases on what the step
does: a check that finds nothing, a message that is handled, or the
stop; the other moves are no event of a connection or end it. -/
theorem watched_step {s : WebSocketConsumer} {e : Event}
    (he : OnConnection e)
    (hwatch : (step config s e).1.phase = .consuming .sleeping) :
    s.phase = .consuming .sleeping
      ∧ (step config s e).1.handler.lastHeartbeatAt
        = (beat e).or s.handler.lastHeartbeatAt := by
  have hmoves := moves_step config s e
  generalize (step config s e).2 = acts at hmoves
  generalize (step config s e).1 = s' at hmoves hwatch ⊢
  cases hmoves with
  | idle e unable =>
      -- asleep, every event of a connection does something
      cases e with
      | raw text now => simp [able, hwatch] at unable
      | tick now => simp [able, hwatch] at unable
      | stop => exact ⟨hwatch, rfl⟩
      | _ => exact he.elim
  | stops => exact ⟨hwatch, rfl⟩
  | checks now w acts phase seen => exact ⟨phase, rfl⟩
  | abandons text now raised w phase => simp at hwatch
  | handles text now message w after phase going decoded goes =>
      dsimp only at hwatch
      rw [goes] at hwatch
      cases hok : ((handle message now).run s.handler).isOk with
      | false => simp [hok] at hwatch
      | true =>
          simp only [hok, if_true, Phase.consuming.injEq] at hwatch
          refine ⟨by rw [phase, hwatch], ?_⟩
          rw [lastHeartbeatAt_handle (Result.eq_ok_of_isOk hok), beat,
            decoded, Option.bind_some]
          split <;> rfl
  | _ => exact he.elim

/-- Along a connection: the last heartbeat is the last that arrived. By
induction on the events, from the start of the connection. -/
theorem watched (es : List Event) : ∀ s : WebSocketConsumer,
    (∀ e ∈ es, OnConnection e) →
    (run config s es).phase = .consuming .sleeping →
    s.phase = .consuming .sleeping
      ∧ (run config s es).handler.lastHeartbeatAt
        = (beats es).getLast?.or s.handler.lastHeartbeatAt := by
  induction es with
  | nil => exact fun s _ h => ⟨h, rfl⟩
  | cons e es ih =>
      intro s hes hwatch
      obtain ⟨he, hes⟩ := List.forall_mem_cons.mp hes
      obtain ⟨hnext, hlast⟩ := ih _ hes hwatch
      obtain ⟨hsleep, hstep⟩ := watched_step he hnext
      refine ⟨hsleep, ?_⟩
      have hbeats : (beats (e :: es)).getLast?
          = (beats es).getLast?.or (beat e) := by
        unfold beats
        rw [List.filterMap_cons]
        cases beat e with
        | none => exact (Option.or_none).symm
        | some t =>
            refine List.getLast?_cons.trans ?_
            cases (List.filterMap beat es).getLast? <;> rfl
      rw [hbeats, Option.or_assoc, ← hstep]
      exact hlast

/-- A run of two lists of events. -/
theorem run_append (es es' : List Event) : ∀ s : WebSocketConsumer,
    run config s (es ++ es') = run config (run config s es) es' := by
  induction es with
  | nil => exact fun _ => rfl
  | cons e es ih => exact fun s => ih _

namespace Connection

variable (c : Connection config publisher)

/-- The handler remembers the last heartbeat of the connection and no
other. -/
theorem lastHeartbeatAt (hwatch : c.state.phase = .consuming .sleeping) :
    c.state.handler.lastHeartbeatAt = (beats c.since).getLast? := by
  have hnew : Unheard (new config publisher) := fun _ => rfl
  have hnone := unheard_run c.before _ hnew (Or.inr (Or.inl c.connecting))
  have hopened : c.opened.handler.lastHeartbeatAt = none := by
    unfold opened
    simp only [step, c.connecting]
    exact hnone
  obtain ⟨-, hlast⟩ := watched c.since c.opened c.onConnection hwatch
  rw [hopened, Option.or_none] at hlast
  exact hlast

/-- The check at `now` raises. -/
def Raises (now : Int) : Prop :=
  (step config c.state (.tick now)).2 = [.stalled]

/-- A check raises when the last heartbeat of the connection is too long
ago. -/
theorem raises_iff (hwatch : c.state.phase = .consuming .sleeping)
    (now : Int) :
    c.Raises now
      ↔ ∃ t ∈ (beats c.since).getLast?, silent config t now = true := by
  unfold Raises
  simp only [step, hwatch, check, c.lastHeartbeatAt hwatch]
  cases (beats c.since).getLast? with
  | none => cases c.state.stopping <;> simp
  | some t =>
      cases hsilent : silent config t now with
      | true => simp [hsilent]
      | false => cases c.state.stopping <;> simp [hsilent]

/-- What a check should answer: it raises exactly when the connection has
been silent for more than the timeout. -/
def Answers (now : Int) : Prop :=
  c.Raises now ↔ silent config (heardAt c.start c.since) now = true

/-- A check can tell: a heartbeat was handled on the connection, or its
start is not longer ago than the timeout. -/
def CanTell (config : Config) (start : Int) (es : List Event)
    (now : Int) : Prop :=
  beats es ≠ [] ∨ silent config start now = false

/-- A check answers as it should when it can tell. Without a heartbeat
it does not raise, which is right as long as the start is recent. -/
theorem answers_iff (hwatch : c.state.phase = .consuming .sleeping)
    (now : Int) :
    c.Answers now ↔ CanTell config c.start c.since now := by
  unfold Answers CanTell heardAt
  rw [c.raises_iff hwatch]
  cases hlast : (beats c.since).getLast? with
  | none =>
      have hnil : beats c.since = [] := List.getLast?_eq_none_iff.mp hlast
      simp [hnil]
  | some t =>
      have hmem : t ∈ beats c.since := List.mem_of_getLast? hlast
      have hne : beats c.since ≠ [] := List.ne_nil_of_mem hmem
      have hmax : max c.start t = t := Int.max_eq_right (c.later t hmem)
      simp [hne, hmax]

-- ============================================================ the schedule

/-- Time does not run backwards on the connection, up to `now`. -/
def Ordered (now : Int) : Prop :=
  (c.start :: c.since.filterMap time ++ [now]).Pairwise (· ≤ ·)

/-- The watchdog sleeps half the timeout at most between checks, the one
at `now` included. -/
def Paced (now : Int) : Prop :=
  (c.start :: c.since.filterMap checkTime ++ [now]).IsChain fun t t' =>
    ((t' - t : Int) : ℚ) / 1000000 ≤ config.heartbeatTimeoutS / 2

/-- The connection as it was at an earlier moment. -/
def upTo {es es' : List Event} (h : c.since = es ++ es') :
    Connection config publisher where
  before := c.before
  connecting := c.connecting
  start := c.start
  since := es
  onConnection := fun e he =>
    c.onConnection e (h ▸ List.mem_append_left _ he)
  later := fun t ht => by
    refine c.later t ?_
    rw [h, beats, List.filterMap_append]
    exact List.mem_append_left _ ht

end Connection

/-- A list of events has no check, or a last one. -/
theorem exists_last_check (es : List Event) :
    es.filterMap checkTime = []
      ∨ ∃ pre t post, es = pre ++ .tick t :: post
        ∧ post.filterMap checkTime = [] := by
  induction es with
  | nil => exact Or.inl rfl
  | cons e es ih =>
      rcases ih with hnil | ⟨pre, t, post, rfl, hpost⟩
      · cases hcheck : checkTime e with
        | none =>
            left
            rw [List.filterMap_cons, hcheck]
            exact hnil
        | some t =>
            right
            cases e with
            | tick now => exact ⟨[], now, es, rfl, hnil⟩
            | _ => cases hcheck
      · exact Or.inr ⟨e :: pre, t, post, rfl, hpost⟩

/-- A heartbeat has a time. -/
theorem time_of_beat {e : Event} {t : Int} (h : beat e = some t) :
    time e = some t := by
  cases e with
  | raw text now =>
      obtain ⟨message, -, hif⟩ := Option.bind_eq_some_iff.mp h
      split at hif
      · exact hif
      · cases hif
  | _ => cases h

namespace Connection

variable (c : Connection config publisher)

/-- The last sign of life is not before the start. -/
theorem start_le_heardAt (start : Int) (es : List Event) :
    start ≤ heardAt start es := by
  unfold heardAt
  split
  · exact le_rfl
  · exact Int.le_max_left _ _

/-- More events never put the last heartbeat further back. -/
theorem Ordered.heardAt_le {now : Int} (h : c.Ordered now)
    {es es' : List Event} (hsplit : c.since = es ++ es') :
    heardAt c.start es ≤ heardAt c.start c.since := by
  have htimes : (c.since.filterMap time).Pairwise (· ≤ ·) :=
    (List.pairwise_cons.mp (List.pairwise_append.mp h).1).2
  have hbeats : (beats c.since).Pairwise (· ≤ ·) := by
    unfold beats
    rw [List.pairwise_filterMap] at htimes ⊢
    exact htimes.imp fun hle t ht t' ht' =>
      hle t (time_of_beat ht) t' (time_of_beat ht')
  have happend : beats c.since = beats es ++ beats es' := by
    rw [hsplit]
    exact List.filterMap_append
  rw [happend] at hbeats
  obtain ⟨-, -, hle⟩ := List.pairwise_append.mp hbeats
  unfold heardAt
  rw [happend, List.getLast?_append]
  cases hlast' : (beats es').getLast? with
  | none => exact le_rfl
  | some t' =>
      cases hlast : (beats es).getLast? with
      | none => exact Int.le_max_left _ _
      | some t =>
          have htt' := hle t (List.mem_of_getLast? hlast) t'
            (List.mem_of_getLast? hlast')
          exact max_le_max le_rfl htt'

/-- An earlier check of a connection whose watchdog still sleeps was made
and did not raise. -/
theorem earlier (hwatch : c.state.phase = .consuming .sleeping)
    {pre post : List Event} {t : Int}
    (h : c.since = pre ++ .tick t :: post) :
    (c.upTo h).state.phase = .consuming .sleeping
      ∧ ¬(c.upTo h).Raises t := by
  have hes : ∀ e ∈ Event.tick t :: post, OnConnection e := fun e he =>
    c.onConnection e (h ▸ List.mem_append_right _ he)
  have hsplit : c.state
      = run config (c.upTo h).state (.tick t :: post) := by
    unfold state
    rw [h]
    exact run_append pre _ c.opened
  rw [hsplit] at hwatch
  obtain ⟨hsleep, -⟩ := watched _ _ hes hwatch
  obtain ⟨hnext, -⟩ := watched post _ (List.forall_mem_cons.mp hes).2 hwatch
  refine ⟨hsleep, fun hraises => ?_⟩
  unfold Raises at hraises
  simp only [step, hsleep] at hnext hraises
  rw [Phase.consuming.injEq] at hnext
  rw [hnext] at hraises
  cases hraises

/-- What is not silent is within the timeout. -/
theorem le_of_not_silent {last now : Int}
    (h : silent config last now = false) :
    ((now - last : Int) : ℚ) / 1000000 ≤ config.heartbeatTimeoutS := by
  rw [silent, decide_eq_false_iff_not, not_lt] at h
  exact h

/-- When every earlier check could tell, the silence a check finds is at
most the timeout and the half that may pass between two checks. The
check before found no silence over the timeout, and since then at most
half a timeout has passed; before the first check the connection itself
is no older than that half. -/
theorem silence_le (hwatch : c.state.phase = .consuming .sleeping)
    {now : Int} (hordered : c.Ordered now) (hpaced : c.Paced now)
    (hearlier : ∀ pre t post, c.since = pre ++ .tick t :: post →
      CanTell config c.start pre t) :
    ((now - heardAt c.start c.since : Int) : ℚ) / 1000000
      ≤ config.heartbeatTimeoutS + config.heartbeatTimeoutS / 2 := by
  rcases exists_last_check c.since with hnone | ⟨pre, t, post, h, hpost⟩
  · have hgap : ((now - c.start : Int) : ℚ) / 1000000
        ≤ config.heartbeatTimeoutS / 2 := by
      unfold Paced at hpaced
      rw [hnone] at hpaced
      simpa using hpaced
    have hstart : c.start ≤ now :=
      (List.pairwise_append.mp hordered).2.2 _ List.mem_cons_self _
        (List.mem_singleton_self _)
    have hheard := start_le_heardAt c.start c.since
    have hle : ((now - heardAt c.start c.since : Int) : ℚ)
        ≤ ((now - c.start : Int) : ℚ) := by
      exact_mod_cast (by omega : now - heardAt c.start c.since
        ≤ now - c.start)
    have hpos : (0 : ℚ) ≤ ((now - c.start : Int) : ℚ) := by
      exact_mod_cast (by omega : 0 ≤ now - c.start)
    linarith
  · have hgap : ((now - t : Int) : ℚ) / 1000000
        ≤ config.heartbeatTimeoutS / 2 := by
      have hchecks : c.since.filterMap checkTime
          = pre.filterMap checkTime ++ [t] := by
        rw [h, List.filterMap_append, List.filterMap_cons]
        simp only [checkTime, hpost]
      unfold Paced at hpaced
      rw [hchecks, List.cons_append, List.append_assoc,
        ← List.cons_append] at hpaced
      exact (List.isChain_append_cons_cons.mp hpaced).2.1
    obtain ⟨hsleep, hquiet⟩ := c.earlier hwatch h
    have hanswer := (answers_iff (c.upTo h) hsleep t).mpr
      (hearlier pre t post h)
    have hnot : silent config (heardAt c.start pre) t = false :=
      Bool.eq_false_iff.mpr fun hsilent => hquiet (hanswer.mpr hsilent)
    have hbefore := le_of_not_silent hnot
    have hmono := Ordered.heardAt_le c hordered h
    have hle : ((now - heardAt c.start c.since : Int) : ℚ)
        ≤ ((now - t : Int) : ℚ) + ((t - heardAt c.start pre : Int) : ℚ) := by
      exact_mod_cast (by omega : now - heardAt c.start c.since
        ≤ now - t + (t - heardAt c.start pre))
    linarith

end Connection

/-- Every check of every connection, after any run: it raises when it
should, and only then, exactly when a heartbeat was handled on the
connection or its start is no more than the timeout ago. And where this
held of the earlier checks, silence has outlasted the timeout by half of
it at most. -/
theorem stall_detected_iff (config : Config) (publisher : Publisher)
    (c : Connection config publisher)
    (hwatch : c.state.phase = .consuming .sleeping) (now : Int) :
    (c.Answers now ↔ Connection.CanTell config c.start c.since now)
      ∧ (c.Ordered now → c.Paced now →
        (∀ pre t post, c.since = pre ++ .tick t :: post →
          Connection.CanTell config c.start pre t) →
        ((now - heardAt c.start c.since : Int) : ℚ) / 1000000
          ≤ config.heartbeatTimeoutS + config.heartbeatTimeoutS / 2) :=
  ⟨c.answers_iff hwatch now, c.silence_le hwatch⟩

-- ============================================================ a dead feed

/-- A connection on which nothing arrives. -/
def deadFeed : Connection { products := ["BTC-USD"] } RecordingPublisher where
  before := [.enter]
  connecting := rfl
  start := 0
  since := []
  onConnection := by simp
  later := by simp [beats]

/-- After an hour of silence the check passes. -/
theorem dead_feed_is_not_noticed :
    deadFeed.state.phase = .consuming .sleeping
      ∧ ¬deadFeed.Answers 3600000000 := by
  refine ⟨rfl, fun h => ?_⟩
  have hsilent : silent { products := ["BTC-USD"] } 0 3600000000 = true := by
    decide +kernel
  have hraises : deadFeed.Raises 3600000000 := h.mpr hsilent
  cases hraises

/-- A connection on which one heartbeat arrives, and a check passes. -/
def fadingFeed : Connection { products := ["BTC-USD"] }
    RecordingPublisher where
  before := [.enter]
  connecting := rfl
  start := 0
  since := [.raw heartbeatText 1000000, .tick 5000000]
  onConnection := by simp [OnConnection]
  later := by decide +kernel

theorem stall_detected_iff_fading : fadingFeed.Answers 12000000 := by
  have hbeats : beats fadingFeed.since ≠ [] := by decide +kernel
  have hwatch : fadingFeed.state.phase = .consuming .sleeping := by
    decide +kernel
  exact (stall_detected_iff _ _ fadingFeed hwatch 12000000).1.mpr
    (Or.inl hbeats)

end MarketPlatform.Consumer.WebSocketConsumer
