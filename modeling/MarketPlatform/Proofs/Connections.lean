/-
The life of the consumer: one connection after another.

# Sessions

`run` opens a connection, reads it, leaves it, resets the handler and
sleeps, until it is told to stop. A connection that has ended is a
session: what its opening and its `on_disconnect` enclose. The acts of
any run are sessions, one after another, and then the part of one that
has not ended, and both counters of reconnects count the sessions that
have (`sessions_run`).

The invariant is `Lived`. It holds the sessions so far beside the
consumer, and says of each phase what it knows of the session that has
not ended (`Open`): there is none at the top of the loop and in the
backoff, it is empty while connecting, and it has no stall as long as
the watchdog has not raised. A step appends its acts to that session, or
ends it (`Lived.goes_on`, `Lived.ends`).

# Stopping

Once told to stop the consumer handles nothing more and is at most three
steps from the return of `run` (`stop_drains`). `stepsLeft` is the
measure of the way out, and every step that moves the consumer to
another phase lowers it.
-/
import MarketPlatform.Proofs.Feed
import MarketPlatform.Proofs.Moves

namespace MarketPlatform.Consumer

open Lib EStateM

-- ============================================== counters no message moves

namespace MessageHandler

/-- A function of the counters that no part of a handler moves. -/
theorem leaves_of_counters {β : Type} {f : Counters → β}
    (received : ∀ c channel, f (c.recordMessage channel) = f c)
    (recordLag : ∀ c lag, f (c.recordLag lag) = f c)
    (observed : ∀ c o, f (countObservation c o) = f c)
    (ahead : ∀ c gaps lost, f { c with
      heartbeatDetectedGapsTotal := gaps, messagesLostTotal := lost } = f c)
    (crossed : ∀ c n, f { c with crossedBooksTotal := n } = f c) :
    Leaves fun h => f h.counters where
  received := fun channel => Frame.of_modify fun h => received _ channel
  recordLag := fun lag => Frame.of_modify fun h => recordLag _ lag
  beat := fun _ => Frame.of_modify fun _ => rfl
  onBook := fun p x h => by
    obtain ⟨books, hbooks⟩ := state_onBook p x h
    rw [hbooks]
  trackContinuity := fun p v h => by
    rw [run_trackContinuity]
    exact observed _ _
  trackHeartbeat := fun p v h => by
    rw [run_trackHeartbeat]
    unfold heartbeatTracked
    simp only [Result.state_ok]
    split
    · rfl
    · split
      · exact ahead _ _ _
      · rfl
  checkCrossed := fun p h => by
    rw [state_checkCrossed]
    unfold crossChecked
    split
    · exact crossed _ _
    · rfl

/-- The two counts of the connections that have ended. -/
def ends (h : MessageHandler) : Int × Int :=
  (h.counters.websocketReconnectsTotal, h.counters.bookResetsTotal)

/-- No message moves them. -/
theorem ends_handle (msg : Json) (t : Int) (h : MessageHandler) :
    ((handle msg t).run h).state.ends = h.ends := by
  have hπ : Leaves ends := by
    refine leaves_of_counters
      (f := fun c => (c.websocketReconnectsTotal, c.bookResetsTotal))
      (fun _ _ => rfl) (fun _ _ => rfl) (fun c o => ?_) (fun _ _ _ => rfl)
      fun _ _ => rfl
    unfold countObservation
    split <;> rfl
  have hJ : PassesOver ends (Frame ends) := by
    refine ⟨Frame.bind, fun m h => ?_, fun _ h => h⟩
    rw [run_publish]
    split <;> rfl
  exact hJ.handle hπ msg t h

end MessageHandler

-- ==================================================================== acts

/-- What a connection is seen to do between its two ends. -/
def Act.inside : Act → Bool
  | .handled _ _ => true
  | .stalled => true
  | .opening => false
  | .disconnected => false

/-- The watchdog raises. -/
def Act.stall : Act → Bool
  | .stalled => true
  | _ => false

/-- A connection attempt begins. -/
def Act.opens : Act → Bool
  | .opening => true
  | _ => false

/-- A connection ends. -/
def Act.disconnects : Act → Bool
  | .disconnected => true
  | _ => false

namespace WebSocketConsumer

open MessageHandler

variable (config : Config)

-- ================================================================ sessions

/-- The acts of one connection: messages handled, and at most one
stall. -/
structure Session (inner : List Act) : Prop where
  inside : ∀ a ∈ inner, a.inside = true
  stalls : inner.countP Act.stall ≤ 1

/-- A connection on which nothing happens. -/
theorem session_nil : Session [] := ⟨by simp, by simp⟩

/-- One more act inside the connection. -/
theorem Session.append {inner : List Act} (h : Session inner) {a : Act}
    (hinside : a.inside = true)
    (hstalls : (inner ++ [a]).countP Act.stall ≤ 1) :
    Session (inner ++ [a]) := by
  refine ⟨fun b hb => ?_, hstalls⟩
  rcases List.mem_append.mp hb with hb | hb
  · exact h.inside b hb
  · rw [List.mem_singleton.mp hb]
    exact hinside

/-- A message handled is no stall. -/
theorem stalls_handled (inner : List Act) (message : Json) (now : Int) :
    (inner ++ [Act.handled message now]).countP Act.stall
      = inner.countP Act.stall := by
  simp [List.countP_append, Act.stall]

/-- A message is handled. -/
theorem Session.handled {inner : List Act} (h : Session inner)
    (message : Json) (now : Int) :
    Session (inner ++ [.handled message now]) :=
  h.append rfl ((stalls_handled inner message now).trans_le h.stalls)

/-- The watchdog raises, for the first time. -/
theorem Session.stalled {inner : List Act} (h : Session inner)
    (hnone : inner.countP Act.stall = 0) :
    Session (inner ++ [.stalled]) :=
  h.append rfl (by simp [List.countP_append, hnone, Act.stall])

/-- The sessions of a run, and the one that has not ended. -/
structure Sessions where
  ended : List (List Act) := []
  current : Option (List Act) := none

/-- The acts the sessions are made of. -/
def Sessions.acts (h : Sessions) : List Act :=
  h.ended.flatMap (fun inner => .opening :: inner ++ [.disconnected])
    ++ h.current.elim [] fun inner => .opening :: inner

/-- What each phase says of the session that has not ended. -/
def Open : Phase → Option (List Act) → Prop
  | .top, current => current = none
  | .backingOff, current => current = none
  | .connecting, current => current = some []
  | .consuming w, current => ∃ inner, current = some inner ∧ Session inner
      ∧ (inner.countP Act.stall = 0 ∨ w = .raised)
  | .leaving _ _, current => ∃ inner, current = some inner ∧ Session inner
  | .exited, current => ∀ inner, current = some inner → Session inner

/-- The sessions and the consumer that has been through them. -/
structure Lived (h : Sessions) (s : WebSocketConsumer) : Prop where
  ended : ∀ inner ∈ h.ended, Session inner
  current : Open s.phase h.current
  reconnects : s.handler.counters.websocketReconnectsTotal = h.ended.length
  resets : s.handler.counters.bookResetsTotal = h.ended.length

/-- The session goes on: nothing ends, and the acts are appended. -/
theorem Lived.goes_on {h : Sessions} {s s' : WebSocketConsumer}
    {acts : List Act} (hl : Lived h s) (current : Option (List Act))
    (hends : s'.handler.ends = s.handler.ends)
    (hopen : Open s'.phase current)
    (hacts : current.elim [] (fun inner => Act.opening :: inner)
      = h.current.elim [] (fun inner => .opening :: inner) ++ acts) :
    ∃ h' : Sessions, h'.acts = h.acts ++ acts ∧ Lived h' s' := by
  obtain ⟨hreconnects, hresets⟩ := Prod.mk.inj hends
  refine ⟨⟨h.ended, current⟩, ?_, hl.ended, hopen, ?_, ?_⟩
  · simp only [Sessions.acts, List.append_assoc, hacts]
  · exact hreconnects.trans hl.reconnects
  · exact hresets.trans hl.resets

/-- The session ends: both counters count it. -/
theorem Lived.ends {h : Sessions} {s s' : WebSocketConsumer}
    {raised : Bool} {w : Option Watchdog} (hl : Lived h s)
    (hleaving : s.phase = .leaving raised w)
    (hhandler : s'.handler = reconnected s.handler)
    (hphase : s'.phase = .exited ∨ s'.phase = .backingOff) :
    ∃ h' : Sessions, h'.acts = h.acts ++ [.disconnected] ∧ Lived h' s' := by
  have hopen := hl.current
  rw [hleaving] at hopen
  obtain ⟨inner, hcurrent, hinner⟩ := hopen
  refine ⟨⟨h.ended ++ [inner], none⟩, ?_, ?_, ?_, ?_, ?_⟩
  · simp [Sessions.acts, hcurrent]
  · intro inner' hmem
    rcases List.mem_append.mp hmem with hmem | hmem
    · exact hl.ended _ hmem
    · rw [List.mem_singleton.mp hmem]
      exact hinner
  · rcases hphase with hphase | hphase <;> rw [hphase]
    · exact fun _ hsome => by cases hsome
    · rfl
  · rw [hhandler]
    simp [reconnected, onDisconnect, withCounters, hl.reconnects]
  · rw [hhandler]
    simp [reconnected, onDisconnect, withCounters, hl.resets]

/-- One step: the acts go into the open session, or end it. By cases on
the moves; a step within a connection keeps both counters, since no
message moves them (`ends_handle`). -/
theorem Lived.moves {h : Sessions} {s s' : WebSocketConsumer} {e : Event}
    {acts : List Act} (hl : Lived h s) (hm : Moves config s e s' acts) :
    ∃ h' : Sessions, h'.acts = h.acts ++ acts ∧ Lived h' s' := by
  have hopen := hl.current
  cases hm with
  | idle e unable => exact ⟨h, (List.append_nil _).symm, hl⟩
  | stops => exact hl.goes_on h.current rfl hopen (List.append_nil _).symm
  | returns phase stopping =>
      rw [phase] at hopen
      refine hl.goes_on h.current rfl ?_ (List.append_nil _).symm
      intro inner hsome
      rw [hopen] at hsome
      cases hsome
  | opens phase going =>
      rw [phase] at hopen
      refine hl.goes_on (some []) rfl rfl ?_
      rw [hopen]
      rfl
  | connects w phase task =>
      rw [phase] at hopen
      refine hl.goes_on h.current rfl ?_ (List.append_nil _).symm
      exact ⟨[], hopen, session_nil, Or.inl rfl⟩
  | refused phase =>
      rw [phase] at hopen
      refine hl.goes_on h.current rfl ?_ (List.append_nil _).symm
      exact ⟨[], hopen, session_nil⟩
  | abandons text now raised w phase =>
      rw [phase] at hopen
      obtain ⟨inner, hcurrent, hinner, -⟩ := hopen
      exact hl.goes_on h.current rfl ⟨inner, hcurrent, hinner⟩
        (List.append_nil _).symm
  | handles text now message w after phase going decoded goes =>
      rw [phase] at hopen
      obtain ⟨inner, hcurrent, hinner, hstalls⟩ := hopen
      refine hl.goes_on (some (inner ++ [.handled message now]))
        (ends_handle message now s.handler) ?_ ?_
      · rw [goes]
        split
        · exact ⟨_, rfl, hinner.handled message now,
            hstalls.imp_left (stalls_handled inner message now).trans⟩
        · exact ⟨_, rfl, hinner.handled message now⟩
      · rw [hcurrent]
        rfl
  | checks now w acts phase seen =>
      rw [phase] at hopen
      obtain ⟨inner, hcurrent, hinner, hstalls⟩ := hopen
      have hnone : inner.countP Act.stall = 0 :=
        hstalls.resolve_right (by decide)
      by_cases hw : w = .raised
      · rw [if_pos hw] at seen
        subst seen
        refine hl.goes_on (some (inner ++ [.stalled])) rfl
          ⟨_, rfl, hinner.stalled hnone, Or.inr hw⟩ ?_
        rw [hcurrent]
        rfl
      · rw [if_neg hw] at seen
        subst seen
        exact hl.goes_on h.current rfl
          ⟨inner, hcurrent, hinner, Or.inl hnone⟩ (List.append_nil _).symm
  | closes error w phase =>
      rw [phase] at hopen
      obtain ⟨inner, hcurrent, hinner, -⟩ := hopen
      exact hl.goes_on h.current rfl ⟨inner, hcurrent, hinner⟩
        (List.append_nil _).symm
  | breaks raised w phase stopping =>
      rw [phase] at hopen
      obtain ⟨inner, hcurrent, hinner⟩ := hopen
      refine hl.goes_on h.current rfl ?_ (List.append_nil _).symm
      intro inner' hsome
      rw [hcurrent] at hsome
      obtain rfl := Option.some.inj hsome
      exact hinner
  | ends raised w after phase goes =>
      refine hl.ends phase rfl ?_
      rw [goes]
      split
      · exact Or.inl rfl
      · exact Or.inr rfl
  | wakes phase =>
      rw [phase] at hopen
      exact hl.goes_on h.current rfl hopen
        (List.append_nil _).symm

/-- Any run is sessions, one after another, then the part of one that has
not ended; the reconnects and the book resets counted are the sessions
that have ended. -/
theorem sessions_run (publisher : Publisher) (es : List Event) :
    ∃ h : Sessions, h.acts = trace config (new config publisher) es
      ∧ Lived h (run config (new config publisher) es) := by
  have hnew : ∃ h : Sessions, h.acts = []
      ∧ Lived h (new config publisher) :=
    ⟨{}, rfl, by simp, rfl, rfl, rfl⟩
  refine run_induction config
    (I := fun seen s => ∃ h : Sessions, h.acts = seen ∧ Lived h s)
    (fun s e s' acts seen hm hI => ?_) es hnew
  obtain ⟨h, rfl, hl⟩ := hI
  exact hl.moves config hm

-- =============================================================== stopping

/-- The steps on the way out that are left, once the consumer is
stopping. -/
def stepsLeft : Phase → Nat
  | .exited => 0
  | .top => 1
  | .leaving _ _ => 1
  | .backingOff => 2
  | .consuming w => if w = .sleeping then 3 else 2
  | .connecting => 3

/-- The calls of `on_disconnect` that are left. -/
def endsLeft : Phase → Nat
  | .connecting => 1
  | .consuming _ => 1
  | .leaving _ _ => 1
  | _ => 0

/-- A step of a consumer that is stopping: it goes on stopping, handles and
opens nothing, publishes nothing, and a step that moves it leaves fewer. -/
structure Drains (s s' : WebSocketConsumer) (acts : List Act) : Prop where
  stopping : s'.stopping = true
  seen : ∀ a ∈ acts, a.stall = true ∨ a.disconnects = true
  sent : s'.handler.sent = s.handler.sent
  ends : acts.countP Act.disconnects + endsLeft s'.phase ≤ endsLeft s.phase
  steps : s'.phase = s.phase ∨ stepsLeft s'.phase < stepsLeft s.phase

/-- A step of a stopping consumer. By cases on the moves: those that
open, handle or publish need a consumer that is not stopping. -/
theorem drains_step {s s' : WebSocketConsumer} {e : Event}
    {acts : List Act} (hm : Moves config s e s' acts)
    (hstop : s.stopping = true) : Drains s s' acts := by
  cases hm with
  | idle e unable => exact ⟨hstop, by simp, rfl, by simp, Or.inl rfl⟩
  | stops => exact ⟨rfl, by simp, rfl, by simp, Or.inl rfl⟩
  | returns phase stopping =>
      exact ⟨hstop, by simp, rfl, by simp [endsLeft],
        Or.inr (by simp [phase, stepsLeft])⟩
  | opens phase going => rw [hstop] at going; cases going
  | connects w phase task =>
      rw [if_pos hstop] at task
      exact ⟨hstop, by simp, rfl, by simp [phase, endsLeft],
        Or.inr (by simp [phase, task, stepsLeft])⟩
  | refused phase =>
      exact ⟨hstop, by simp, rfl, by simp [phase, endsLeft],
        Or.inr (by simp [phase, stepsLeft])⟩
  | abandons text now raised w phase =>
      refine ⟨hstop, by simp, rfl, by simp [phase, endsLeft], Or.inr ?_⟩
      cases w <;> simp [phase, stepsLeft]
  | handles text now message w after phase going decoded goes =>
      rw [hstop] at going
      cases going
  | checks now w acts phase seen =>
      refine ⟨hstop, ?_, rfl, ?_, ?_⟩
      · rw [seen]
        split <;> simp [Act.stall]
      · rw [seen]
        split <;> simp [phase, endsLeft, Act.disconnects]
      · cases w <;> simp [phase, stepsLeft]
  | closes error w phase =>
      refine ⟨hstop, by simp, rfl, by simp [phase, endsLeft], Or.inr ?_⟩
      cases w <;> simp [phase, stepsLeft]
  | breaks raised w phase stopping =>
      exact ⟨hstop, by simp, rfl, by simp [endsLeft],
        Or.inr (by simp [phase, stepsLeft])⟩
  | ends raised w after phase goes =>
      rw [if_pos hstop] at goes
      subst goes
      exact ⟨hstop, by simp [Act.disconnects], rfl,
        by simp [phase, endsLeft, Act.disconnects],
        Or.inr (by simp [phase, stepsLeft])⟩
  | wakes phase =>
      exact ⟨hstop, by simp, rfl, by simp [endsLeft],
        Or.inr (by simp [phase, stepsLeft])⟩

/-- The steps of a run that move the consumer to another phase. -/
def moved (s : WebSocketConsumer) : List Event → Nat
  | [] => 0
  | e :: es =>
      (if (step config s e).1.phase = s.phase then 0 else 1)
        + moved (step config s e).1 es

/-- Whatever phase a stopping consumer is in, there is an event that takes
it on, until `run` has returned. -/
theorem exists_able (s : WebSocketConsumer) (hstop : s.stopping = true) :
    s.phase = .exited ∨ ∃ e, (step config s e).1.phase ≠ s.phase := by
  cases hph : s.phase with
  | top => exact Or.inr ⟨.enter, by simp [step, hph, hstop]⟩
  | connecting => exact Or.inr ⟨.connected false, by simp [step, hph]⟩
  | consuming w => exact Or.inr ⟨.closed false, by simp [step, hph]⟩
  | leaving raised w =>
      refine Or.inr ⟨.unwind, ?_⟩
      simp only [step, hph, unwind]
      split <;> simp
  | backingOff => exact Or.inr ⟨.wake, by simp [step, hph]⟩
  | exited => exact Or.inl rfl

/-- The steps of a run, added up. -/
theorem drains_run (es : List Event) {s : WebSocketConsumer}
    (hstop : s.stopping = true) :
    (run config s es).stopping = true
      ∧ (∀ a ∈ trace config s es, a.stall = true ∨ a.disconnects = true)
      ∧ (run config s es).handler.sent = s.handler.sent
      ∧ (trace config s es).countP Act.disconnects ≤ endsLeft s.phase
      ∧ moved config s es ≤ stepsLeft s.phase := by
  induction es generalizing s with
  | nil => exact ⟨hstop, by simp [trace], rfl, by simp [trace], by simp [moved]⟩
  | cons e es ih =>
      have hd := drains_step config (moves_step config s e) hstop
      obtain ⟨hstop', hacts, hsent, hends, hsteps⟩ := ih hd.stopping
      have hends' := hd.ends
      refine ⟨hstop', fun a ha => ?_, hsent.trans hd.sent, ?_, ?_⟩
      · rw [trace] at ha
        exact (List.mem_append.mp ha).elim (hd.seen a) (hacts a)
      · rw [trace, List.countP_append]
        omega
      · rw [moved]
        rcases hd.steps with hsame | hless
        · rw [if_pos hsame, ← hsame]
          omega
        · split <;> omega

/-- Once the consumer has been told to stop, whatever happens next it
handles and publishes nothing more and opens no connection, it ends at
most the connection it is in, and it is at most three steps from the
return of `run`: a step that takes it on is there until then. -/
theorem stop_drains (publisher : Publisher) (es es' : List Event) :
    let s := run config (new config publisher) (es ++ [.stop])
    (∀ a ∈ trace config s es', a.stall = true ∨ a.disconnects = true)
      ∧ (trace config s es').countP Act.disconnects ≤ 1
      ∧ (run config s es').handler.sent = s.handler.sent
      ∧ moved config s es' ≤ 3
      ∧ ((run config s es').phase = .exited
        ∨ ∃ e, (step config (run config s es') e).1.phase
          ≠ (run config s es').phase) := by
  intro s
  have hstop : s.stopping = true := by
    show (run config (new config publisher) (es ++ [.stop])).stopping = true
    generalize new config publisher = t
    induction es generalizing t with
    | nil => rfl
    | cons e es ih => exact ih _
  obtain ⟨hstop', hacts, hsent, hends, hsteps⟩ := drains_run config es' hstop
  have hends' : endsLeft s.phase ≤ 1 := by
    cases s.phase <;> simp [endsLeft]
  have hsteps' : stepsLeft s.phase ≤ 3 := by
    cases s.phase with
    | consuming w => cases w <;> simp [stepsLeft]
    | _ => simp [stepsLeft]
  exact ⟨hacts, hends.trans hends', hsent, hsteps.trans hsteps',
    exists_able config _ hstop'⟩

end WebSocketConsumer

end MarketPlatform.Consumer
