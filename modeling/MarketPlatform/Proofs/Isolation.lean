/-
Connection isolation: derived state never outlives its connection.

The derived state is what continuity, readiness and staleness are judged
by: every book's levels and ready flag, the continuity baselines and the
time of the last heartbeat. `derived_run` says that at every point of
every run of the consumer it is that of a brand-new handler given the
texts the socket has yielded on the open connection, and nothing else.

# Two handlers, one message

`handle` is a function of the derived state: two handlers with one
derived state stay together on every message, however the message ends,
whatever their counters and publishers (`tracks_handle`). The argument is
a two-run one, statement by statement (`Lockstep`). Publishing is the
exception: it may raise in one run and not in the other, but it is the
last statement of its handler and leaves the derived state alone, so
handlers only track each other (`Tracks`).

# What a connection is

The comparison is with the texts themselves, not with what the consumer
is seen to do of them: `heard` collects what the socket yields to the
reader, from the consumer's phase and the event alone, and `hear` decodes
and handles a text as `async for` does. A text that is no JSON ends the
connection, and a message that raises ends it half-way: either is the
last text of its connection, and what was handled of it counts. From
`stop()` on the reader handles nothing, so nothing is collected.

# The run

`Isolated` is the invariant: the handler agrees with the new one given
the texts of the open connection, and between connections there are none.
Every step keeps it (`isolated_step`), because the only ways back to a
new connection go through `on_disconnect`, which sets the derived state
back to a new handler's (`Agree.onDisconnect`).
-/
import MarketPlatform.Consumer.WsClient
import MarketPlatform.Proofs.Books
import MarketPlatform.Proofs.Handling

namespace MarketPlatform.Consumer

open Lib EStateM

-- ======================================================== derived state

/-- The derived state of a handler. -/
structure Derived where
  books : String → Option (Levels × Levels × Bool)
  baselines : String → Option Int
  lastHeartbeatAt : Option Int

namespace MessageHandler

def derived (h : MessageHandler) : Derived where
  books := fun p => (h.books p).map OrderBook.derived
  baselines := h.continuity.last
  lastHeartbeatAt := h.lastHeartbeatAt

/-- What a handler becomes on one text of the socket. A text that cannot
be decoded never reaches it; a message that raises leaves what was done
of it so far. -/
def hear (h : MessageHandler) (x : String × Int) : MessageHandler :=
  match Json.loads x.1 with
  | some message => ((handle message x.2).run h).state
  | none => h

/-- What a handler becomes on texts, one after the other, each with the
time it is handled at. -/
def hearAll (h : MessageHandler) (xs : List (String × Int)) :
    MessageHandler :=
  xs.foldl hear h

theorem hearAll_concat (h : MessageHandler) (xs : List (String × Int))
    (x : String × Int) : h.hearAll (xs ++ [x]) = (h.hearAll xs).hear x := by
  rw [hearAll, hearAll, List.foldl_append]
  rfl

end MessageHandler

-- =============================================== two handlers, one message

namespace MessageHandler

open OrderBook (Same)

variable {products : List String}

/-- Two handlers of the same products with one derived state. -/
structure Agree (products : List String) (h k : MessageHandler) :
    Prop where
  derived : h.derived = k.derived
  covers : ∀ p, (h.books p).isSome = decide (p ∈ products)

theorem Agree.books {h k : MessageHandler} (hk : Agree products h k)
    (p : String) :
    (h.books p).map OrderBook.derived = (k.books p).map OrderBook.derived :=
  congrFun (congrArg Derived.books hk.derived) p

theorem Agree.last {h k : MessageHandler} (hk : Agree products h k) :
    h.continuity.last = k.continuity.last :=
  congrArg Derived.baselines hk.derived

theorem Agree.beat {h k : MessageHandler} (hk : Agree products h k) :
    h.lastHeartbeatAt = k.lastHeartbeatAt :=
  congrArg Derived.lastHeartbeatAt hk.derived

theorem derived_eq {h k : MessageHandler}
    (hbooks : ∀ p, (h.books p).map OrderBook.derived
      = (k.books p).map OrderBook.derived)
    (hlast : h.continuity.last = k.continuity.last)
    (hbeat : h.lastHeartbeatAt = k.lastHeartbeatAt) :
    h.derived = k.derived := by
  simp only [MessageHandler.derived, hlast, hbeat, funext hbooks]

theorem Agree.withCounters {h k : MessageHandler}
    (hk : Agree products h k) (f g : Counters → Counters) :
    Agree products (h.withCounters f) (k.withCounters g) :=
  ⟨hk.derived, hk.covers⟩

/-- An observation moves agreeing baselines to agreeing baselines. -/
theorem Agree.observe {h k : MessageHandler} (hk : Agree products h k) (p : String)
    (v : Int) : (h.continuity.observe p v).1.last
      = (k.continuity.observe p v).1.last := by
  rw [ContinuityTracker.last_observe, ContinuityTracker.last_observe,
    hk.last]

theorem Agree.tracked {h k : MessageHandler} (hk : Agree products h k) (p : String)
    (v : Int) : Agree products (h.tracked p v) (k.tracked p v) :=
  ⟨derived_eq hk.books (hk.observe p v) hk.beat, hk.covers⟩

theorem Agree.heartbeatTracked {h k : MessageHandler} (hk : Agree products h k)
    (p : String) (v : Int) :
    Agree products (h.heartbeatTracked p v) (k.heartbeatTracked p v) := by
  have hseen : h.continuity.lastSeen p = k.continuity.lastSeen p :=
    congrFun hk.last p
  unfold MessageHandler.heartbeatTracked
  rw [hseen]
  cases k.continuity.lastSeen p with
  | none => exact hk
  | some seen =>
      by_cases hv : v > seen
      · simp only [if_pos hv]
        exact ⟨derived_eq hk.books (hk.observe p v) hk.beat, hk.covers⟩
      · simpa only [if_neg hv] using hk

/-- Writing back books that agree. -/
theorem Agree.put {h k : MessageHandler} (hk : Agree products h k)
    {p : String} (hp : (h.books p).isSome) {b c : OrderBook}
    (hbc : Same Eq b c) :
    Agree products { h with books := h.books.put p b }
      { k with books := k.books.put p c } := by
  refine ⟨derived_eq (fun q => ?_) hk.last hk.beat, fun q => ?_⟩
  · by_cases hq : q = p
    · simpa only [BookSet.put, if_pos hq, Option.map_some] using
        congrArg some (OrderBook.same_eq_iff.mp hbc)
    · simpa only [BookSet.put, if_neg hq] using hk.books q
  · by_cases hq : q = p
    · rw [← hk.covers, hq, hp]
      simp only [BookSet.put, if_true, Option.isSome_some]
    · simpa only [BookSet.put, if_neg hq] using hk.covers q

/-- The books a product has in the two handlers: none, or two alike. -/
theorem Agree.book {h k : MessageHandler} (hk : Agree products h k)
    (p : String) : (h.books p = none ∧ k.books p = none)
      ∨ ∃ b c, h.books p = some b ∧ k.books p = some c ∧ Same Eq b c := by
  have hp := hk.books p
  cases hb : h.books p with
  | none =>
      cases hc : k.books p with
      | none => exact .inl ⟨rfl, rfl⟩
      | some c => simp [hb, hc] at hp
  | some b =>
      cases hc : k.books p with
      | none => simp [hb, hc] at hp
      | some c =>
          have hbc : Same Eq b c := by
            simpa [hb, hc, OrderBook.same_eq_iff] using hp
          exact .inr ⟨b, c, rfl, rfl, hbc⟩

/-- A program of the book, in lockstep with itself, is one of the
handler. -/
theorem lockstep_onBook (p : String) {x : EStateM Exc OrderBook Unit}
    (hx : Lockstep (Same Eq) x x) :
    Lockstep (Agree products) (onBook p x) (onBook p x) := by
  intro h k hk
  rw [run_onBook, run_onBook]
  obtain ⟨hb, hc⟩ | ⟨b, c, hb, hc, hbc⟩ := hk.book p
  · rw [hb, hc]
    exact ⟨rfl, hk⟩
  · rw [hb, hc]
    have hb' : (h.books p).isSome := by rw [hb]; rfl
    have hrun := hx b c hbc
    cases hxb : x.run b with
    | ok a b' =>
        cases hxc : x.run c with
        | ok a' c' =>
            rw [hxb, hxc] at hrun
            simp only [hxb, hxc]
            exact ⟨rfl, hk.put hb' hrun.2⟩
        | error e c' => rw [hxb, hxc] at hrun; exact hrun.elim
    | error e b' =>
        cases hxc : x.run c with
        | ok a' c' => rw [hxb, hxc] at hrun; exact hrun.elim
        | error e' c' =>
            rw [hxb, hxc] at hrun
            simp only [hxb, hxc]
            exact ⟨hrun.1, hk.put hb' hrun.2⟩

theorem lockstep_withCounters (f : Counters → Counters) :
    Lockstep (Agree products) (modify fun h => h.withCounters f : Handling)
      (modify fun h => h.withCounters f) :=
  Lockstep.of_modify fun _ _ hk => hk.withCounters f f

theorem lockstep_trackContinuity (p : String) (v : Int) :
    Lockstep (Agree products) (trackContinuity p v) (trackContinuity p v) := by
  intro h k hk
  rw [run_trackContinuity, run_trackContinuity]
  exact ⟨rfl, hk.tracked p v⟩

theorem lockstep_trackHeartbeat (p : String) (v : Int) :
    Lockstep (Agree products) (trackHeartbeat p v) (trackHeartbeat p v) := by
  intro h k hk
  rw [run_trackHeartbeat, run_trackHeartbeat]
  exact ⟨rfl, hk.heartbeatTracked p v⟩

theorem lockstep_checkCrossed (p : String) :
    Lockstep (Agree products) (checkCrossed p) (checkCrossed p) := by
  intro h k hk
  have hquote : (h.books p).map OrderBook.quote
      = (k.books p).map OrderBook.quote := by
    obtain ⟨hb, hc⟩ | ⟨b, c, hb, hc, hbc⟩ := hk.book p
    · rw [hb, hc]
    · rw [hb, hc]
      exact congrArg some hbc.quote
  unfold checkCrossed
  rw [run_bind, run_get, run_bind, run_get]
  simp only [hquote]
  cases (k.books p).map OrderBook.quote with
  | none => exact Lockstep.of_throw Exc.keyError h k hk
  | some q =>
      cases q with
      | ok q => exact Lockstep.of_pure () h k hk
      | error e =>
          cases e with
          | crossedBookError =>
              exact ((lockstep_withCounters _).bind fun _ =>
                Lockstep.of_pure ()) h k hk
          | _ => exact Lockstep.of_throw _ h k hk

theorem lockstep_beat (t : Int) :
    Lockstep (Agree products)
      (modify fun h => { h with lastHeartbeatAt := some t } : Handling)
      (modify fun h => { h with lastHeartbeatAt := some t }) := by
  have hset : ∀ h k : MessageHandler, Agree products h k →
      Agree products { h with lastHeartbeatAt := some t }
        { k with lastHeartbeatAt := some t } :=
    fun h k hk => ⟨derived_eq hk.books hk.last rfl, hk.covers⟩
  exact Lockstep.of_modify hset

/-- Publishing leaves the derived state alone, raise or not. -/
theorem tracks_publish (m : Published) :
    Tracks (Agree products) (publish m) (publish m) := by
  intro h k hk
  have hframe : ∀ h : MessageHandler, ((publish m).run h).state
      = { h with publisher := h.publisher.publish m } := by
    intro h
    rw [run_publish]
    split <;> rfl
  rw [hframe, hframe]
  exact ⟨hk.derived, hk.covers⟩

theorem tracks_handleMatch (msg : Json) (t : Int) :
    Tracks (Agree products) (handleMatch msg t) (handleMatch msg t) := by
  refine (Lockstep.of_attempt _).tracks_bind fun p => ?_
  refine (lockstep_withCounters _).tracks_bind fun _ => ?_
  refine (Lockstep.of_attempt _).tracks_bind fun v => ?_
  refine (lockstep_trackContinuity p v).tracks_bind fun _ => ?_
  refine (Lockstep.of_attempt _).tracks_bind fun time => ?_
  refine (Lockstep.of_attempt _).tracks_bind fun lag => ?_
  refine (lockstep_withCounters _).tracks_bind fun _ => ?_
  -- the fields still to read, then the publish
  refine (Lockstep.of_attempt _).tracks_bind fun sequence => ?_
  refine (Lockstep.of_attempt _).tracks_bind fun price => ?_
  refine (Lockstep.of_attempt _).tracks_bind fun size => ?_
  refine (Lockstep.of_attempt _).tracks_bind fun side => ?_
  refine (Lockstep.of_attempt _).tracks_bind fun maker => ?_
  refine (Lockstep.of_attempt _).tracks_bind fun taker => ?_
  exact tracks_publish _

theorem tracks_handleSnapshot (msg : Json) (t : Int) :
    Tracks (Agree products) (handleSnapshot msg t) (handleSnapshot msg t) := by
  refine (Lockstep.of_attempt _).tracks_bind fun p => ?_
  refine (lockstep_withCounters _).tracks_bind fun _ => ?_
  refine (Lockstep.of_attempt _).tracks_bind fun bids => ?_
  refine (Lockstep.of_attempt _).tracks_bind fun asks => ?_
  refine (lockstep_onBook p
    (OrderBook.lockstep_applySnapshot bids asks)).tracks_bind fun _ => ?_
  refine (Lockstep.of_attempt _).tracks_bind fun sequence => ?_
  exact tracks_publish _

theorem tracks_handleL2update (msg : Json) (t : Int) :
    Tracks (Agree products) (handleL2update msg t) (handleL2update msg t) := by
  refine (Lockstep.of_attempt _).tracks_bind fun p => ?_
  refine (lockstep_withCounters _).tracks_bind fun _ => ?_
  refine (Lockstep.of_attempt _).tracks_bind fun changes => ?_
  refine (lockstep_onBook p
    (OrderBook.lockstep_applyUpdates changes)).tracks_bind fun _ => ?_
  refine (lockstep_checkCrossed p).tracks_bind fun _ => ?_
  refine (Lockstep.of_attempt _).tracks_bind fun time => ?_
  refine (Lockstep.of_attempt _).tracks_bind fun sequence => ?_
  exact tracks_publish _

theorem tracks_handleHeartbeat (msg : Json) (t : Int) :
    Tracks (Agree products) (handleHeartbeat msg t) (handleHeartbeat msg t) := by
  refine (Lockstep.of_attempt _).tracks_bind fun p => ?_
  refine (lockstep_withCounters _).tracks_bind fun _ => ?_
  refine (lockstep_beat t).tracks_bind fun _ => ?_
  refine (Lockstep.of_attempt _).tracks_bind fun v => ?_
  refine (lockstep_trackHeartbeat p v).tracks_bind fun _ => ?_
  refine (Lockstep.of_attempt _).tracks_bind fun sequence => ?_
  refine (Lockstep.of_attempt _).tracks_bind fun time => ?_
  exact tracks_publish _

/-- Handlers with one derived state stay together on every message. -/
theorem tracks_handle (msg : Json) (t : Int) :
    Tracks (Agree products) (handle msg t) (handle msg t) := by
  refine (Lockstep.of_attempt _).tracks_bind fun type => ?_
  cases msgType type with
  | match_ => exact tracks_handleMatch msg t
  | snapshot => exact tracks_handleSnapshot msg t
  | l2update => exact tracks_handleL2update msg t
  | heartbeat => exact tracks_handleHeartbeat msg t
  | error => exact (Lockstep.of_throw Exc.keyError).tracks
  | other => exact (Lockstep.of_pure ()).tracks

/-- On a text too. -/
theorem Agree.hear {h k : MessageHandler} (hk : Agree products h k)
    (x : String × Int) : Agree products (h.hear x) (k.hear x) := by
  unfold MessageHandler.hear
  cases Json.loads x.1 with
  | none => exact hk
  | some message => exact tracks_handle message x.2 h k hk

theorem agree_refl_new (publisher : Publisher) :
    Agree products (new products publisher) (new products publisher) := by
  refine ⟨rfl, fun p => ?_⟩
  show (if p ∈ products then some ({} : OrderBook) else none).isSome = _
  by_cases hp : p ∈ products
  · rw [if_pos hp, Option.isSome_some, decide_eq_true hp]
  · rw [if_neg hp, Option.isSome_none, decide_eq_false hp]

/-- `on_disconnect` sets the derived state back to a new handler's. -/
theorem Agree.onDisconnect {h k : MessageHandler}
    (hk : Agree products h k) (publisher : Publisher) :
    Agree products h.onDisconnect (new products publisher) := by
  have hreset : ∀ p, (h.books.resetAll p).isSome = (h.books p).isSome :=
    fun p => Option.isSome_map
  refine ⟨derived_eq (fun p => ?_) rfl rfl, fun p => ?_⟩
  · have hp := hk.covers p
    simp only [MessageHandler.onDisconnect, BookSet.resetAll, new,
      BookSet.new]
    cases hb : h.books p with
    | none =>
        have hnot : p ∉ products := by simpa [hb] using hp
        rw [if_neg hnot]
        rfl
    | some b =>
        have hmem : p ∈ products := by simpa [hb] using hp
        rw [if_pos hmem]
        rfl
  · exact (hreset p).trans (hk.covers p)

end MessageHandler

-- ============================================================= whole runs

namespace WebSocketConsumer

open MessageHandler

variable (config : Config)

/-- The reader is at the `async for`, and would handle the next text. -/
def reading (s : WebSocketConsumer) : Bool :=
  match s.phase with
  | .consuming _ => !s.stopping
  | _ => false

/-- The texts that the socket has yielded to the reader on the open
connection, one event later. They are forgotten where an attempt begins
and where `run` gets past its `except`: that is everywhere but at the
`break` of an exception while stopping. -/
def heard (s : WebSocketConsumer) (xs : List (String × Int)) :
    Event → List (String × Int)
  | .raw text now => if s.reading then xs ++ [(text, now)] else xs
  | .enter => if s.phase = .top then [] else xs
  | .unwind =>
      match s.phase with
      | .leaving raised w =>
          if (raised || w = some .raised) && s.stopping then xs else []
      | _ => xs
  | _ => xs

/-- The texts of the open connection at the end of a run. -/
def openTexts (s : WebSocketConsumer) (xs : List (String × Int)) :
    List Event → List (String × Int)
  | [] => xs
  | e :: es => openTexts (step config s e).1 (heard s xs e) es

/-- The consumer between connections: its handler is what a new one is.
Within a connection, the handler is what a new one becomes on the texts
of the connection. -/
structure Isolated (fresh : MessageHandler) (s : WebSocketConsumer)
    (xs : List (String × Int)) : Prop where
  agree : Agree config.products s.handler (fresh.hearAll xs)
  between : s.phase = .top ∨ s.phase = .backingOff → xs = []

variable {config} in
/-- A step that neither touches the handler nor enters a phase between
connections. -/
theorem Isolated.keep {fresh : MessageHandler} {s s' : WebSocketConsumer}
    {xs : List (String × Int)} (h : Isolated config fresh s xs)
    (hhandler : s'.handler = s.handler) (htop : s'.phase ≠ .top)
    (hback : s'.phase ≠ .backingOff) : Isolated config fresh s' xs :=
  ⟨hhandler ▸ h.agree, fun hp => (hp.elim htop hback).elim⟩

/-- The reader takes a text: it handles the text unless it is told to
stop. -/
theorem isolated_receive {fresh : MessageHandler} {s : WebSocketConsumer}
    {w : Watchdog} (hph : s.phase = .consuming w) {xs : List (String × Int)}
    (h : Isolated config fresh s xs) (text : String) (now : Int) :
    Isolated config fresh (receive s w text now).1
      (if s.reading then xs ++ [(text, now)] else xs) := by
  simp only [reading, hph, receive]
  cases s.stopping with
  | true => exact h.keep rfl (by simp) (by simp)
  | false =>
      have hagree := h.agree.hear (text, now)
      rw [← hearAll_concat, hear] at hagree
      simp only [Bool.not_false, if_true, Bool.false_eq_true, if_false]
      cases htext : Json.loads text with
      | none =>
          simp only [htext] at hagree
          refine ⟨hagree, ?_⟩
          simp
      | some message =>
          simp only [htext] at hagree
          refine ⟨hagree, ?_⟩
          dsimp only
          split <;> simp

/-- Every step keeps the handler isolated. A message is the one step
that reads a text, and leaving the connection the one that forgets them;
the others change neither the handler nor the texts. -/
theorem isolated_step (publisher : Publisher) (s : WebSocketConsumer)
    (e : Event) {xs : List (String × Int)}
    (h : Isolated config (MessageHandler.new config.products publisher)
      s xs) :
    Isolated config (MessageHandler.new config.products publisher)
      (step config s e).1 (heard s xs e) := by
  cases e with
  | raw text now =>
      cases hph : s.phase with
      | consuming w =>
          simp only [step, hph]
          exact isolated_receive config hph h text now
      | _ => simpa [step, heard, reading, hph] using h
  | unwind =>
      cases hph : s.phase with
      | leaving raised w =>
          simp only [step, heard, hph, unwind]
          split
          · exact h.keep rfl (by simp) (by simp)
          · refine ⟨?_, fun _ => rfl⟩
            have hnew := h.agree.onDisconnect publisher
            exact ⟨hnew.derived, hnew.covers⟩
      | _ => simpa only [step, heard, hph] using h
  | enter =>
      cases hph : s.phase with
      | top =>
          -- between connections there are no texts to forget
          have hagree := h.agree
          rw [h.between (Or.inl hph)] at hagree
          simp only [step, heard, hph, if_true]
          cases s.stopping with
          | true => exact ⟨hagree, fun _ => rfl⟩
          | false => exact ⟨hagree, fun _ => rfl⟩
      | _ => simpa [step, heard, hph] using h
  | tick now =>
      cases hph : s.phase with
      | consuming w =>
          cases w with
          | sleeping =>
              simp only [step, heard, hph]
              exact h.keep rfl (by simp) (by simp)
          | _ => simpa only [step, heard, hph] using h
      | _ => simpa only [step, heard, hph] using h
  | connected ok =>
      cases hph : s.phase with
      | connecting =>
          cases ok <;> simp only [step, heard, hph] <;>
            exact h.keep rfl (by simp) (by simp)
      | _ => cases ok <;> simpa only [step, heard, hph] using h
  | closed error =>
      cases hph : s.phase with
      | consuming w =>
          simp only [step, heard, hph]
          exact h.keep rfl (by simp) (by simp)
      | _ => simpa only [step, heard, hph] using h
  | wake =>
      cases hph : s.phase with
      | backingOff =>
          simp only [step, heard, hph]
          exact ⟨h.agree, fun _ => h.between (Or.inr hph)⟩
      | _ => simpa only [step, heard, hph] using h
  | stop => exact ⟨h.agree, h.between⟩

/-- A run keeps the handler isolated. -/
theorem isolated_run (publisher : Publisher) (es : List Event) :
    ∀ (s : WebSocketConsumer) (xs : List (String × Int)),
      Isolated config (MessageHandler.new config.products publisher) s xs →
      Isolated config (MessageHandler.new config.products publisher)
        (run config s es) (openTexts config s xs es) := by
  induction es with
  | nil => exact fun s xs h => h
  | cons e es ih =>
      intro s xs h
      exact ih _ _ (isolated_step config publisher s e h)

/-- At every point of a run, the derived state is that of a new handler,
with any publisher, given the texts that the socket has yielded on the
open connection. By induction on the run: the new consumer is isolated,
and every step keeps it so. -/
theorem derived_run (publisher publisher' : Publisher)
    (es : List Event) :
    (run config (new config publisher) es).handler.derived
      = ((MessageHandler.new config.products publisher').hearAll
          (openTexts config (new config publisher) [] es)).derived := by
  have hnew : Isolated config
      (MessageHandler.new config.products publisher')
      (new config publisher) [] :=
    ⟨⟨rfl, (agree_refl_new publisher).covers⟩, fun _ => rfl⟩
  exact (isolated_run config publisher' es _ _ hnew).agree.derived

end WebSocketConsumer

end MarketPlatform.Consumer
