/-
Non-interference: the products of one handler do not affect each other.

A handler keeps one tracker, one set of books, one publisher and one set
of counters for all its products. What it says of a product is its view
(`ProductView`): the product's book, its baseline and the messages
published under its key. A message that names a product reads and writes
that product's view, and adds to the counters amounts that only depend
on it.

# The relation

`Woven P s t u` compares three handlers. `s` has handled two lists of
calls in an interleaved order, `t` only the first list, whose messages
name products of `P`, and `u` only the second. The views of the products
of `P` are in `s` what they are in `t`, the other views are what they
are in `u`, and every tally of `s` is the sum of the two. The relation
is symmetric when `P` is replaced by its complement.

# One message

A message that names a product of `P` and is handled in `t` without
raising is handled in `s`, and the relation holds afterwards
(`simulates_handle`). The four handlers are sequences of the same few
statements, so the proof has a lemma for each statement and puts these
together in the order of the source. Every one of those lemmas comes
down to `Woven.change`: a step that does the same to `p`'s view in both
handlers, nothing to the other views, and adds the same to every tally.

The ordering of duplicates and gaps needs one more fact, that what an id
adds to the tracker's totals depends on the product's baseline alone
(`observe_adds`).

# The whole run

`Interleave.run` is the induction over an interleaving: each call is of
one list or of the other, and by the symmetry of the relation one lemma
serves both. The publisher enters in one place only, because the number
of a message in the shared run is not its number in the lone one, so a
publisher that refuses some messages can refuse different ones in the
two. The result therefore asks that the shared run does not raise, or
that its publisher accepts everything.
-/
import MarketPlatform.Consumer.WsClient
import MarketPlatform.Proofs.Handling

namespace MarketPlatform.Consumer.MessageHandler

open Lib EStateM

-- ================================================================ views

/-- What a handler keeps for a product. -/
structure ProductView where
  book : Option OrderBook
  lastSeen : Option Int
  published : List Published

def view (h : MessageHandler) (p : String) : ProductView where
  book := h.books p
  lastSeen := h.continuity.lastSeen p
  published := h.publisher.messages.filter fun m => m.orderingKey = p

/-- The integer counters: those of `Counters`, one a channel for the
messages received, and the tracker's own. -/
inductive Tally where
  | messagesReceived (channel : String)
  | sequenceGaps
  | heartbeatDetectedGaps
  | messagesLost
  | duplicates
  | websocketReconnects
  | bookResets
  | crossedBooks
  | publishErrors
  | trackerGaps
  | trackerLost
  | trackerDuplicates

def tally (h : MessageHandler) : Tally → Int
  | .messagesReceived channel =>
      ((h.counters.messagesReceived.lookup channel).getD 0 : Nat)
  | .sequenceGaps => h.counters.sequenceGapsTotal
  | .heartbeatDetectedGaps => h.counters.heartbeatDetectedGapsTotal
  | .messagesLost => h.counters.messagesLostTotal
  | .duplicates => h.counters.duplicatesTotal
  | .websocketReconnects => h.counters.websocketReconnectsTotal
  | .bookResets => h.counters.bookResetsTotal
  | .crossedBooks => h.counters.crossedBooksTotal
  | .publishErrors => h.counters.publishErrorsTotal
  | .trackerGaps => h.continuity.gapsTotal
  | .trackerLost => h.continuity.messagesLostTotal
  | .trackerDuplicates => h.continuity.duplicatesTotal

/-- A message received adds one to its channel's count. -/
theorem lookup_bump (channel c : String) (l : List (String × Nat)) :
    ((Counters.bump channel l).lookup c).getD 0
      = (l.lookup c).getD 0 + if c = channel then 1 else 0 := by
  induction l with
  | nil =>
      by_cases hc : c = channel
      · simp [Counters.bump, hc]
      · have hbeq : (c == channel) = false := beq_false_of_ne hc
        simp [Counters.bump, List.lookup_cons, List.lookup_nil, hbeq, hc]
  | cons x l ih =>
      obtain ⟨d, n⟩ := x
      unfold Counters.bump
      by_cases hd : d = channel
      · rw [if_pos hd]
        by_cases hc : c = channel
        · simp [hc, hd]
        · have hbeq : (c == d) = false :=
            beq_false_of_ne fun h => hc (h.trans hd)
          simp [List.lookup_cons, hc, hbeq]
      · rw [if_neg hd]
        by_cases hcd : c = d
        · have hc : ¬c = channel := fun h => hd (hcd.symm.trans h)
          simp [hcd, hd]
        · have hbeq : (c == d) = false := beq_false_of_ne hcd
          rw [List.lookup_cons, List.lookup_cons, hbeq]
          exact ih

-- ========================================================= the relation

/-- `s` is `t` on the products of `P`, `u` on the others, and counts what
the two count together. -/
structure Woven (P : String → Prop) (s t u : MessageHandler) : Prop where
  mine : ∀ p, P p → s.view p = t.view p
  others : ∀ p, ¬P p → s.view p = u.view p
  tally : ∀ c, s.tally c = t.tally c + u.tally c
  accepts : ∀ n, s.publisher.refuses n = false

theorem Woven.symm {P : String → Prop} {s t u : MessageHandler}
    (h : Woven P s t u) : Woven (fun p => ¬P p) s u t where
  mine := h.others
  others := fun p hp => h.mine p (not_not.mp hp)
  tally := fun c => (h.tally c).trans (Int.add_comm _ _)
  accepts := h.accepts

section Parts

variable {P : String → Prop} {s t u : MessageHandler} {p : String}

theorem Woven.books (h : Woven P s t u) (hp : P p) :
    s.books p = t.books p :=
  congrArg ProductView.book (h.mine p hp)

theorem Woven.last (h : Woven P s t u) (hp : P p) :
    s.continuity.last p = t.continuity.last p :=
  congrArg ProductView.lastSeen (h.mine p hp)

/-- A change of the shared and the lone handler that is the same to a
product of `P`, invisible to the other products and the same to the
counters. -/
theorem Woven.change (h : Woven P s t u) (hp : P p)
    {s' t' : MessageHandler} (hview : s'.view p = t'.view p)
    (hs : ∀ q, q ≠ p → s'.view q = s.view q)
    (ht : ∀ q, q ≠ p → t'.view q = t.view q)
    (htally : ∀ c, s'.tally c - s.tally c = t'.tally c - t.tally c)
    (haccepts : s'.publisher.refuses = s.publisher.refuses) :
    Woven P s' t' u where
  mine := by
    intro q hq
    by_cases hqp : q = p
    · rw [hqp]
      exact hview
    · rw [hs q hqp, ht q hqp]
      exact h.mine q hq
  others := by
    intro q hq
    have hqp : q ≠ p := fun hqp => hq (hqp ▸ hp)
    rw [hs q hqp]
    exact h.others q hq
  tally := by
    intro c
    have hc := h.tally c
    have hc' := htally c
    omega
  accepts := by
    rw [haccepts]
    exact h.accepts

/-- Counting a message, the lag of a match, and the time of a heartbeat. -/
theorem simulates_received (channel : String) :
    Simulates (fun t s => Woven P s t u)
      (modify fun h => h.withCounters (·.recordMessage channel) : Handling)
      (modify fun h => h.withCounters (·.recordMessage channel)) := by
  apply Simulates.of_modify
  intro t s h
  refine ⟨h.mine, h.others, fun c => ?_, h.accepts⟩
  have hc := h.tally c
  cases c with
  | messagesReceived d =>
      have hcount : ∀ k : MessageHandler,
          (k.withCounters (·.recordMessage channel)).tally
              (.messagesReceived d)
            = k.tally (.messagesReceived d)
              + if d = channel then 1 else 0 := by
        intro k
        show (((Counters.bump channel k.counters.messagesReceived).lookup
          d).getD 0 : Int) = _
        rw [lookup_bump]
        split <;> rfl
      rw [hcount, hcount]
      omega
  | _ => exact hc

theorem simulates_recordLag (lag : ℚ) :
    Simulates (fun t s => Woven P s t u)
      (modify fun h => h.withCounters (·.recordLag lag) : Handling)
      (modify fun h => h.withCounters (·.recordLag lag)) := by
  apply Simulates.of_modify
  intro t s h
  refine ⟨h.mine, h.others, fun c => ?_, h.accepts⟩
  have hc := h.tally c
  cases c <;> exact hc

theorem simulates_beat (now : Int) :
    Simulates (fun t s => Woven P s t u)
      (modify fun h => { h with lastHeartbeatAt := some now } : Handling)
      (modify fun h => { h with lastHeartbeatAt := some now }) := by
  apply Simulates.of_modify
  intro t s h
  refine ⟨h.mine, h.others, fun c => ?_, h.accepts⟩
  have hc := h.tally c
  cases c <;> exact hc

theorem last_observe_of_ne (k : ContinuityTracker) (v : Int) {q : String}
    (hq : q ≠ p) : (k.observe p v).1.last q = k.last q := by
  rw [ContinuityTracker.last_observe, Function.update_of_ne hq]

theorem last_observe_congr {k k' : ContinuityTracker}
    (h : k.last p = k'.last p) (v : Int) :
    (k.observe p v).1.last p = (k'.observe p v).1.last p := by
  rw [ContinuityTracker.last_observe, ContinuityTracker.last_observe,
    Function.update_self, Function.update_self, h]

/-- What an id adds to the tracker's counts depends on the baseline
alone. The totals themselves differ between the shared and the lone
tracker, so this is stated of the differences. -/
theorem observe_adds {k k' : ContinuityTracker}
    (h : k.last p = k'.last p) (v : Int) :
    (k.observe p v).2 = (k'.observe p v).2
      ∧ (k.observe p v).1.gapsTotal - k.gapsTotal
        = (k'.observe p v).1.gapsTotal - k'.gapsTotal
      ∧ (k.observe p v).1.messagesLostTotal - k.messagesLostTotal
        = (k'.observe p v).1.messagesLostTotal - k'.messagesLostTotal
      ∧ (k.observe p v).1.duplicatesTotal - k.duplicatesTotal
        = (k'.observe p v).1.duplicatesTotal - k'.duplicatesTotal := by
  have hreported : (k.observe p v).2 = (k'.observe p v).2 := by
    rw [ContinuityTracker.observation_eq, ContinuityTracker.observation_eq,
      h]
  obtain ⟨hgaps, hlost, hdups⟩ := k.observe_totals p v
  obtain ⟨hgaps', hlost', hdups'⟩ := k'.observe_totals p v
  rw [hreported] at hgaps hlost hdups
  refine ⟨hreported, ?_, ?_, ?_⟩ <;> omega

/-- Tracking one id, in the shared and in the lone handler. -/
theorem Woven.tracked (h : Woven P s t u) (hp : P p) (v : Int) :
    Woven P (s.tracked p v) (t.tracked p v) u := by
  have hlast := h.last hp
  apply h.change hp
  · have hmine := h.mine p hp
    simp only [view, ProductView.mk.injEq] at hmine ⊢
    exact ⟨hmine.1, last_observe_congr hlast v, hmine.2.2⟩
  · intro q hq
    simp only [view, MessageHandler.tracked, ContinuityTracker.lastSeen,
      last_observe_of_ne _ _ hq]
  · intro q hq
    simp only [view, MessageHandler.tracked, ContinuityTracker.lastSeen,
      last_observe_of_ne _ _ hq]
  · intro c
    obtain ⟨hobserved, hgaps, hlost, hduplicates⟩ := observe_adds hlast v
    unfold MessageHandler.tracked countObservation
    rw [hobserved]
    cases c with
    | trackerGaps => exact hgaps
    | trackerLost => exact hlost
    | trackerDuplicates => exact hduplicates
    | _ =>
        cases (t.continuity.observe p v).2.continuity <;>
          simp [MessageHandler.tally]
  · rfl

theorem simulates_trackContinuity (hp : P p) (v : Int) :
    Simulates (fun t s => Woven P s t u) (trackContinuity p v)
      (trackContinuity p v) := by
  intro t s h a t' hrun
  rw [run_trackContinuity] at hrun ⊢
  obtain ⟨-, rfl⟩ := Result.ok.inj hrun
  exact ⟨_, rfl, h.tracked hp v⟩

/-- A heartbeat's id, in the shared and in the lone handler: both have
the same baseline for the product, so both count the same ids and move
it alike. -/
theorem Woven.heartbeatTracked (h : Woven P s t u) (hp : P p) (v : Int) :
    Woven P (s.heartbeatTracked p v) (t.heartbeatTracked p v) u := by
  have hlast : s.continuity.lastSeen p = t.continuity.lastSeen p := h.last hp
  unfold MessageHandler.heartbeatTracked
  rw [hlast]
  cases hseen : t.continuity.lastSeen p with
  | none => exact h
  | some seen =>
      by_cases hv : v > seen
      · simp only [if_pos hv]
        apply h.change hp
        · have hmine := h.mine p hp
          simp only [view, ProductView.mk.injEq] at hmine ⊢
          exact ⟨hmine.1, last_observe_congr hlast v, hmine.2.2⟩
        · intro q hq
          simp only [view, ContinuityTracker.lastSeen,
            last_observe_of_ne _ _ hq]
        · intro q hq
          simp only [view, ContinuityTracker.lastSeen,
            last_observe_of_ne _ _ hq]
        · intro c
          obtain ⟨-, hgaps, hlost, hduplicates⟩ := observe_adds hlast v
          cases c with
          | trackerGaps => exact hgaps
          | trackerLost => exact hlost
          | trackerDuplicates => exact hduplicates
          | _ => simp [MessageHandler.tally]
        · rfl
      · simpa only [if_neg hv] using h

theorem simulates_trackHeartbeat (hp : P p) (v : Int) :
    Simulates (fun t s => Woven P s t u) (trackHeartbeat p v)
      (trackHeartbeat p v) := by
  intro t s h a t' hrun
  rw [run_trackHeartbeat] at hrun ⊢
  obtain ⟨-, rfl⟩ := Result.ok.inj hrun
  exact ⟨_, rfl, h.heartbeatTracked hp v⟩

/-- A program of the book of a product of `P`. -/
theorem simulates_onBook (hp : P p) (x : EStateM Exc OrderBook Unit) :
    Simulates (fun t s => Woven P s t u) (onBook p x) (onBook p x) := by
  intro t s h a t' hrun
  obtain ⟨b, b', hb, hx, rfl⟩ := run_onBook_ok hrun
  refine ⟨{ s with books := s.books.put p b' }, ?_, ?_⟩
  · rw [run_onBook, h.books hp, hb]
    simp only [hx]
  · apply h.change hp
    · have hmine := h.mine p hp
      simp only [view, ProductView.mk.injEq] at hmine ⊢
      refine ⟨?_, hmine.2⟩
      simp only [BookSet.put, if_true]
    · intro q hq
      simp only [view, BookSet.put, if_neg hq]
    · intro q hq
      simp only [view, BookSet.put, if_neg hq]
    · intro c
      cases c <;> simp [MessageHandler.tally]
    · rfl

/-- The check of a book, which is the same book in both handlers. -/
theorem simulates_checkCrossed (hp : P p) :
    Simulates (fun t s => Woven P s t u) (checkCrossed p)
      (checkCrossed p) := by
  intro t s h a t' hrun
  have hlog : logExtra ["product_id", "error"] = pure () :=
    logExtra_eq_pure (by decide)
  unfold checkCrossed at hrun ⊢
  rw [hlog, run_get_bind] at hrun ⊢
  rw [h.books hp]
  cases hq : (t.books p).map OrderBook.quote with
  | none => simp [hq] at hrun
  | some q =>
      rw [hq] at hrun
      cases q with
      | ok q =>
          obtain ⟨-, rfl⟩ := Result.ok.inj hrun
          exact ⟨s, rfl, h⟩
      | error e =>
          cases e with
          | crossedBookError =>
              obtain ⟨-, rfl⟩ := Result.ok.inj hrun
              refine ⟨_, rfl, h.mine, h.others, fun c => ?_, h.accepts⟩
              have hc := h.tally c
              cases c with
              | crossedBooks =>
                  simp only [MessageHandler.tally, withCounters] at hc ⊢
                  omega
              | _ => exact hc
          | _ => cases hrun

/-- A message published under the key of a product of `P`. -/
theorem simulates_publish (hp : P p) (payload : Payload) :
    Simulates (fun t s => Woven P s t u) (publish ⟨payload, p⟩)
      (publish ⟨payload, p⟩) := by
  intro t s h a t' hrun
  obtain ⟨rfl, hsent⟩ := run_publish_ok hrun
  have hs : (publish ⟨payload, p⟩).run s
      = .ok () { s with publisher := s.publisher.publish ⟨payload, p⟩ } := by
    rw [run_publish, h.accepts]
    rfl
  obtain ⟨-, hsent'⟩ := run_publish_ok hs
  refine ⟨_, hs, ?_⟩
  apply h.change hp
  · have hmine := h.mine p hp
    simp only [view, ProductView.mk.injEq] at hmine ⊢
    refine ⟨hmine.1, hmine.2.1, ?_⟩
    rw [hsent, hsent', List.filter_append, List.filter_append, hmine.2.2]
  · intro q hq
    simp only [view]
    rw [hsent', List.filter_append]
    simp [Ne.symm hq]
  · intro q hq
    simp only [view]
    rw [hsent, List.filter_append]
    simp [Ne.symm hq]
  · intro c
    cases c <;> simp [MessageHandler.tally]
  · rfl

-- ============================================================ one message

/-- The message names the product. -/
def Names (p : String) (msg : Json) : Prop :=
  (item msg "product_id" >>= asKey) = .ok p

/-- A handler that first reads the product. -/
theorem simulates_named {msg : Json} (hp : P p) (hnames : Names p msg)
    {f : String → Handling}
    (h : ∀ p, P p → Simulates (fun t s => Woven P s t u) (f p) (f p)) :
    Simulates (fun t s => Woven P s t u)
      (attempt (item msg "product_id" >>= asKey) >>= f)
      (attempt (item msg "product_id" >>= asKey) >>= f) := by
  have hread : (item msg "product_id" >>= asKey) = .ok p := hnames
  rw [hread]
  exact h p hp

theorem simulates_handleMatch {msg : Json} (hp : P p) (hnames : Names p msg)
    (now : Int) :
    Simulates (fun t s => Woven P s t u) (handleMatch msg now)
      (handleMatch msg now) := by
  apply simulates_named hp hnames
  intro p hp
  refine (simulates_received "trades").bind fun _ => ?_
  refine (Simulates.of_attempt _).bind fun v => ?_
  refine (simulates_trackContinuity hp v).bind fun _ => ?_
  refine (Simulates.of_attempt _).bind fun time => ?_
  refine (Simulates.of_attempt _).bind fun lag => ?_
  refine (simulates_recordLag _).bind fun _ => ?_
  -- the fields still to read, then the publish
  refine (Simulates.of_attempt _).bind fun sequence => ?_
  refine (Simulates.of_attempt _).bind fun price => ?_
  refine (Simulates.of_attempt _).bind fun size => ?_
  refine (Simulates.of_attempt _).bind fun side => ?_
  refine (Simulates.of_attempt _).bind fun maker => ?_
  refine (Simulates.of_attempt _).bind fun taker => ?_
  exact simulates_publish hp _

theorem simulates_handleSnapshot {msg : Json} (hp : P p)
    (hnames : Names p msg) (now : Int) :
    Simulates (fun t s => Woven P s t u) (handleSnapshot msg now)
      (handleSnapshot msg now) := by
  apply simulates_named hp hnames
  intro p hp
  refine (simulates_received "l2").bind fun _ => ?_
  refine (Simulates.of_attempt _).bind fun bids => ?_
  refine (Simulates.of_attempt _).bind fun asks => ?_
  refine (simulates_onBook hp _).bind fun _ => ?_
  refine (Simulates.of_attempt _).bind fun sequence => ?_
  exact simulates_publish hp _

theorem simulates_handleL2update {msg : Json} (hp : P p)
    (hnames : Names p msg) (now : Int) :
    Simulates (fun t s => Woven P s t u) (handleL2update msg now)
      (handleL2update msg now) := by
  apply simulates_named hp hnames
  intro p hp
  refine (simulates_received "l2").bind fun _ => ?_
  refine (Simulates.of_attempt _).bind fun changes => ?_
  refine (simulates_onBook hp _).bind fun _ => ?_
  refine (simulates_checkCrossed hp).bind fun _ => ?_
  refine (Simulates.of_attempt _).bind fun time => ?_
  refine (Simulates.of_attempt _).bind fun sequence => ?_
  exact simulates_publish hp _

theorem simulates_handleHeartbeat {msg : Json} (hp : P p)
    (hnames : Names p msg) (now : Int) :
    Simulates (fun t s => Woven P s t u) (handleHeartbeat msg now)
      (handleHeartbeat msg now) := by
  apply simulates_named hp hnames
  intro p hp
  refine (simulates_received "heartbeat").bind fun _ => ?_
  refine (simulates_beat now).bind fun _ => ?_
  refine (Simulates.of_attempt _).bind fun v => ?_
  refine (simulates_trackHeartbeat hp v).bind fun _ => ?_
  refine (Simulates.of_attempt _).bind fun sequence => ?_
  refine (Simulates.of_attempt _).bind fun time => ?_
  exact simulates_publish hp _

/-- A message that names a product of `P`, handled in a lone handler, is
handled in the shared one. -/
theorem simulates_handle {msg : Json} (hp : P p) (hnames : Names p msg)
    (now : Int) :
    Simulates (fun t s => Woven P s t u) (handle msg now)
      (handle msg now) := by
  refine (Simulates.of_attempt _).bind fun type => ?_
  cases msgType type with
  | match_ => exact simulates_handleMatch hp hnames now
  | snapshot => exact simulates_handleSnapshot hp hnames now
  | l2update => exact simulates_handleL2update hp hnames now
  | heartbeat => exact simulates_handleHeartbeat hp hnames now
  | error => exact Simulates.of_throw Exc.keyError
  | other => exact Simulates.of_pure ()

end Parts

-- ============================================================= whole lists

/-- The call handles a message that names a product of `P`. -/
def Of (P : String → Prop) : Call → Prop
  | .handle msg _ => ∃ p, P p ∧ Names p msg
  | .onDisconnect => False

theorem simulates_call {P : String → Prop} {u : MessageHandler} {c : Call}
    (hc : Of P c) :
    Simulates (fun t s => Woven P s t u) (call c) (call c) := by
  cases c with
  | handle msg now =>
      obtain ⟨p, hp, hnames⟩ := hc
      exact simulates_handle hp hnames now
  | onDisconnect => exact hc.elim

theorem calls_eq_forM (cs : List Call) : calls cs = cs.forM call := by
  induction cs with
  | nil => rfl
  | cons c cs ih =>
      unfold calls
      rw [ih]
      rfl

section Interference

variable {products : List String} {P : String → Prop}
  {mine others woven : List Call}

/-- A handler whose publisher accepts everything, in both of its halves. -/
theorem woven_new (r r' : Nat → Bool) :
    Woven P (new products RecordingPublisher) (new products { refuses := r })
      (new products { refuses := r' }) where
  mine := fun _ _ => rfl
  others := fun _ _ => rfl
  tally := fun c => by cases c <;> rfl
  accepts := fun _ => rfl

/-- Two lists that name different products, handled in an interleaved
order by a handler whose publisher accepts everything. -/
theorem woven_calls {r r' : Nat → Bool}
    (hmine : ∀ c ∈ mine, Of P c) (hothers : ∀ c ∈ others, Of (¬P ·) c)
    (hweave : Interleave mine others woven)
    (h : completes products { refuses := r } mine = true)
    (h' : completes products { refuses := r' } others = true) :
    ∃ s, (calls woven).run (new products RecordingPublisher) = .ok () s
      ∧ Woven P s (after products { refuses := r } mine)
        (after products { refuses := r' } others) := by
  have ht := calls_of_completes h
  have hu := calls_of_completes h'
  rw [calls_eq_forM] at ht hu ⊢
  refine hweave.run (R := Woven P) (fun c hc u => ?_) (fun c hc t => ?_)
    (woven_new r r') ht hu
  · exact simulates_call (hmine c hc)
  · intro u s hs a u' hrun
    obtain ⟨s', hs', hw⟩ :=
      simulates_call (hothers c hc) u s hs.symm a u' hrun
    refine ⟨s', hs', ?_⟩
    have hwoven := hw.symm
    simpa only [not_not] using hwoven

/-- Products do not interfere: what a handler keeps for a product after
its messages and those of other products, in any interleaved order, is
what it keeps after the product's messages alone, and every integer
counter is the sum of the two.

The run in which the publisher accepts everything is the one that is
woven from the two lone runs. A run whose publisher refuses some
messages and which does not raise is then compared with it by the same
relation, with all products on one side and no call on the other. -/
theorem products_do_not_interfere (products : List String) (p : String)
    {mine others woven : List Call} (hmine : ∀ c ∈ mine, Of (· = p) c)
    (hothers : ∀ c ∈ others, Of (· ≠ p) c)
    (hweave : Interleave mine others woven) (r₁ r₂ r : Nat → Bool)
    (h₁ : completes products { refuses := r₁ } mine = true)
    (h₂ : completes products { refuses := r₂ } others = true) :
    ((∀ n, r n = false) → completes products { refuses := r } woven = true)
      ∧ (completes products { refuses := r } woven = true →
        (after products { refuses := r } woven).view p
            = (after products { refuses := r₁ } mine).view p
          ∧ ∀ c, (after products { refuses := r } woven).tally c
            = (after products { refuses := r₁ } mine).tally c
              + (after products { refuses := r₂ } others).tally c) := by
  obtain ⟨s, hs, hw⟩ := woven_calls hmine hothers hweave h₁ h₂
  constructor
  · intro haccepts
    obtain rfl : r = fun _ => false := funext haccepts
    unfold completes
    exact congrArg Result.isOk hs
  · intro h
    -- the run that completes against the same run with an open publisher
    have hall : ∀ c ∈ woven, Of (fun _ => True) c := by
      intro c hc
      have hof : ∀ {P : String → Prop}, Of P c → Of (fun _ => True) c := by
        intro P hP
        cases c with
        | handle msg now =>
            obtain ⟨q, -, hnames⟩ := hP
            exact ⟨q, trivial, hnames⟩
        | onDisconnect => exact hP
      rcases hweave.mem hc with hc | hc
      · exact hof (hmine c hc)
      · exact hof (hothers c hc)
    have hnil : completes products { refuses := r } [] = true := rfl
    obtain ⟨s', hs', hw'⟩ :=
      woven_calls hall (by simp) (Interleave.alone woven) h hnil
    rw [hs] at hs'
    obtain ⟨-, rfl⟩ := Result.ok.inj hs'
    refine ⟨(hw'.mine p trivial).symm.trans (hw.mine p rfl), fun c => ?_⟩
    have hzero : (after products { refuses := r } []).tally c = 0 := by
      cases c <;> rfl
    have htally := hw'.tally c
    rw [hzero, Int.add_zero] at htally
    rw [← htally]
    exact hw.tally c

end Interference

-- ============================================================ two products

/-- A match of a product. -/
def matchCall (p : String) (tradeId : Int) : Call :=
  .handle (.obj [("type", .str "match"), ("product_id", .str p),
    ("trade_id", .int tradeId), ("sequence", .int tradeId),
    ("time", .str "1970-01-01T00:00:00Z"), ("price", .str "100"),
    ("size", .str "1"), ("side", .str "buy")]) 0

/-- A lost trade of one product, between the trades of another. -/
theorem products_do_not_interfere_two :
    (after ["BTC-USD", "ETH-USD"] RecordingPublisher
        [matchCall "BTC-USD" 1, matchCall "ETH-USD" 7,
          matchCall "BTC-USD" 3]).view "BTC-USD"
        = (after ["BTC-USD", "ETH-USD"] RecordingPublisher
          [matchCall "BTC-USD" 1, matchCall "BTC-USD" 3]).view "BTC-USD"
      ∧ (after ["BTC-USD", "ETH-USD"] RecordingPublisher
        [matchCall "BTC-USD" 1, matchCall "ETH-USD" 7,
          matchCall "BTC-USD" 3]).tally .messagesLost = 1 := by
  have hmine : ∀ c ∈ [matchCall "BTC-USD" 1, matchCall "BTC-USD" 3],
      Of (· = "BTC-USD") c := by
    intro c hc
    rcases List.mem_pair.mp hc with rfl | rfl
    · exact ⟨_, rfl, rfl⟩
    · exact ⟨_, rfl, rfl⟩
  have hothers : ∀ c ∈ [matchCall "ETH-USD" 7], Of (· ≠ "BTC-USD") c := by
    intro c hc
    rw [List.mem_singleton.mp hc]
    exact ⟨"ETH-USD", by decide, rfl⟩
  have h := products_do_not_interfere ["BTC-USD", "ETH-USD"] "BTC-USD"
    hmine hothers (.left (.right (.left .nil))) (fun _ => false)
    (fun _ => false) (fun _ => false) (by decide +kernel)
    (by decide +kernel)
  obtain ⟨hview, htally⟩ := h.2 (h.1 fun _ => rfl)
  have hlost := htally .messagesLost
  exact ⟨hview, hlost.trans (by decide +kernel)⟩

end MarketPlatform.Consumer.MessageHandler
