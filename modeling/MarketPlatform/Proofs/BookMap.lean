/-
The order book as a map.

# The statement

A run of `apply_snapshot`, `apply_updates` and `reset` leaves the book
that a map of last writes describes (`order_book_is_last_write_map`):
ready since a snapshot, one level at each price whose last entry is not
zero, and the best of each side first. `IsLastWriteMap` says all of this
of a book, without the code's own state but for what its methods return.

# The order of a side

That the first level of a side is its best is an invariant of `insort`
(`Levels.SortedBy`): the prices are in order, and each is negated
exactly where it is negated at all, so that the order of the keys is
that of the prices (`Side.keyBy_lt_iff`). A new price then goes where
the order has it (`Levels.pairwise_insortBy`), and one that is there
keeps its place. On the bid side this rests on the negated price being
exact, which it is within the default decimal context (`Fits`,
`Levels.Sorted`); beyond it a bid raises, or lands in the order of
arrival (`bids_beyond_the_context`).

# The levels

Which levels there are is the log's: each call adds its entries, a
snapshot after dropping what was there, a reset by dropping all
(`logAfterOp`). One call of finite levels does not raise and keeps both,
the log and the order (`run_op`), and a run is an induction over its
calls (`run_runAll`).
-/
import MarketPlatform.Proofs.LiveBook

namespace MarketPlatform.Consumer

open Lib Lib.Numeral EStateM

-- =============================================================== the keys

/-- A price within the default context: at most 28 digits, none below
1E-1000026, the leading one no higher than 1E+999999. -/
def Fits (q : ℚ) : Prop :=
  (∃ n e : Int, q = n * 10 ^ e ∧ |n| < 10 ^ 28 ∧ -1000026 ≤ e)
    ∧ Int.log 10 |q| ≤ 999999

/-- Negating a price that fits is exact. -/
theorem neg_of_fits {q : ℚ} (h : Fits q) :
    Decimal.neg (.finite q) = .finite (-q)
      ∧ Decimal.negOverflows (.finite q) = false := by
  obtain ⟨⟨n, e, hq, hn, he⟩, hlog⟩ := h
  have hexact : roundSig 28 (-1000026) (-q) = -q := by
    refine roundSig_eq_self (m := -n) (e := e) ?_ ?_ he
    · rw [hq]
      push_cast
      ring
    · rw [abs_neg]
      exact hn
  constructor
  · rw [Decimal.neg, hexact]
  · rw [Decimal.negOverflows, hexact, abs_neg, decide_eq_false_iff_not]
    omega

namespace Side

/-- Which of two prices comes first. -/
def Before : Side → ℚ → ℚ → Prop
  | .buy, q, q' => q' < q
  | .sell, q, q' => q < q'

/-- The order of a side is transitive. -/
theorem before_trans {side : Side} {q r s : ℚ} (h : side.Before q r)
    (h' : side.Before r s) : side.Before q s := by
  cases side with
  | buy => exact lt_trans h' h
  | sell => exact lt_trans h h'

/-- And total, on different prices. -/
theorem before_of_not {side : Side} {q r : ℚ} (hne : q ≠ r)
    (h : ¬ side.Before q r) : side.Before r q := by
  cases side with
  | buy => exact lt_of_le_of_ne (not_lt.mp h) hne
  | sell => exact lt_of_le_of_ne (not_lt.mp h) hne.symm

variable {n : Negation} {side : Side} {q r : ℚ}

/-- The keys of prices are in the order of the prices. -/
theorem keyBy_lt_iff (hq : side = .buy → n.ExactAt q)
    (hr : side = .buy → n.ExactAt r) :
    (side.keyBy n (.finite q)).lt (side.keyBy n (.finite r)) = true
      ↔ side.Before q r := by
  cases side with
  | buy =>
      show (n.neg (.finite q)).lt (n.neg (.finite r)) = true ↔ r < q
      rw [(hq rfl).1, (hr rfl).1, Decimal.lt, decide_eq_true_eq,
        neg_lt_neg_iff]
  | sell => exact decide_eq_true_iff

/-- A price that is negated exactly does not raise. -/
theorem keyRaisesBy_of_exact (h : side = .buy → n.ExactAt q) :
    side.keyRaisesBy n (.finite q) = false := by
  cases side with
  | buy => exact (h rfl).2
  | sell => rfl

end Side

-- ============================================================== one side

namespace Levels

variable {n : Negation} {side : Side} {d d' : Levels} {q s : ℚ}

/-- The levels of a side: plain, in order, and negated exactly where they
are negated. -/
structure SortedBy (n : Negation) (side : Side) (d : Levels) : Prop where
  plain : Plain d
  order : d.Pairwise fun l m => ∀ q r, l.1 = .finite q → m.1 = .finite r →
    side.Before q r
  negated : side = .buy → ∀ q s, d.Rests q s → n.ExactAt q

/-- A side without levels is in order. -/
theorem sortedBy_nil (n : Negation) (side : Side) : SortedBy n side [] where
  plain := plain_nil
  order := List.Pairwise.nil
  negated := fun _ q s h => by cases h

/-- A new price goes where the order has it. By the recursion of the
insertion: it passes the levels that come before it, whose keys are
greater in the order of the side. -/
theorem pairwise_insortBy (hd : SortedBy n side d)
    (hq : side = .buy → n.ExactAt q)
    (hc : ¬ d.contains (.finite q) = true) (s : Decimal) :
    (d.insortBy n side (.finite q) s).Pairwise fun l m =>
      ∀ q r, l.1 = .finite q → m.1 = .finite r → side.Before q r := by
  obtain ⟨⟨hfinite, -⟩, horder, hexact⟩ := hd
  rw [contains_finite] at hc
  induction d with
  | nil => exact List.pairwise_singleton _ _
  | cons l d ih =>
      obtain ⟨hl, htail⟩ := List.pairwise_cons.mp horder
      obtain ⟨ql, sl, rfl⟩ := hfinite l List.mem_cons_self
      have hql : side = .buy → n.ExactAt ql := fun h =>
        hexact h ql sl List.mem_cons_self
      rw [List.map_cons, List.mem_cons, not_or, Decimal.finite.injEq] at hc
      obtain ⟨hne, hc⟩ := hc
      unfold insortBy
      by_cases hlt : side.Before q ql
      · rw [if_pos ((Side.keyBy_lt_iff hq hql).mpr hlt)]
        refine List.pairwise_cons.mpr ⟨fun m hm => ?_,
          horder⟩
        intro q' r hq' hr
        obtain rfl := Decimal.finite.inj hq'
        rcases List.mem_cons.mp hm with rfl | hm
        · obtain rfl := Decimal.finite.inj hr
          exact hlt
        · exact Side.before_trans hlt (hl m hm ql r rfl hr)
      · rw [if_neg fun h => hlt ((Side.keyBy_lt_iff hq hql).mp h)]
        have hrest := ih hc htail
          (fun h q s hm => hexact h q s (List.mem_cons_of_mem _ hm))
          fun m hm => hfinite m (List.mem_cons_of_mem _ hm)
        refine List.pairwise_cons.mpr ⟨fun m hm => ?_, hrest⟩
        intro q' r hq' hr
        obtain rfl := Decimal.finite.inj hq'
        rcases mem_insortBy.mp hm with rfl | hm
        · obtain rfl := Decimal.finite.inj hr
          exact Side.before_of_not hne hlt
        · exact hl m hm _ r rfl hr

/-- Setting a price that is negated exactly does not raise, and keeps
the order. By the three things that setting can do. -/
theorem SortedBy.setBy (hd : SortedBy n side d)
    (hq : side = .buy → n.ExactAt q) (s : ℚ) :
    ∃ d', d.setBy n side (.finite q) (.finite s) = .ok d'
      ∧ SortedBy n side d' := by
  have hcomparable : Comparable d := by
    intro l hl
    obtain ⟨_, _, rfl⟩ := hd.plain.finite l hl
    rfl
  obtain ⟨d', hset⟩ := hcomparable.setBy_ok (p := .finite q) rfl
    (Side.keyRaisesBy_of_exact hq) (.finite s)
  have horder : d'.Pairwise fun l m =>
      ∀ q r, l.1 = .finite q → m.1 = .finite r → side.Before q r := by
    cases sets_of_ok hset with
    | removed hs => exact hd.order.sublist List.filter_sublist
    | replaced hs hc =>
        apply pairwise_replace (R := fun p p' =>
          ∀ q r, p = .finite q → p' = .finite r → side.Before q r)
        exact hd.order
    | added hs hc hraises hnan => exact pairwise_insortBy hd hq hc _
  exact ⟨d', hset, (hd.plain.setBy hset).1, horder, fun h =>
    hd.plain.forall_setBy hset (hd.negated h) fun _ => hq h⟩

/-- The first level is the best. -/
theorem SortedBy.head (hd : SortedBy n side d) :
    d.head? = some (.finite q, .finite s)
      ↔ d.Rests q s ∧ ∀ q' s', d.Rests q' s' → ¬ side.Before q' q := by
  cases d with
  | nil => simp [Rests]
  | cons l d =>
      obtain ⟨ql, sl, rfl⟩ := hd.plain.finite l List.mem_cons_self
      obtain ⟨hl, -⟩ := List.pairwise_cons.mp hd.order
      have hirrefl : ∀ q, ¬ side.Before q q := fun q => by
        cases side <;> exact lt_irrefl q
      constructor
      · intro h
        obtain ⟨h₁, h₂⟩ := Prod.mk.inj (Option.some.inj h)
        obtain rfl := Decimal.finite.inj h₁
        obtain rfl := Decimal.finite.inj h₂
        refine ⟨List.mem_cons_self, fun q' s' hmem hbefore => ?_⟩
        rcases List.mem_cons.mp hmem with heq | hmem
        · obtain rfl := Decimal.finite.inj (Prod.mk.inj heq).1
          exact hirrefl _ hbefore
        · exact hirrefl _ (Side.before_trans hbefore (hl _ hmem _ _ rfl rfl))
      · intro h
        obtain ⟨hmem, hbest⟩ := h
        rcases List.mem_cons.mp hmem with heq | hmem
        · rw [heq]
          rfl
        · exact absurd (hl _ hmem _ _ rfl rfl)
            (hbest ql sl List.mem_cons_self)

/-- The levels of a side: plain, in order, and their prices fit where
they are negated. -/
structure Sorted (side : Side) (d : Levels) : Prop where
  plain : Plain d
  order : d.Pairwise fun l m => ∀ q r, l.1 = .finite q → m.1 = .finite r →
    side.Before q r
  fits : side = .buy → ∀ q s, d.Rests q s → Fits q

/-- A side without levels is in order. -/
theorem sorted_nil (side : Side) : Sorted side [] where
  plain := plain_nil
  order := List.Pairwise.nil
  fits := fun _ q s h => by cases h

/-- Prices that fit are negated exactly in the default context. -/
theorem Sorted.sortedBy (hd : Sorted side d) :
    SortedBy .default side d where
  plain := hd.plain
  order := hd.order
  negated := fun h q s hrests => neg_of_fits (hd.fits h q s hrests)

/-- Setting a price that fits does not raise, and keeps the order. -/
theorem Sorted.set (hd : Sorted side d) (hq : side = .buy → Fits q)
    (s : ℚ) :
    ∃ d', d.set side (.finite q) (.finite s) = .ok d' ∧ Sorted side d' := by
  obtain ⟨d', hset, hd'⟩ :=
    hd.sortedBy.setBy (fun h => neg_of_fits (hq h)) s
  have hfits : side = .buy → ∀ q' s', d'.Rests q' s' → Fits q' := fun h =>
    hd.plain.forall_setBy hset (hd.fits h) fun _ => hq h
  rw [setBy_default] at hset
  exact ⟨d', hset, hd'.plain, hd'.order, hfits⟩

end Levels

-- ================================================================= a run

namespace OrderBook

/-- A call of one of the methods that change a book. -/
inductive Op where
  | applySnapshot (bids asks : List (Json × Json))
  | applyUpdates (changes : List (Json × Json × Json))
  | reset

/-- The program of the call. -/
def Op.run : Op → EStateM Exc OrderBook Unit
  | .applySnapshot bids asks => OrderBook.applySnapshot bids asks
  | .applyUpdates changes => OrderBook.applyUpdates changes
  | .reset => modify OrderBook.reset

/-- The call, over another arithmetic. -/
def Op.runBy (n : Negation) : Op → EStateM Exc OrderBook Unit
  | .applySnapshot bids asks => applySnapshotBy n bids asks
  | .applyUpdates changes => applyUpdatesBy n changes
  | .reset => modify OrderBook.reset

/-- Over the default context the call is the source's. -/
theorem Op.runBy_default (op : Op) : op.runBy .default = op.run := by
  cases op with
  | applySnapshot bids asks => exact applySnapshotBy_default bids asks
  | applyUpdates changes => exact applyUpdatesBy_default changes
  | reset => rfl

/-- The calls in their order, up to one that raises. -/
def runAll : List Op → EStateM Exc OrderBook Unit
  | [] => pure ()
  | op :: ops => do
      op.run
      runAll ops

/-- A price and a size that are finite decimals; a bid's price fits. -/
def FiniteLevel (side : Side) (price size : Json) : Prop :=
  ∃ q s, decimal price = .ok (.finite q) ∧ decimal size = .ok (.finite s)
    ∧ (side = .buy → Fits q)

/-- The sides and numbers of a call can be read. -/
def Op.Finite : Op → Prop
  | .applySnapshot bids asks =>
      (∀ x ∈ bids, FiniteLevel .buy x.1 x.2)
        ∧ ∀ x ∈ asks, FiniteLevel .sell x.1 x.2
  | .applyUpdates changes =>
      ∀ x ∈ changes, ∃ side, Side.ofRaw x.1 = .ok side
        ∧ FiniteLevel side x.2.1 x.2.2
  | .reset => True

/-- Every level that a call can write is `ok`. -/
def Op.Each (ok : Side → Json → Json → Prop) : Op → Prop
  | .applySnapshot bids asks =>
      (∀ x ∈ bids, ok .buy x.1 x.2) ∧ ∀ x ∈ asks, ok .sell x.1 x.2
  | .applyUpdates changes =>
      ∀ x ∈ changes, ∀ side, Side.ofRaw x.1 = .ok side →
        ok side x.2.1 x.2.2
  | .reset => True

/-- The entries of a call. -/
def Op.entries : Op → List Entry
  | .applySnapshot bids asks => snapshotEntries bids asks
  | .applyUpdates changes => changes.filterMap changeEntry
  | .reset => []

/-- The book is the map of last writes that a run describes. -/
structure IsLastWriteMap (ops : List Op) (b : OrderBook) : Prop where
  ready : b.ready = true ↔ ∃ pre bids asks post,
    ops = pre ++ .applySnapshot bids asks :: post ∧ ∀ op ∈ post, op ≠ .reset
  empty : b.ready = false → b.bids = [] ∧ b.asks = []
  level : ∀ pre bids asks post,
    ops = pre ++ .applySnapshot bids asks :: post →
    (∀ op ∈ post, ∃ changes, op = .applyUpdates changes) →
    ∀ side q s, (b.levels side).Rests q s
      ↔ sizeAfter (snapshotEntries bids asks ++ post.flatMap Op.entries)
          side q = some s
  plain : ∀ side, (b.levels side).Plain
  nonzero : ∀ side q s, (b.levels side).Rests q s → s ≠ 0
  bestBid : ∀ q s, b.bestBid = some (.finite q, .finite s)
    ↔ b.bids.Rests q s ∧ ∀ q' s', b.bids.Rests q' s' → q' ≤ q
  bestAsk : ∀ q s, b.bestAsk = some (.finite q, .finite s)
    ↔ b.asks.Rests q s ∧ ∀ q' s', b.asks.Rests q' s' → q ≤ q'
  noQuote : b.quote = .ok none
    ↔ b.ready = false ∨ b.bids = [] ∨ b.asks = []
  crossed : b.quote = .error .crossedBookError
    ↔ ∃ bid bidSize ask askSize,
      b.bestBid = some (.finite bid, .finite bidSize)
        ∧ b.bestAsk = some (.finite ask, .finite askSize) ∧ ask ≤ bid
  quote : ∀ bid bidSize ask askSize,
    b.bestBid = some (.finite bid, .finite bidSize) →
    b.bestAsk = some (.finite ask, .finite askSize) → bid < ask →
    b.quote = .ok (some ⟨.finite bid, .finite bidSize, .finite ask,
      .finite askSize⟩)

-- =============================================================== the log

/-- The log after a call; there is none while the book is not ready. -/
def logAfterOp (log : Option (List Entry)) (op : Op) :
    Option (List Entry) :=
  match op with
  | .applySnapshot _ _ => some op.entries
  | .applyUpdates _ => log.map fun l => l ++ op.entries
  | .reset => none

/-- There is a log since a snapshot with no reset after it. By induction
from the right: an update keeps what there is, a snapshot begins a log,
and a reset ends it. -/
theorem isSome_foldl_logAfterOp {ops : List Op} :
    (ops.foldl logAfterOp none).isSome = true ↔ ∃ pre bids asks post,
      ops = pre ++ .applySnapshot bids asks :: post
        ∧ ∀ op ∈ post, op ≠ .reset := by
  induction ops using List.reverseRecOn with
  | nil => simp
  | append_singleton ops op ih =>
      rw [List.foldl_append, List.foldl_cons, List.foldl_nil]
      constructor
      · intro h
        cases op with
        | applySnapshot bids asks => exact ⟨ops, bids, asks, [], rfl, by simp⟩
        | applyUpdates changes =>
            have hsome : (ops.foldl logAfterOp none).isSome = true := by
              rw [← h, logAfterOp, Option.isSome_map]
            obtain ⟨pre, bids, asks, post, rfl, hpost⟩ := ih.mp hsome
            refine ⟨pre, bids, asks, post ++ [.applyUpdates changes],
              by simp, fun op hop => ?_⟩
            rcases List.mem_append.mp hop with hop | hop
            · exact hpost op hop
            · rw [List.mem_singleton.mp hop]
              exact nofun
        | reset => cases h
      · intro h
        obtain ⟨pre, bids, asks, post, heq, hpost⟩ := h
        rcases List.eq_nil_or_concat' post with rfl | ⟨post, op', rfl⟩
        · obtain ⟨rfl, rfl⟩ := List.append_singleton_inj.mp heq
          rfl
        · have hops : ops ++ [op]
              = (pre ++ .applySnapshot bids asks :: post) ++ [op'] := by
            simpa using heq
          obtain ⟨rfl, rfl⟩ := List.append_singleton_inj.mp hops
          have hsome := ih.mpr ⟨pre, bids, asks, post, rfl,
            fun op hop => hpost op (List.mem_append_left _ hop)⟩
          cases op with
          | applySnapshot bids asks => rfl
          | applyUpdates changes =>
              rw [logAfterOp, Option.isSome_map]
              exact hsome
          | reset => exact absurd rfl (hpost .reset (by simp))

/-- Deltas after a snapshot are added to its log. -/
theorem foldl_logAfterOp {pre post : List Op} {bids asks : List (Json × Json)}
    (hpost : ∀ op ∈ post, ∃ changes, op = .applyUpdates changes) :
    (pre ++ .applySnapshot bids asks :: post).foldl logAfterOp none
      = some (snapshotEntries bids asks ++ post.flatMap Op.entries) := by
  rw [List.foldl_append, List.foldl_cons]
  induction post using List.reverseRecOn with
  | nil =>
      rw [List.flatMap_nil, List.append_nil]
      rfl
  | append_singleton post op ih =>
      have ih := ih fun op hop => hpost op (List.mem_append_left _ hop)
      obtain ⟨changes, rfl⟩ := hpost op (by simp)
      rw [List.foldl_append, ih, List.flatMap_append, ← List.append_assoc]
      simp [logAfterOp]

-- ============================================================== the steps

/-- A call whose levels are `ok` keeps a stable property of both sides,
raise or not. -/
theorem Stable.preserves_runBy {n : Negation} {P : Side → Levels → Prop}
    {ok : Side → Json → Json → Prop} (hP : Stable n P ok) {op : Op}
    (hop : op.Each ok) : Preserves (Both P) (op.runBy n) := by
  cases op with
  | applySnapshot bids asks =>
      exact hP.preserves_applySnapshotBy hop.1 hop.2
  | applyUpdates changes => exact hP.preserves_applyUpdatesBy hop
  | reset => exact hP.preserves_reset

/-- Finite levels keep a side sorted. -/
theorem keeps_sorted : Keeps Levels.Sorted FiniteLevel where
  nil := Levels.sorted_nil
  set := fun side d price size hd h => by
    obtain ⟨q, s, hq, hs, hfits⟩ := h
    obtain ⟨d', hset, hd'⟩ := hd.set hfits s
    exact ⟨_, _, d', hq, hs, hset, hd'⟩

/-- A finite level has an entry. -/
theorem isSome_entryOf {side : Side} {price size : Json}
    (h : FiniteLevel side price size) : (entryOf side price size).isSome := by
  obtain ⟨q, s, hq, hs, -⟩ := h
  rw [entryOf, hq, hs]
  rfl

/-- A call of finite levels does not raise; it takes a book of a log to
the book of the log after it. By the three calls; what the programs do
to a logged book and to a sorted one has been shown of each. -/
theorem run_op {op : Op} (hop : op.Finite) {log : Option (List Entry)}
    {b : OrderBook} (hlog : Logged log b) (hb : b.Both Levels.Sorted) :
    ∃ b', op.run.run b = .ok () b' ∧ Logged (logAfterOp log op) b'
      ∧ b'.Both Levels.Sorted := by
  cases op with
  | applySnapshot bids asks =>
      obtain ⟨b', hrun, hb', -⟩ :=
        keeps_sorted.run_applySnapshot hop.1 hop.2 b
      exact ⟨b', hrun, mirrors_applySnapshot
        (fun x hx => isSome_entryOf (hop.1 x hx))
        (fun x hx => isSome_entryOf (hop.2 x hx)) hrun, hb'⟩
  | applyUpdates changes =>
      obtain ⟨b', hrun, hb', -⟩ := keeps_sorted.run_applyUpdates hb hop
      refine ⟨b', hrun, ?_, hb'⟩
      cases log with
      | none =>
          rw [run_applyUpdates_idle hlog.2] at hrun
          cases hrun
          exact hlog
      | some l =>
          refine mirrors_applyUpdates (fun x hx => ?_) hlog.1 hlog.2 hrun
          obtain ⟨side, hside, hx⟩ := hop x hx
          rw [changeEntry, hside]
          exact isSome_entryOf hx
  | reset =>
      refine ⟨b.reset, rfl, ⟨fun side => by cases side <;> rfl, rfl⟩, ?_⟩
      intro side
      cases side <;> exact Levels.sorted_nil _

/-- So does a run of such calls, by induction on them. -/
theorem run_runAll (ops : List Op) (hops : ∀ op ∈ ops, op.Finite) :
    ∀ {log : Option (List Entry)} {b : OrderBook}, Logged log b →
      b.Both Levels.Sorted →
      ∃ b', (runAll ops).run b = .ok () b'
        ∧ Logged (ops.foldl logAfterOp log) b' ∧ b'.Both Levels.Sorted := by
  induction ops with
  | nil => exact fun hlog hb => ⟨_, rfl, hlog, hb⟩
  | cons op ops ih =>
      intro log b hlog hb
      obtain ⟨hop, hops⟩ := List.forall_mem_cons.mp hops
      obtain ⟨b₁, hrun₁, hlog₁, hb₁⟩ := run_op hop hlog hb
      obtain ⟨b', hrun, hlog', hb'⟩ := ih hops hlog₁ hb₁
      refine ⟨b', ?_, hlog', hb'⟩
      show (op.run >>= fun _ => runAll ops).run b = _
      rw [run_bind, hrun₁]
      exact hrun

-- ========================================================= top of the book

section Top

variable {log : Option (List Entry)} {b : OrderBook}

/-- A book is ready while there is a log. -/
theorem Logged.ready_eq (h : Logged log b) : b.ready = log.isSome := by
  cases log with
  | some l => exact h.2
  | none => exact h.2

/-- A book that is not ready holds nothing. -/
theorem Logged.empty (h : Logged log b) (hready : b.ready = false) :
    b.bids = [] ∧ b.asks = [] := by
  cases log with
  | some l => rw [h.2] at hready; cases hready
  | none => exact ⟨h.1 .buy, h.1 .sell⟩

/-- A book without levels has no best ones, ready or not. -/
theorem Logged.best (h : Logged log b) :
    b.bestBid = b.bids.head? ∧ b.bestAsk = b.asks.head? := by
  unfold bestBid bestAsk
  cases hready : b.ready with
  | true => exact ⟨rfl, rfl⟩
  | false =>
      obtain ⟨hbids, hasks⟩ := h.empty hready
      rw [hbids, hasks]
      exact ⟨rfl, rfl⟩

/-- The quote, by comparison of the best prices. -/
theorem quote_of_best {bid bidSize ask askSize : ℚ}
    (hbid : b.bestBid = some (.finite bid, .finite bidSize))
    (hask : b.bestAsk = some (.finite ask, .finite askSize)) :
    b.quote = if bid < ask
      then .ok (some ⟨.finite bid, .finite bidSize, .finite ask,
        .finite askSize⟩)
      else .error .crossedBookError := by
  unfold OrderBook.quote
  rw [hbid, hask]
  simp [Decimal.isNan, Decimal.lt]

/-- A side that is not empty has a best level. -/
theorem exists_head {d : Levels} (hd : d.Plain) (hne : d ≠ []) :
    ∃ q s, d.head? = some (.finite q, .finite s) := by
  obtain ⟨l, d', rfl⟩ := List.exists_cons_of_ne_nil hne
  obtain ⟨q, s, rfl⟩ := hd.finite l List.mem_cons_self
  exact ⟨q, s, rfl⟩

/-- There is no quote while the book is not ready or a side is empty. -/
theorem Logged.noQuote_iff (h : Logged log b) (hb : b.Both Levels.Sorted) :
    b.quote = .ok none ↔ b.ready = false ∨ b.bids = [] ∨ b.asks = [] := by
  obtain ⟨hbid, hask⟩ := h.best
  constructor
  · intro hquote
    by_contra hnot
    rw [not_or, not_or] at hnot
    obtain ⟨-, hbids, hasks⟩ := hnot
    obtain ⟨bid, bidSize, hbid'⟩ := exists_head (hb .buy).plain hbids
    obtain ⟨ask, askSize, hask'⟩ := exists_head (hb .sell).plain hasks
    rw [quote_of_best (hbid.trans hbid') (hask.trans hask')] at hquote
    split at hquote <;> cases hquote
  · intro hempty
    have hsides : b.bids = [] ∨ b.asks = [] := by
      rcases hempty with hready | hside
      · exact Or.inl (h.empty hready).1
      · exact hside
    unfold OrderBook.quote
    rw [hbid, hask]
    rcases hsides with hside | hside
    · rw [hside]
      rfl
    · rw [hside]
      cases b.bids.head? <;> rfl

/-- A book is crossed when its best ask is not above its best bid. -/
theorem Logged.crossed_iff (h : Logged log b) (hb : b.Both Levels.Sorted) :
    b.quote = .error .crossedBookError
      ↔ ∃ bid bidSize ask askSize,
        b.bestBid = some (.finite bid, .finite bidSize)
          ∧ b.bestAsk = some (.finite ask, .finite askSize)
          ∧ ask ≤ bid := by
  constructor
  · intro hquote
    have hsome : ¬ (b.ready = false ∨ b.bids = [] ∨ b.asks = []) := by
      intro hempty
      rw [(h.noQuote_iff hb).mpr hempty] at hquote
      cases hquote
    rw [not_or, not_or] at hsome
    obtain ⟨-, hbids, hasks⟩ := hsome
    obtain ⟨bid, bidSize, hbid⟩ := exists_head (hb .buy).plain hbids
    obtain ⟨ask, askSize, hask⟩ := exists_head (hb .sell).plain hasks
    have hbid := h.best.1.trans hbid
    have hask := h.best.2.trans hask
    refine ⟨bid, bidSize, ask, askSize, hbid, hask, ?_⟩
    by_contra hlt
    rw [quote_of_best hbid hask, if_pos (not_le.mp hlt)] at hquote
    cases hquote
  · intro hcrossed
    obtain ⟨bid, bidSize, ask, askSize, hbid, hask, hle⟩ := hcrossed
    rw [quote_of_best hbid hask, if_neg (not_lt.mpr hle)]

end Top

/-- Calls of finite levels do not raise, and leave the map of last
writes.

The run keeps the log and the order (`run_runAll`). Readiness and levels
are read off the log, the best levels off the order (`SortedBy.head`),
and the quote off the best levels (`quote_of_best`). -/
theorem order_book_is_last_write_map (ops : List Op)
    (hops : ∀ op ∈ ops, op.Finite) :
    ∃ b, (runAll ops).run {} = .ok () b ∧ IsLastWriteMap ops b := by
  have hnew : Logged none {} := ⟨fun side => by cases side <;> rfl, rfl⟩
  have hsorted : Both Levels.Sorted {} := fun side => by
    cases side <;> exact Levels.sorted_nil _
  obtain ⟨b, hrun, hlog, hb⟩ := run_runAll ops hops hnew hsorted
  have hmirrors := hlog.mirrors
  refine ⟨b, hrun, ?_⟩
  exact {
    ready := by
      rw [hlog.ready_eq]
      exact isSome_foldl_logAfterOp
    empty := hlog.empty
    level := fun pre bids asks post hdecomp hpost side q s => by
      rw [hdecomp, foldl_logAfterOp hpost] at hmirrors
      exact hmirrors.level side q s
    plain := hmirrors.plain
    nonzero := fun side q s hrests hzero => by
      rw [hmirrors.level, sizeAfter, Option.bind_eq_some_iff] at hrests
      obtain ⟨e, -, he⟩ := hrests
      split at he
      · cases he
      · next hne => exact hne ((Option.some.inj he).trans hzero)
    bestBid := fun q s => by
      have hhead := (hb .buy).sortedBy.head (q := q) (s := s)
      simp only [Side.Before, not_lt] at hhead
      rw [hlog.best.1]
      exact hhead
    bestAsk := fun q s => by
      have hhead := (hb .sell).sortedBy.head (q := q) (s := s)
      simp only [Side.Before, not_lt] at hhead
      rw [hlog.best.2]
      exact hhead
    noQuote := hlog.noQuote_iff hb
    crossed := hlog.crossed_iff hb
    quote := fun bid bidSize ask askSize hbid hask hlt => by
      rw [quote_of_best hbid hask, if_pos hlt] }

/-- Two spellings of a price, a removal and a reset. -/
def respelled : List Op :=
  [.applySnapshot [(.str "100.0", .str "1"), (.str "100.00", .str "2")]
      [(.str "101", .str "3")],
    .reset,
    .applySnapshot [(.str "99", .str "1")] [(.str "1E+2", .str "4")],
    .applyUpdates [(.str "buy", .str "99.0", .str "0.00"),
      (.str "buy", .str "98", .str "5")]]

theorem order_book_is_last_write_map_respelled :
    ∃ b, (runAll respelled).run {} = .ok () b
      ∧ IsLastWriteMap respelled b := by
  have hlevel : ∀ {side : Side} {price size : String} (n : Int) (s : ℚ),
      decimal (.str price) = .ok (.finite n) →
      decimal (.str size) = .ok (.finite s) → |n| < 10 ^ 28 →
      Int.log 10 |(n : ℚ)| ≤ 999999 →
      FiniteLevel side (.str price) (.str size) :=
    fun n s hn hs hdigits hlog => ⟨n, s, hn, hs, fun _ =>
      ⟨⟨n, 0, by rw [zpow_zero, mul_one], hdigits, by decide⟩, hlog⟩⟩
  apply order_book_is_last_write_map respelled
  simp only [respelled, List.forall_mem_cons, List.not_mem_nil,
    false_implies, implies_true, and_true, Op.Finite]
  refine ⟨⟨⟨?_, ?_⟩, ?_⟩, trivial, ⟨?_, ?_⟩, ⟨.buy, rfl, ?_⟩, .buy, rfl, ?_⟩
  · exact hlevel 100 1 (by decide +kernel) (by decide +kernel)
      (by decide +kernel) (by decide +kernel)
  · exact hlevel 100 2 (by decide +kernel) (by decide +kernel)
      (by decide +kernel) (by decide +kernel)
  · exact hlevel 101 3 (by decide +kernel) (by decide +kernel)
      (by decide +kernel) (by decide +kernel)
  · exact hlevel 99 1 (by decide +kernel) (by decide +kernel)
      (by decide +kernel) (by decide +kernel)
  · exact hlevel 100 4 (by decide +kernel) (by decide +kernel)
      (by decide +kernel) (by decide +kernel)
  · exact hlevel 99 0 (by decide +kernel) (by decide +kernel)
      (by decide +kernel) (by decide +kernel)
  · exact hlevel 98 5 (by decide +kernel) (by decide +kernel)
      (by decide +kernel) (by decide +kernel)

/-- A power of ten beyond the default context cannot be negated. -/
theorem negOverflows_of_lt {k : Int} (hk : 999999 < k) :
    Decimal.negOverflows (.finite (10 ^ k)) = true := by
  have hexact : roundSig 28 (-1000026) (-10 ^ k) = -10 ^ k := by
    refine roundSig_eq_self (m := -1) (e := k) ?_ (by norm_num) (by omega)
    push_cast
    ring
  have hlog : Int.log 10 ((10 : ℚ) ^ k) = k := by
    exact_mod_cast Int.log_zpow (R := ℚ) (b := 10) (by norm_num) k
  rw [Decimal.negOverflows, hexact, abs_neg,
    abs_of_pos (by positivity : (0 : ℚ) < 10 ^ k), hlog, decide_eq_true_eq]
  exact hk

/-- A new bid whose price cannot be negated raises. -/
theorem run_write_overflow {b : OrderBook} (hb : b.bids = [])
    {price size : Json} {q s : ℚ} (hq : decimal price = .ok (.finite q))
    (hs : decimal size = .ok (.finite s)) (hzero : s ≠ 0)
    (hover : Decimal.negOverflows (.finite q) = true) :
    (write .buy price size).run b = .error .decimalOverflow b := by
  have hset : (b.levels .buy).set .buy (.finite q) (.finite s)
      = .error .decimalOverflow := by
    show Levels.set .buy b.bids (.finite q) (.finite s) = _
    rw [hb, Levels.set, if_neg (by simp [Decimal.eq, hzero])]
    show (if Decimal.negOverflows (.finite q) = true then _ else _) = _
    rw [if_pos hover]
  unfold write
  rw [hq, hs]
  show (attempt ((b.levels .buy).set .buy (.finite q) (.finite s)) >>=
    fun d => EStateM.set (b.setLevels .buy d)).run b = _
  rw [hset]
  rfl

/-- A price of less than half the least digit is negated to zero. -/
theorem neg_of_tiny {q : ℚ} (hpos : 0 < q)
    (hq : q < 1 / 2 * 10 ^ (-1000026 : Int)) :
    Decimal.neg (.finite q) = .finite 0
      ∧ Decimal.negOverflows (.finite q) = false := by
  have hzero : roundSig 28 (-1000026) (-q) = 0 := by
    have hunit : (0 : ℚ) < 10 ^ (-1000026 : Int) := by positivity
    have hlt : q < 10 ^ (-1000026 : Int) := by
      generalize (10 : ℚ) ^ (-1000026 : Int) = u at hq hunit ⊢
      linarith
    have hlog : Int.log 10 q < -1000026 := by
      rw [← Int.lt_zpow_iff_log_lt (by norm_num) hpos]
      rw [Nat.cast_ofNat]
      exact hlt
    rw [roundSig, if_neg (neg_ne_zero.mpr hpos.ne'), abs_neg,
      abs_of_pos hpos]
    dsimp only
    rw [max_eq_right (by omega)]
    generalize (10 : ℚ) ^ (-1000026 : Int) = u at hq hunit ⊢
    have hlow : -(1 / 2) < -q / u := by
      rw [lt_div_iff₀ hunit]
      linarith
    have hhigh : -q / u < 0 := by
      rw [div_neg_iff]
      exact Or.inr ⟨by linarith, hunit⟩
    have hfloor : ⌊-q / u⌋ = -1 := by
      rw [Int.floor_eq_iff]
      push_cast
      constructor <;> linarith
    have hround : roundEven (-q / u) = 0 := by
      unfold roundEven
      rw [hfloor]
      push_cast
      rw [if_neg (by linarith), if_neg (by linarith)]
    rw [hround]
    exact zero_mul _
  constructor
  · rw [Decimal.neg, hzero]
  · rw [Decimal.negOverflows, hzero]
    decide +kernel

/-- Two bids that are negated to zero lie in the order of arrival. -/
theorem run_tiny_bids {price price' size : Json} {q r s : ℚ} (hqr : q ≠ r)
    (hzero : s ≠ 0) (hq : decimal price = .ok (.finite q))
    (hr : decimal price' = .ok (.finite r))
    (hs : decimal size = .ok (.finite s))
    (hkeys : ∀ t ∈ [q, r], Decimal.neg (.finite t) = .finite 0
      ∧ Decimal.negOverflows (.finite t) = false) :
    ∃ b, (runAll [.applySnapshot [(price, size), (price', size)] []]).run {}
        = .ok () b
      ∧ b.bids = [(.finite q, .finite s), (.finite r, .finite s)] := by
  obtain ⟨hkq, hoq⟩ := hkeys q (by simp)
  obtain ⟨hkr, hor⟩ := hkeys r (by simp)
  have hfirst : Levels.set .buy [] (.finite q) (.finite s)
      = .ok [(.finite q, .finite s)] := by
    simp [Levels.set, Levels.setItem, Levels.contains, Levels.insort,
      Decimal.eq, hzero, Side.keyRaises, hoq]
  have hsecond : Levels.set .buy [(.finite q, .finite s)] (.finite r)
      (.finite s) = .ok [(.finite q, .finite s), (.finite r, .finite s)] := by
    simp [Levels.set, Levels.setItem, Levels.contains, Levels.insort,
      Decimal.eq, Decimal.lt, Decimal.isNan, hzero, Side.keyRaises,
      Side.key, hor, hkq, hkr, hqr]
  have hone : (write .buy price size).run {}
      = .ok () (setLevels {} .buy [(.finite q, .finite s)]) :=
    run_write hq hs hfirst
  have htwo := run_write (b := setLevels {} .buy [(.finite q, .finite s)])
    hr hs hsecond
  have hside : (writeAll .buy [(price, size), (price', size)]).run (clear {})
      = .ok () (setLevels {} .buy
        [(.finite q, .finite s), (.finite r, .finite s)]) := by
    show (write .buy price size >>= fun _ =>
      write .buy price' size >>= fun _ => writeAll .buy []).run {} = _
    rw [run_bind, hone]
    show (write .buy price' size >>= fun _ => writeAll .buy []).run _ = _
    rw [run_bind, htwo]
    rfl
  have hrun : (applySnapshot [(price, size), (price', size)] []).run {}
      = .ok () { ready := true, snapshotCount := 1, bids :=
        [(.finite q, .finite s), (.finite r, .finite s)] } := by
    unfold applySnapshot
    rw [run_modify_bind, run_bind, hside]
    rfl
  have hall : (runAll [.applySnapshot [(price, size), (price', size)]
      []]).run {} = .ok () { ready := true, snapshotCount := 1, bids :=
        [(.finite q, .finite s), (.finite r, .finite s)] } := by
    show (applySnapshot [(price, size), (price', size)] [] >>= fun _ =>
      runAll []).run {} = _
    rw [run_bind, hrun]
    rfl
  exact ⟨_, hall, rfl⟩

/-- Of one digit each: a bid whose exponent is above the default
context's can be read and not negated, and of two whose exponents are
below it the first to arrive is the best, not the greater. -/
theorem bids_beyond_the_context :
    decimal (.str "1E+1000000") = .ok (.finite (10 ^ (1000000 : Int)))
      ∧ (runAll [.applySnapshot [(.str "1E+1000000", .str "1")] []]).run {}
        = .error .decimalOverflow {}
      ∧ ∃ b, (runAll [.applySnapshot [(.str "1E-1000027", .str "1"),
            (.str "2E-1000027", .str "1")] []]).run {} = .ok () b
        ∧ b.bids = [(.finite (10 ^ (-1000027 : Int)), .finite 1),
            (.finite (2 * 10 ^ (-1000027 : Int)), .finite 1)] := by
  have hread : ∀ {text : String} {n : Nat} {e : Int}, decimal (.str text)
      = .ok (.finite (((1 : Int) : ℚ) * scale n e)) →
      decimal (.str text) = .ok (.finite (n * 10 ^ e)) := by
    intro text n e h
    rw [h, scale_eq, Int.cast_one, one_mul]
  have hprice : decimal (.str "1E+1000000")
      = .ok (.finite (10 ^ (1000000 : Int))) := by
    rw [hread (n := 1) (e := 1000000) (by decide +kernel), Nat.cast_one,
      one_mul]
  have hlow : decimal (.str "1E-1000027")
      = .ok (.finite (10 ^ (-1000027 : Int))) := by
    rw [hread (n := 1) (e := -1000027) (by decide +kernel), Nat.cast_one,
      one_mul]
  have hlow' : decimal (.str "2E-1000027")
      = .ok (.finite (2 * 10 ^ (-1000027 : Int))) := by
    rw [hread (n := 2) (e := -1000027) (by decide +kernel)]
    rfl
  have hsize : decimal (.str "1") = .ok (.finite 1) := by decide +kernel
  refine ⟨hprice, ?_, ?_⟩
  · have hwrite : (write .buy (.str "1E+1000000") (.str "1")).run {}
        = .error .decimalOverflow {} :=
      run_write_overflow rfl hprice hsize one_ne_zero
        (negOverflows_of_lt (by decide))
    have hside : (writeAll .buy [(.str "1E+1000000", .str "1")]).run
        (clear {}) = .error .decimalOverflow {} := by
      show (write .buy (.str "1E+1000000") (.str "1") >>= fun _ =>
        writeAll .buy []).run {} = _
      rw [run_bind, hwrite]
    show (applySnapshot [(.str "1E+1000000", .str "1")] [] >>= fun _ =>
      runAll []).run {} = _
    unfold applySnapshot
    rw [run_bind, run_modify_bind, run_bind, hside]
  · have hunit : (10 : ℚ) ^ (-1000026 : Int)
        = 10 * 10 ^ (-1000027 : Int) := by
      rw [← zpow_one_add₀ (by norm_num)]
      rfl
    have hpos : (0 : ℚ) < 10 ^ (-1000027 : Int) := by positivity
    refine run_tiny_bids ?_ one_ne_zero hlow hlow' hsize fun t ht => ?_
    · linarith
    · rcases List.mem_cons.mp ht with rfl | ht
      · exact neg_of_tiny hpos (by linarith)
      · rw [List.mem_singleton.mp ht]
        exact neg_of_tiny (by linarith) (by linarith)

end OrderBook

end MarketPlatform.Consumer
