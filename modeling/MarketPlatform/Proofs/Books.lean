/-
What the order book's programs do, once each.

# Two books in lockstep

Two books that hold the same levels go through `apply_snapshot` and
`apply_updates` in lockstep: nothing else of a book is read, the ready
flag of `apply_updates` apart. `Same ρ` is the relation, with `ρ` for
what is asked of the two flags: equality where both books are live, and
nothing where one of them is about to be overwritten.

# What setting a level does

`Sets` lists the three things, with their conditions: the level is
removed, its size is replaced, or it is inserted. Every invariant of a
side is proved by cases on it (`sets_of_ok`). With no price twice
(`Keyed`) the effect can be said at once: the price has the size given,
or nothing when that is zero, and all others are as they were
(`Keyed.setBy`).

# What a whole call keeps

Two judgments, and one lemma for each program. `Keeps` is about levels
that are written without raising, and gives that the call returns; a
level is written without raising when its side and numbers can be read
and no not-a-number stands among the keys (`Comparable`). `Stable` is
about any call, and gives that what it leaves behind, raise or not,
still has the property. A new invariant of the book then needs the two
fields of one of them and no more.
-/
import MarketPlatform.Consumer.BookArithmetic

namespace MarketPlatform.Consumer

open Lib EStateM

-- ================================================================= levels

namespace Levels

variable {n : Negation} {side : Side} {d d' : Levels} {p s : Decimal}

/-- No key is a not-a-number. -/
def Comparable (d : Levels) : Prop := ∀ l ∈ d, l.1.isNan = false

/-- A side without levels has no keys. -/
@[simp] theorem comparable_nil : Comparable [] := by simp [Comparable]

/-- An insertion adds the new level and keeps the others. -/
theorem perm_insortBy (n : Negation) (side : Side) (p s : Decimal)
    (d : Levels) : (insortBy n side p s d).Perm ((p, s) :: d) := by
  induction d with
  | nil => exact .refl _
  | cons l d ih =>
      unfold insortBy
      split
      · exact .refl _
      · exact (ih.cons l).trans (.swap ..)

/-- What is there after an insertion. -/
theorem mem_insortBy {l : Decimal × Decimal} :
    l ∈ insortBy n side p s d ↔ l = (p, s) ∨ l ∈ d := by
  rw [(perm_insortBy n side p s d).mem_iff, List.mem_cons]

/-- The same in the default context. -/
theorem mem_insort {l : Decimal × Decimal} :
    l ∈ insort side p s d ↔ l = (p, s) ∨ l ∈ d := by
  rw [← insortBy_default, mem_insortBy]

/-- What setting a level does to a side, where it does not raise. -/
inductive Sets (n : Negation) (side : Side) (p s : Decimal) (d : Levels) :
    Levels → Prop where
  | removed (hs : s.eq (.finite 0) = true) : Sets n side p s d (d.pop p)
  | replaced (hs : ¬ s.eq (.finite 0) = true)
      (hc : d.contains p = true) :
      Sets n side p s d (d.map fun l => if l.1.eq p then (l.1, s) else l)
  | added (hs : ¬ s.eq (.finite 0) = true) (hc : ¬ d.contains p = true)
      (hraises : ¬ side.keyRaisesBy n p = true)
      (hnan : ¬ (d ≠ [] ∧ (p.isNan = true
        ∨ (d.any fun l => l.1.isNan) = true))) :
      Sets n side p s d (d.insortBy n side p s)

/-- What setting a level does to a side, where it does not raise. By the
branches of the program. -/
theorem sets_of_ok (h : d.setBy n side p s = .ok d') :
    Sets n side p s d d' := by
  unfold Levels.setBy at h
  by_cases hs : s.eq (.finite 0) = true
  · rw [if_pos hs] at h
    obtain rfl := Except.ok.inj h
    exact .removed hs
  · rw [if_neg hs, setItemBy] at h
    by_cases hc : d.contains p = true
    · rw [if_pos hc] at h
      obtain rfl := Except.ok.inj h
      exact .replaced hs hc
    · rw [if_neg hc] at h
      split at h
      · cases h
      · next hraises =>
          split at h
          · cases h
          · next hnan =>
              obtain rfl := Except.ok.inj h
              exact .added hs hc hraises hnan

/-- A replaced size leaves the prices. -/
theorem map_fst_replace (p s : Decimal) (d : Levels) :
    (d.map fun l => if l.1.eq p then (l.1, s) else l).map Prod.fst
      = d.map Prod.fst := by
  rw [List.map_map]
  refine List.map_congr_left fun l _ => ?_
  show (if l.1.eq p = true then (l.1, s) else l).1 = l.1
  split <;> rfl

/-- And what holds between them in their order. -/
theorem pairwise_replace {R : Decimal → Decimal → Prop}
    (hd : d.Pairwise fun l m => R l.1 m.1) :
    (d.map fun l => if l.1.eq p then (l.1, s) else l).Pairwise
      fun l m => R l.1 m.1 := by
  have hkeys := List.pairwise_map.mpr hd
  rw [← map_fst_replace p s] at hkeys
  exact List.pairwise_map.mp hkeys

/-- Setting a level adds no key but the level's own. -/
theorem key_of_mem_set (h : d.set side p s = .ok d')
    {l : Decimal × Decimal} (hl : l ∈ d') :
    l.1 = p ∨ ∃ m ∈ d, m.1 = l.1 := by
  rw [← setBy_default] at h
  cases sets_of_ok h with
  | removed hs => exact Or.inr ⟨l, List.mem_of_mem_filter hl, rfl⟩
  | replaced hs hc =>
      have hkey := List.mem_map_of_mem (f := Prod.fst) hl
      rw [map_fst_replace] at hkey
      exact Or.inr (List.mem_map.mp hkey)
  | added hs hc hraises hnan =>
      rcases mem_insortBy.mp hl with rfl | hmem
      · exact Or.inl rfl
      · exact Or.inr ⟨l, hmem, rfl⟩

/-- A comparable key keeps the keys comparable. -/
theorem Comparable.set (hd : Comparable d) (hp : p.isNan = false)
    (h : d.set side p s = .ok d') : Comparable d' := by
  intro l hl
  rcases key_of_mem_set h hl with hkey | ⟨m, hm, hkey⟩
  · rw [hkey, hp]
  · rw [← hkey, hd m hm]

/-- Among comparable keys a comparable key can be set. -/
theorem Comparable.setBy_ok (hd : Comparable d) (hp : p.isNan = false)
    (hkey : side.keyRaisesBy n p = false) (s : Decimal) :
    ∃ d', d.setBy n side p s = .ok d' := by
  have hnone : (d.any fun l => l.1.isNan) = false := by
    rw [List.any_eq_false]
    exact fun l hl => by simp [hd l hl]
  unfold Levels.setBy setItemBy
  split
  · exact ⟨_, rfl⟩
  · split
    · exact ⟨_, rfl⟩
    · rw [if_neg (by simp [hkey]), if_neg (by simp [hp, hnone])]
      exact ⟨_, rfl⟩

/-- The same in the default context. -/
theorem Comparable.set_ok (hd : Comparable d) (hp : p.isNan = false)
    (hkey : side.keyRaises p = false) :
    ∃ d', d.set side p s = .ok d' := by
  rw [← Side.keyRaisesBy_default] at hkey
  obtain ⟨d', h⟩ := hd.setBy_ok hp hkey s
  rw [setBy_default] at h
  exact ⟨d', h⟩

/-- No price is a key twice. -/
def Keyed (d : Levels) : Prop := (d.map Prod.fst).Nodup

/-- A side without levels has no price twice. -/
theorem keyed_nil : Keyed [] := List.nodup_nil

/-- Two prices are equal as keys when they are, and are no
not-a-number. -/
theorem eq_iff {p' : Decimal} :
    p'.eq p = true ↔ p' = p ∧ p.isNan = false := by
  cases p <;> cases p' <;> simp [Decimal.eq, Decimal.isNan]

/-- A price is there when it is one of the keys. -/
theorem contains_iff :
    d.contains p = true ↔ p ∈ d.map Prod.fst ∧ p.isNan = false := by
  simp only [contains, List.any_eq_true, eq_iff, List.mem_map]
  constructor
  · intro hx
    obtain ⟨l, hl, heq, hnan⟩ := hx
    exact ⟨⟨l, hl, heq⟩, hnan⟩
  · intro hx
    obtain ⟨⟨l, hl, heq⟩, hnan⟩ := hx
    exact ⟨l, hl, heq, hnan⟩

/-- What a size leaves at its level. -/
def resting (s : Decimal) : Option Decimal :=
  if s.eq (.finite 0) then none else some s

/-- Removing a price leaves the others. -/
theorem Keyed.pop (hd : Keyed d) (hp : p.isNan = false) :
    Keyed (d.pop p) ∧ ∀ l, l ∈ d.pop p ↔ l.1 ≠ p ∧ l ∈ d := by
  refine ⟨hd.sublist (List.filter_sublist.map _), fun l => ?_⟩
  have heq : l.1.eq p = true ↔ l.1 = p := by
    rw [eq_iff, and_iff_left hp]
  rw [Levels.pop, List.mem_filter, Bool.not_eq_true', ← Bool.not_eq_true,
    heq, and_comm]

/-- A price that is there gets a new size. -/
theorem Keyed.replace (hd : Keyed d) (hc : d.contains p = true)
    (h : d' = d.map fun l => if l.1.eq p then (l.1, s) else l) :
    Keyed d' ∧ ∀ l, l ∈ d' ↔ if l.1 = p then l.2 = s else l ∈ d := by
  obtain ⟨hmem, hnan⟩ := contains_iff.mp hc
  have heq : ∀ q : Decimal, q.eq p = true ↔ q = p := fun q => by
    rw [eq_iff, and_iff_left hnan]
  subst h
  constructor
  · unfold Keyed
    rw [map_fst_replace]
    exact hd
  · intro l
    rw [List.mem_map]
    constructor
    · intro hx
      obtain ⟨m, hm, rfl⟩ := hx
      by_cases hmp : m.1 = p
      · rw [if_pos ((heq _).mpr hmp)]
        exact (if_pos hmp).mpr rfl
      · rw [if_neg (mt (heq _).mp hmp), if_neg hmp]
        exact hm
    · intro hl
      by_cases hlp : l.1 = p
      · rw [if_pos hlp] at hl
        obtain ⟨m, hm, hmp⟩ := List.mem_map.mp hmem
        refine ⟨m, hm, ?_⟩
        rw [if_pos ((heq _).mpr hmp), hmp, ← hlp, ← hl]
      · rw [if_neg hlp] at hl
        exact ⟨l, hl, if_neg (mt (heq _).mp hlp)⟩

/-- A price that is not there is added. -/
theorem Keyed.insortBy (hd : Keyed d) (hp : p ∉ d.map Prod.fst) :
    Keyed (d.insortBy n side p s) ∧ ∀ l, l ∈ d.insortBy n side p s
      ↔ if l.1 = p then l.2 = s else l ∈ d := by
  constructor
  · have hperm := (perm_insortBy n side p s d).map Prod.fst
    exact hperm.nodup_iff.mpr (List.nodup_cons.mpr ⟨hp, hd⟩)
  · intro l
    rw [mem_insortBy, Prod.ext_iff]
    by_cases hl : l.1 = p
    · have hgone : l ∉ d := fun hmem => hp (hl ▸ List.mem_map_of_mem hmem)
      rw [if_pos hl, or_iff_left hgone, and_iff_right hl]
    · rw [if_neg hl, or_iff_right fun h => hl h.1]

/-- What the levels are after one is set: the size given, or nothing
when it is zero, and the other prices as they were. By what `set` does:
it removes, replaces or inserts. A price that is not a number is a key
and yet never contained, so it is inserted again and must not be. -/
theorem Keyed.setBy (hd : Keyed d)
    (hnan : p.isNan = true → resting s ≠ none)
    (h : d.setBy n side p s = .ok d') :
    Keyed d' ∧ ∀ l, l ∈ d'
      ↔ if l.1 = p then resting s = some l.2 else l ∈ d := by
  have hleft : ∀ {s : Decimal}, ¬ s.eq (.finite 0) = true →
      ∀ l : Decimal × Decimal,
        (if l.1 = p then l.2 = s else l ∈ d)
          ↔ if l.1 = p then resting s = some l.2 else l ∈ d := by
    intro s hs l
    rw [resting, if_neg hs, Option.some_inj, eq_comm (a := s)]
  cases sets_of_ok h with
  | removed hs =>
      rw [resting, if_pos hs] at hnan ⊢
      have hp : p.isNan = false := by
        rw [← Bool.not_eq_true]
        exact fun hp => hnan hp rfl
      obtain ⟨hkeyed, hmem⟩ := hd.pop hp
      refine ⟨hkeyed, fun l => (hmem l).trans ?_⟩
      by_cases hl : l.1 = p
      · rw [if_pos hl]
        exact iff_of_false (fun hx => hx.1 hl) nofun
      · rw [if_neg hl, and_iff_right hl]
  | replaced hs hc =>
      obtain ⟨hkeyed, hmem⟩ := hd.replace hc rfl
      exact ⟨hkeyed, fun l => (hmem l).trans (hleft hs l)⟩
  | added hs hc hraises hkeys =>
      have hnew : p ∉ d.map Prod.fst := by
        intro hmem
        -- only a not-a-number is a key and yet not contained
        have hp : p.isNan = true := by
          rw [contains_iff, not_and, Bool.not_eq_false] at hc
          exact hc hmem
        refine hkeys ⟨?_, Or.inl hp⟩
        rintro rfl
        cases hmem
      obtain ⟨hkeyed, hmem⟩ := hd.insortBy hnew
      exact ⟨hkeyed, fun l => (hmem l).trans (hleft hs l)⟩

/-- The same in the default context. -/
theorem Keyed.set (hd : Keyed d)
    (hnan : p.isNan = true → resting s ≠ none)
    (h : d.set side p s = .ok d') :
    Keyed d' ∧ ∀ l, l ∈ d'
      ↔ if l.1 = p then resting s = some l.2 else l ∈ d := by
  rw [← setBy_default] at h
  exact hd.setBy hnan h

/-- Removing a not-a-number removes nothing. -/
theorem set_nan_zero (hp : p.isNan = true) (hs : resting s = none)
    (h : d.set side p s = .ok d') : d' = d := by
  have hzero : s.eq (.finite 0) = true := by
    by_contra hne
    rw [resting, if_neg hne] at hs
    cases hs
  unfold Levels.set at h
  rw [if_pos hzero] at h
  obtain rfl := Except.ok.inj h
  refine List.filter_eq_self.mpr fun l _ => ?_
  rw [Bool.not_eq_true', ← Bool.not_eq_true, eq_iff, hp]
  exact fun hx => Bool.noConfusion hx.2

end Levels

namespace OrderBook

/-- The derived state of a book: its levels, and whether it is ready. -/
def derived (b : OrderBook) : Levels × Levels × Bool :=
  (b.bids, b.asks, b.ready)

-- ================================================== two books, one program

/-- Two books with the same levels, their ready flags related by `ρ`. -/
structure Same (ρ : Bool → Bool → Prop) (b c : OrderBook) : Prop where
  bids : b.bids = c.bids
  asks : b.asks = c.asks
  ready : ρ b.ready c.ready

variable {ρ : Bool → Bool → Prop}

/-- Books with the same levels and flag are those with one derived
state. -/
theorem same_eq_iff {b c : OrderBook} :
    Same Eq b c ↔ b.derived = c.derived := by
  simp only [derived, Prod.mk.injEq]
  exact ⟨fun h => ⟨h.bids, h.asks, h.ready⟩, fun h => ⟨h.1, h.2.1, h.2.2⟩⟩

/-- Either side is the same. -/
theorem Same.levels {b c : OrderBook} (h : Same ρ b c) (side : Side) :
    b.levels side = c.levels side := by
  cases side with
  | buy => exact h.bids
  | sell => exact h.asks

/-- Writing the same levels on both keeps them the same. -/
theorem Same.setLevels {b c : OrderBook} (h : Same ρ b c) (side : Side)
    (d : Levels) : Same ρ (b.setLevels side d) (c.setLevels side d) := by
  cases side with
  | buy => exact ⟨rfl, h.asks, h.ready⟩
  | sell => exact ⟨h.bids, rfl, h.ready⟩

/-- A quote is read off the derived state. -/
theorem Same.quote {b c : OrderBook} (h : Same Eq b c) :
    b.quote = c.quote := by
  simp only [OrderBook.quote, bestBid, bestAsk, h.bids, h.asks, h.ready]

/-- One level. -/
theorem lockstep_write (side : Side) (price size : Json) :
    Lockstep (Same ρ) (write side price size) (write side price size) := by
  refine (Lockstep.of_attempt _).bind fun p => ?_
  refine (Lockstep.of_attempt _).bind fun s => ?_
  refine Lockstep.of_get fun b c hbc => ?_
  rw [hbc.levels side]
  cases (c.levels side).set side p s with
  | ok d => exact ⟨rfl, hbc.setLevels side d⟩
  | error e => exact ⟨rfl, hbc⟩

/-- One side of a snapshot, by induction on its levels. -/
theorem lockstep_writeAll (side : Side) (xs : List (Json × Json)) :
    Lockstep (Same ρ) (writeAll side xs) (writeAll side xs) := by
  induction xs with
  | nil => exact Lockstep.of_pure ()
  | cons x xs ih => exact (lockstep_write side x.1 x.2).bind fun _ => ih

/-- The changes of an l2update, by induction on them. -/
theorem lockstep_writeChanges (xs : List (Json × Json × Json)) :
    Lockstep (Same ρ) (writeChanges xs) (writeChanges xs) := by
  induction xs with
  | nil => exact Lockstep.of_pure ()
  | cons x xs ih =>
      exact (Lockstep.of_attempt _).bind fun side =>
        (lockstep_write side x.2.1 x.2.2).bind fun _ => ih

/-- A snapshot replaces the levels, so it takes any two books whose
flags are related to books with the same levels. -/
theorem alike_applySnapshot (hρ : ρ true true)
    (bids asks : List (Json × Json)) {b c : OrderBook}
    (h : ρ b.ready c.ready) :
    ((applySnapshot bids asks).run b).Alike (Same ρ)
      ((applySnapshot bids asks).run c) := by
  have hclear : Same ρ b.clear c.clear := ⟨rfl, rfl, h⟩
  have hready : ∀ b c : OrderBook, Same ρ b c →
      Same ρ { b with ready := true, snapshotCount := b.snapshotCount + 1 }
        { c with ready := true, snapshotCount := c.snapshotCount + 1 } :=
    fun b c h => ⟨h.bids, h.asks, hρ⟩
  exact ((lockstep_writeAll .buy bids).bind fun _ =>
    (lockstep_writeAll .sell asks).bind fun _ =>
      Lockstep.of_modify hready) b.clear c.clear hclear

/-- A snapshot, on two books of which both or neither are ready. -/
theorem lockstep_applySnapshot (bids asks : List (Json × Json)) :
    Lockstep (Same Eq) (applySnapshot bids asks)
      (applySnapshot bids asks) :=
  fun _ _ hbc => alike_applySnapshot rfl bids asks hbc.ready

/-- An l2update: both books take it or both drop it. -/
theorem lockstep_applyUpdates (xs : List (Json × Json × Json)) :
    Lockstep (Same Eq) (applyUpdates xs) (applyUpdates xs) := by
  refine Lockstep.of_get fun b c hbc => ?_
  rw [hbc.ready]
  cases c.ready with
  | false => exact Lockstep.of_pure () b c hbc
  | true =>
      have hcount : ∀ b c : OrderBook, Same Eq b c →
          Same Eq { b with updateCount := b.updateCount + 1 }
            { c with updateCount := c.updateCount + 1 } :=
        fun b c h => ⟨h.bids, h.asks, h.ready⟩
      exact ((lockstep_writeChanges xs).bind fun _ =>
        Lockstep.of_modify hcount) b c hbc

/-- Deltas are dropped while the book has no snapshot. -/
theorem run_applyUpdates_idle {b : OrderBook} (hb : b.ready = false)
    (xs : List (Json × Json × Json)) :
    (applyUpdates xs).run b = .ok () b := by
  show (if b.ready = true then _ else pure () :
    EStateM Exc OrderBook Unit).run b = _
  rw [hb]
  rfl

/-- A book that has its snapshot takes the changes. -/
theorem run_applyUpdates_ready {b : OrderBook} (hb : b.ready = true)
    (xs : List (Json × Json × Json)) :
    (applyUpdates xs).run b
      = (do
          writeChanges xs
          modify fun b => { b with updateCount := b.updateCount + 1 } :
        EStateM Exc OrderBook Unit).run b := by
  show (if b.ready = true then _ else pure () :
    EStateM Exc OrderBook Unit).run b = _
  rw [if_pos hb]

-- ========================================================= what is written

/-- A level that is written without raising. -/
theorem write_ok {side : Side} {price size : Json} {b b' : OrderBook}
    (hrun : (write side price size).run b = .ok () b') :
    ∃ p s d, decimal price = .ok p ∧ decimal size = .ok s
      ∧ (b.levels side).set side p s = .ok d
      ∧ b' = b.setLevels side d := by
  obtain ⟨p, hp, hrun⟩ := run_attempt_bind_ok hrun
  obtain ⟨s, hs, hrun⟩ := run_attempt_bind_ok hrun
  rw [run_bind, run_get] at hrun
  obtain ⟨d, hd, hrun⟩ := run_attempt_bind_ok hrun
  cases hrun
  exact ⟨p, s, d, hp, hs, hd, rfl⟩

/-- Conversely, reading both numbers and setting the level is all that
can fail. -/
theorem run_write {side : Side} {price size : Json} {b : OrderBook}
    {p s : Decimal} {d : Levels} (hp : decimal price = .ok p)
    (hs : decimal size = .ok s)
    (hd : (b.levels side).set side p s = .ok d) :
    (write side price size).run b = .ok () (b.setLevels side d) := by
  unfold write
  rw [hp, hs]
  show (attempt ((b.levels side).set side p s) >>= fun d =>
    EStateM.set (b.setLevels side d)).run b = _
  rw [hd]
  rfl

-- ======================================================= what is kept

section Keeps

variable {P : Side → Levels → Prop} {ok : Side → Json → Json → Prop}

/-- Levels with a property stay so, and no write raises, as long as what
is written is `ok`. -/
structure Keeps (P : Side → Levels → Prop)
    (ok : Side → Json → Json → Prop) : Prop where
  nil : ∀ side, P side []
  set : ∀ side d price size, P side d → ok side price size →
    ∃ p s d', decimal price = .ok p ∧ decimal size = .ok s
      ∧ d.set side p s = .ok d' ∧ P side d'

/-- Both sides of the book have the property. -/
def Both (P : Side → Levels → Prop) (b : OrderBook) : Prop :=
  ∀ side, P side (b.levels side)

/-- Writing a side with the property leaves both with it. -/
theorem Both.setLevels {b : OrderBook} (hb : b.Both P) {side : Side}
    {d : Levels} (hd : P side d) : (b.setLevels side d).Both P := by
  intro side'
  rw [levels_setLevels]
  by_cases h : side' = side
  · rw [if_pos h, h]
    exact hd
  · rw [if_neg h]
    exact hb side'

/-- One level. -/
theorem Keeps.run_write (hP : Keeps P ok) {b : OrderBook} (hb : b.Both P)
    {side : Side} {price size : Json} (h : ok side price size) :
    ∃ b', (write side price size).run b = .ok () b' ∧ b'.Both P
      ∧ b'.ready = b.ready := by
  obtain ⟨p, s, d, hp, hs, hd, hPd⟩ := hP.set side _ _ _ (hb side) h
  exact ⟨_, OrderBook.run_write hp hs hd, hb.setLevels hPd,
    ready_setLevels b side d⟩

/-- One side of a snapshot, by induction on its levels. -/
theorem Keeps.run_writeAll (hP : Keeps P ok) {side : Side}
    (xs : List (Json × Json)) :
    ∀ {b : OrderBook}, b.Both P → (∀ x ∈ xs, ok side x.1 x.2) →
      ∃ b', (writeAll side xs).run b = .ok () b' ∧ b'.Both P := by
  induction xs with
  | nil => exact fun hb _ => ⟨_, rfl, hb⟩
  | cons x xs ih =>
      intro b hb hxs
      obtain ⟨hx, hxs⟩ := List.forall_mem_cons.mp hxs
      obtain ⟨b₁, hrun₁, hb₁, -⟩ := hP.run_write hb hx
      obtain ⟨b₂, hrun₂, hb₂⟩ := ih hb₁ hxs
      refine ⟨b₂, ?_, hb₂⟩
      show (write side x.1 x.2 >>= fun _ => writeAll side xs).run b = _
      rw [run_bind, hrun₁]
      exact hrun₂

/-- Changes with readable sides are applied, whether the book is ready or
not. -/
theorem Keeps.run_writeChanges (hP : Keeps P ok)
    (xs : List (Json × Json × Json)) :
    ∀ {b : OrderBook}, b.Both P →
      (∀ x ∈ xs, ∃ side, Side.ofRaw x.1 = .ok side
        ∧ ok side x.2.1 x.2.2) →
      ∃ b', (writeChanges xs).run b = .ok () b' ∧ b'.Both P
        ∧ b'.ready = b.ready := by
  induction xs with
  | nil => exact fun hb _ => ⟨_, rfl, hb, rfl⟩
  | cons x xs ih =>
      intro b hb hxs
      obtain ⟨⟨side, hside, hx⟩, hxs⟩ := List.forall_mem_cons.mp hxs
      obtain ⟨b₁, hrun₁, hb₁, hready₁⟩ := hP.run_write hb hx
      obtain ⟨b₂, hrun₂, hb₂, hready₂⟩ := ih hb₁ hxs
      refine ⟨b₂, ?_, hb₂, hready₂.trans hready₁⟩
      show (attempt (Side.ofRaw x.1) >>= fun side => do
        write side x.2.1 x.2.2
        writeChanges xs).run b = _
      rw [hside]
      show (write side x.2.1 x.2.2 >>= fun _ =>
        writeChanges xs).run b = _
      rw [run_bind, hrun₁]
      exact hrun₂

/-- An l2update with readable sides is applied or dropped. -/
theorem Keeps.run_applyUpdates (hP : Keeps P ok) {b : OrderBook}
    (hb : b.Both P) {xs : List (Json × Json × Json)}
    (hxs : ∀ x ∈ xs, ∃ side, Side.ofRaw x.1 = .ok side
      ∧ ok side x.2.1 x.2.2) :
    ∃ b', (applyUpdates xs).run b = .ok () b' ∧ b'.Both P
      ∧ b'.ready = b.ready := by
  obtain ⟨b', hrun, hb', hready⟩ := hP.run_writeChanges xs hb hxs
  cases hr : b.ready with
  | false => exact ⟨b, run_applyUpdates_idle hr xs, hb, hr⟩
  | true =>
      refine ⟨{ b' with updateCount := b'.updateCount + 1 }, ?_, ?_,
        hready.trans hr⟩
      · rw [run_applyUpdates_ready hr, run_bind, hrun]
        rfl
      · intro side
        cases side with
        | buy => exact hb' .buy
        | sell => exact hb' .sell

/-- A snapshot is applied to any book, and leaves it ready. -/
theorem Keeps.run_applySnapshot (hP : Keeps P ok)
    {bids asks : List (Json × Json)}
    (hbids : ∀ x ∈ bids, ok .buy x.1 x.2)
    (hasks : ∀ x ∈ asks, ok .sell x.1 x.2) (b : OrderBook) :
    ∃ b', (applySnapshot bids asks).run b = .ok () b' ∧ b'.Both P
      ∧ b'.ready = true := by
  have hclear : b.clear.Both P := fun side => by
    rw [levels_clear]
    exact hP.nil side
  obtain ⟨b₁, hrun₁, hb₁⟩ := hP.run_writeAll bids hclear hbids
  obtain ⟨b₂, hrun₂, hb₂⟩ := hP.run_writeAll asks hb₁ hasks
  refine ⟨{ b₂ with ready := true, snapshotCount := b₂.snapshotCount + 1 },
    ?_, fun side => ?_, rfl⟩
  · unfold applySnapshot
    rw [run_modify_bind, run_bind, hrun₁]
    show (writeAll .sell asks >>= fun _ => modify _).run b₁ = _
    rw [run_bind, hrun₂]
    rfl
  · cases side with
    | buy => exact hb₂ .buy
    | sell => exact hb₂ .sell

end Keeps

-- ================================================== kept, raise or not

section Stable

variable {n : Negation} {P : Side → Levels → Prop}
  {ok : Side → Json → Json → Prop}

/-- Levels with a property stay so when a level that is `ok` is set, and
what raises has set none. -/
structure Stable (n : Negation) (P : Side → Levels → Prop)
    (ok : Side → Json → Json → Prop) : Prop where
  nil : ∀ side, P side []
  set : ∀ side d price size p s d', P side d → ok side price size →
    decimal price = .ok p → decimal size = .ok s →
    d.setBy n side p s = .ok d' → P side d'

/-- The property is one of the levels alone. -/
theorem Both.of_levels {b b' : OrderBook} (hb : b.Both P)
    (h : ∀ side, b'.levels side = b.levels side) : b'.Both P := by
  intro side
  rw [h side]
  exact hb side

/-- One level, raise or not. -/
theorem Stable.preserves_writeBy (hP : Stable n P ok) {side : Side}
    {price size : Json} (h : ok side price size) :
    Preserves (Both P) (writeBy n side price size) := by
  apply Preserves.of_attempt_bind
  intro p hp
  apply Preserves.of_attempt_bind
  intro s hs
  apply Preserves.of_get
  intro b hb
  cases hset : (b.levels side).setBy n side p s with
  | error e => exact hb
  | ok d => exact hb.setLevels (hP.set _ _ _ _ _ _ _ (hb side) h hp hs hset)

/-- One side of a snapshot. -/
theorem Stable.preserves_writeAllBy (hP : Stable n P ok) {side : Side}
    {xs : List (Json × Json)} (hxs : ∀ x ∈ xs, ok side x.1 x.2) :
    Preserves (Both P) (writeAllBy n side xs) := by
  induction xs with
  | nil => exact Preserves.of_pure ()
  | cons x xs ih =>
      obtain ⟨hx, hxs⟩ := List.forall_mem_cons.mp hxs
      exact (hP.preserves_writeBy hx).bind fun _ => ih hxs

/-- A change whose side cannot be read writes nothing. -/
theorem Stable.preserves_writeChangesBy (hP : Stable n P ok)
    {xs : List (Json × Json × Json)}
    (hxs : ∀ x ∈ xs, ∀ side, Side.ofRaw x.1 = .ok side →
      ok side x.2.1 x.2.2) :
    Preserves (Both P) (writeChangesBy n xs) := by
  induction xs with
  | nil => exact Preserves.of_pure ()
  | cons x xs ih =>
      obtain ⟨hx, hxs⟩ := List.forall_mem_cons.mp hxs
      apply Preserves.of_attempt_bind
      intro side hside
      exact (hP.preserves_writeBy (hx side hside)).bind fun _ => ih hxs

/-- A snapshot: both sides are emptied first. -/
theorem Stable.preserves_applySnapshotBy (hP : Stable n P ok)
    {bids asks : List (Json × Json)}
    (hbids : ∀ x ∈ bids, ok .buy x.1 x.2)
    (hasks : ∀ x ∈ asks, ok .sell x.1 x.2) :
    Preserves (Both P) (applySnapshotBy n bids asks) := by
  refine Preserves.bind (Preserves.of_modify fun b _ side => ?_) fun _ =>
    (hP.preserves_writeAllBy hbids).bind fun _ =>
      (hP.preserves_writeAllBy hasks).bind fun _ =>
        Preserves.of_modify fun b hb => ?_
  · rw [levels_clear]
    exact hP.nil side
  · exact hb.of_levels fun side => by cases side <;> rfl

/-- An l2update. -/
theorem Stable.preserves_applyUpdatesBy (hP : Stable n P ok)
    {xs : List (Json × Json × Json)}
    (hxs : ∀ x ∈ xs, ∀ side, Side.ofRaw x.1 = .ok side →
      ok side x.2.1 x.2.2) :
    Preserves (Both P) (applyUpdatesBy n xs) := by
  apply Preserves.of_get
  intro b hb
  split
  · refine (hP.preserves_writeChangesBy hxs).bind (fun _ =>
      Preserves.of_modify fun b hb => ?_) b hb
    exact hb.of_levels fun side => by cases side <;> rfl
  · exact hb

/-- A reset leaves both sides empty. -/
theorem Stable.preserves_reset (hP : Stable n P ok) :
    Preserves (Both P) (modify reset : EStateM Exc OrderBook Unit) :=
  Preserves.of_modify fun b _ side => by
    cases side <;> exact hP.nil _

end Stable

-- ========================================================= comparable keys

/-- No key of the book is a not-a-number. -/
def Comparable (b : OrderBook) : Prop := ∀ side, (b.levels side).Comparable

/-- A new book has no keys. -/
theorem comparable_empty : Comparable {} := by
  intro side
  cases side <;> exact Levels.comparable_nil

/-- The numbers of a level can be read, and its price can be a key. -/
def writable (price size : Json) : Bool :=
  match decimal price, decimal size with
  | .ok p, .ok _ => !p.isNan && !p.negOverflows
  | _, _ => false

/-- A level is writable when its numbers can be read, and its price can
be compared and negated. -/
theorem writable_iff {price size : Json} :
    writable price size = true ↔ ∃ p s, decimal price = .ok p
      ∧ decimal size = .ok s ∧ p.isNan = false
      ∧ p.negOverflows = false := by
  unfold writable
  cases decimal price with
  | error e => simp
  | ok p =>
      cases decimal size with
      | error e => simp
      | ok s => simp

/-- A price that can be negated raises on neither side. -/
theorem keyRaises_of_not_overflows {p : Decimal}
    (h : p.negOverflows = false) (side : Side) :
    side.keyRaises p = false := by
  cases side with
  | buy => exact h
  | sell => rfl

/-- Writable levels keep the keys comparable. -/
theorem keeps_comparable :
    Keeps (fun _ => Levels.Comparable)
      (fun _ price size => writable price size = true) where
  nil := fun _ => Levels.comparable_nil
  set := fun side d price size hd h => by
    obtain ⟨p, s, hp, hs, hnan, hover⟩ := writable_iff.mp h
    obtain ⟨d', hset⟩ : ∃ d', d.set side p s = .ok d' :=
      hd.set_ok hnan (keyRaises_of_not_overflows hover side)
    exact ⟨p, s, d', hp, hs, hset, hd.set hnan hset⟩

/-- Writable changes with readable sides are applied to any comparable
book. -/
theorem Comparable.run_applyUpdates {b : OrderBook} (hb : b.Comparable)
    {xs : List (Json × Json × Json)}
    (hxs : ∀ x ∈ xs, (Side.ofRaw x.1).isOk ∧ writable x.2.1 x.2.2) :
    ∃ b', (applyUpdates xs).run b = .ok () b' ∧ b'.Comparable
      ∧ b'.ready = b.ready := by
  refine keeps_comparable.run_applyUpdates hb fun x hx => ?_
  obtain ⟨hside, hwrite⟩ := hxs x hx
  cases hs : Side.ofRaw x.1 with
  | error e => rw [hs] at hside; cases hside
  | ok side => exact ⟨side, rfl, hwrite⟩

/-- A snapshot of writable levels is applied to any book; it leaves a
comparable one, which is ready. -/
theorem run_applySnapshot {bids asks : List (Json × Json)}
    (hbids : ∀ x ∈ bids, writable x.1 x.2)
    (hasks : ∀ x ∈ asks, writable x.1 x.2) (b : OrderBook) :
    ∃ b', (applySnapshot bids asks).run b = .ok () b' ∧ b'.Comparable
      ∧ b'.ready = true :=
  keeps_comparable.run_applySnapshot hbids hasks b

end OrderBook

end MarketPlatform.Consumer
