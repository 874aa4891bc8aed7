/-
The levels of the live book, said without the book.

The consumer keeps each side of a book as a sorted list of levels,
changed in place by two loops: one that writes the levels of a snapshot,
and one that writes the changes of an l2update. Later results compare
that book with a table built from published events, where there is no
list and no loop. This module says what the loops have computed, in
terms of what was written.

# The log

A log is the list of entries written to a book, each with a side, a
price and a size (`Entry`). What a book holds at a level is what the
last entry about it says: its size, or nothing when that is zero
(`sizeAfter`). A snapshot starts the log anew. `lastOf` and its lemmas
come from `Lib/LastWrite`, for any entries and keys.

# The book

`Mirrors log b`: the levels of `b` are finite and without repeats, and a
size rests at a price exactly when the log gives it. Setting one level
changes what rests there and nowhere else (`Plain.setBy`), which is the
same as appending one entry to the log (`mirrors_write`); the two loops
are inductions over that (`mirrors_writeAll`, `mirrors_writeChanges`),
and the two calls of the handler are the loops with the flag `ready` set
or tested around them.

The results take the messages that were read without an error and all of
whose numbers are finite: a NaN or an infinity that `Decimal()` accepts
makes no entry.
-/
import MarketPlatform.Lib.LastWrite
import MarketPlatform.Proofs.Books

namespace MarketPlatform.Consumer

open Lib EStateM Lib.LastWrite

-- ============================================================== one side

namespace Levels

variable {n : Negation} {side : Side} {d d' : Levels}

/-- Finite prices and sizes, no price twice. -/
structure Plain (d : Levels) : Prop where
  finite : ∀ l ∈ d, ∃ q s, l = (.finite q, .finite s)
  nodup : (d.map Prod.fst).Nodup

theorem plain_nil : Plain [] := ⟨by simp, List.nodup_nil⟩

theorem eq_finite {p : Decimal} {q : ℚ} :
    p.eq (.finite q) = true ↔ p = .finite q := by
  rw [eq_iff]
  exact and_iff_left rfl

theorem contains_finite {q : ℚ} :
    d.contains (.finite q) = true ↔ .finite q ∈ d.map Prod.fst := by
  rw [contains_iff]
  exact and_iff_left rfl

/-- The size resting at a price. -/
def Rests (d : Levels) (q s : ℚ) : Prop :=
  ((.finite q, .finite s) : Decimal × Decimal) ∈ d

/-- What rests at a price after a level is set: the size given, or
nothing when it is zero. The other prices stay. Of finite prices the
sorted insertion never raises, and the price is in the list at most once
before and after. -/
theorem Plain.setBy {q s : ℚ} (hd : Plain d)
    (h : d.setBy n side (.finite q) (.finite s) = .ok d') :
    Plain d' ∧ ∀ q' s', d'.Rests q' s'
      ↔ if q' = q then s ≠ 0 ∧ s' = s else d.Rests q' s' := by
  obtain ⟨hkeyed, hmem⟩ := Keyed.setBy hd.nodup (fun hnan => by cases hnan) h
  have hleft : ∀ t, resting (.finite s) = some t ↔ s ≠ 0 ∧ t = .finite s := by
    intro t
    have hzero : Decimal.eq (.finite s) (.finite 0) = true ↔ s = 0 := by
      rw [eq_finite, Decimal.finite.injEq]
    unfold resting
    by_cases hs : s = 0
    · rw [if_pos (hzero.mpr hs)]
      exact iff_of_false nofun fun hx => hx.1 hs
    · rw [if_neg (mt hzero.mp hs), Option.some_inj, eq_comm, and_iff_right hs]
  refine ⟨⟨fun l hl => ?_, hkeyed⟩, fun q' s' => ?_⟩
  · rw [hmem] at hl
    by_cases hlq : l.1 = .finite q
    · rw [if_pos hlq, hleft] at hl
      exact ⟨q, s, Prod.ext hlq hl.2⟩
    · rw [if_neg hlq] at hl
      exact hd.finite l hl
  · rw [Rests, hmem]
    by_cases hq : q' = q
    · rw [if_pos (congrArg _ hq), if_pos hq, hleft, Decimal.finite.injEq]
    · rw [if_neg (mt Decimal.finite.inj hq), if_neg hq]
      exact Iff.rfl

/-- What holds of the levels that rest, and of the new one where it does,
holds after a level is set. -/
theorem Plain.forall_setBy {q s : ℚ} {I : ℚ → ℚ → Prop} (hd : Plain d)
    (h : d.setBy n side (.finite q) (.finite s) = .ok d')
    (hold : ∀ q' s', d.Rests q' s' → I q' s') (hnew : s ≠ 0 → I q s) :
    ∀ q' s', d'.Rests q' s' → I q' s' := by
  intro q' s' hmem
  rw [(hd.setBy h).2] at hmem
  by_cases hq : q' = q
  · rw [if_pos hq] at hmem
    obtain ⟨hs, rfl⟩ := hmem
    rw [hq]
    exact hnew hs
  · rw [if_neg hq] at hmem
    exact hold q' s' hmem

theorem Plain.set {q s : ℚ} (hd : Plain d)
    (h : d.set side (.finite q) (.finite s) = .ok d') :
    Plain d' ∧ ∀ q' s', d'.Rests q' s'
      ↔ if q' = q then s ≠ 0 ∧ s' = s else d.Rests q' s' := by
  rw [← setBy_default] at h
  exact hd.setBy h

end Levels

-- ================================================================ the log

/-- The text of a side. -/
def Side.name : Side → String
  | .buy => "buy"
  | .sell => "sell"

theorem Side.name_inj {side side' : Side} (h : side.name = side'.name) :
    side = side' := by
  cases side <;> cases side' <;> first | rfl | exact absurd h (by decide)

/-- An entry of the log: the size given to a level. -/
structure Entry where
  side : Side
  price : ℚ
  size : ℚ
  deriving DecidableEq

/-- The level an entry is about. -/
def Entry.level (e : Entry) : Side × ℚ := (e.side, e.price)

/-- The size at a level after a log: that of the last entry about the
level, unless it is zero. -/
def sizeAfter (log : List Entry) (side : Side) (q : ℚ) : Option ℚ :=
  (lastOf Entry.level log (side, q)).bind fun e =>
    if e.size = 0 then none else some e.size

theorem sizeAfter_nil (side : Side) (q : ℚ) :
    sizeAfter [] side q = none := rfl

theorem sizeAfter_concat (log : List Entry) (e : Entry) (side : Side)
    (q : ℚ) :
    sizeAfter (log ++ [e]) side q
      = if side = e.side ∧ q = e.price
          then if e.size = 0 then none else some e.size
        else sizeAfter log side q := by
  have hlevel : e.level = (side, q) ↔ side = e.side ∧ q = e.price := by
    rw [Entry.level, Prod.mk.injEq, eq_comm, eq_comm (a := e.price)]
  simp only [sizeAfter, lastOf_concat, hlevel]
  split <;> rfl

/-- The entry a level of a message makes, if its numbers are finite. -/
def entryOf (side : Side) (price size : Json) : Option Entry :=
  match decimal price, decimal size with
  | .ok (.finite q), .ok (.finite s) => some ⟨side, q, s⟩
  | _, _ => none

theorem entryOf_eq_some_iff {side : Side} {price size : Json} {e : Entry} :
    entryOf side price size = some e
      ↔ decimal price = .ok (.finite e.price)
        ∧ decimal size = .ok (.finite e.size) ∧ side = e.side := by
  unfold entryOf
  split
  · next q s hq hs =>
      rw [hq, hs]
      simp only [Option.some.injEq, Except.ok.injEq, Decimal.finite.injEq]
      constructor
      · rintro rfl
        exact ⟨rfl, rfl, rfl⟩
      · intro hx
        obtain ⟨rfl, rfl, rfl⟩ := hx
        rfl
  · next hne =>
      constructor
      · intro h
        cases h
      · intro hx
        obtain ⟨hq, hs, -⟩ := hx
        exact absurd hs (hne _ _ hq)

/-- The entry of a change. -/
def changeEntry (x : Json × Json × Json) : Option Entry :=
  match Side.ofRaw x.1 with
  | .ok side => entryOf side x.2.1 x.2.2
  | .error _ => none

-- ============================================================= both sides

namespace OrderBook

/-- The book holds the sizes its log gives. -/
structure Mirrors (log : List Entry) (b : OrderBook) : Prop where
  plain : ∀ side, (b.levels side).Plain
  level : ∀ side q s,
    (b.levels side).Rests q s ↔ sizeAfter log side q = some s

variable {log es : List Entry} {b b' : OrderBook}

theorem mirrors_of_levels (hm : Mirrors log b)
    (h : ∀ side, b'.levels side = b.levels side) : Mirrors log b' :=
  ⟨fun side => h side ▸ hm.plain side, fun side => h side ▸ hm.level side⟩

theorem mirrors_nil (h : ∀ side, b.levels side = []) : Mirrors [] b where
  plain := fun side => by
    rw [h side]
    exact Levels.plain_nil
  level := fun side q s => by
    rw [h side]
    simp [Levels.Rests, sizeAfter_nil]

/-- A level is written, and its entry added to the log. -/
theorem mirrors_write {side : Side} {price size : Json} {e : Entry}
    (hm : Mirrors log b) (he : entryOf side price size = some e)
    (hrun : (write side price size).run b = .ok () b') :
    Mirrors (log ++ [e]) b' ∧ b'.ready = b.ready := by
  obtain ⟨hq, hs, rfl⟩ := entryOf_eq_some_iff.mp he
  obtain ⟨p', s', d, hp', hs', hset, rfl⟩ := write_ok hrun
  obtain rfl := Except.ok.inj (hq.symm.trans hp')
  obtain rfl := Except.ok.inj (hs.symm.trans hs')
  obtain ⟨hplain, hrests⟩ := (hm.plain e.side).set hset
  refine ⟨⟨fun side => ?_, fun side q s => ?_⟩,
    ready_setLevels b e.side d⟩
  · rw [levels_setLevels]
    split
    · exact hplain
    · exact hm.plain side
  · rw [levels_setLevels, sizeAfter_concat]
    by_cases hside : side = e.side
    · rw [if_pos hside, hrests]
      by_cases hq : q = e.price
      · rw [if_pos hq, if_pos ⟨hside, hq⟩]
        by_cases hzero : e.size = 0
        · simp [hzero]
        · simp [hzero, eq_comm]
      · rw [if_neg hq, if_neg fun h => hq h.2, ← hside]
        exact hm.level side q s
    · rw [if_neg hside, if_neg fun h => hside h.1]
      exact hm.level side q s

/-- One side of a snapshot. -/
theorem mirrors_writeAll {side : Side} {xs : List (Json × Json)}
    (hxs : ∀ x ∈ xs, (entryOf side x.1 x.2).isSome)
    (hm : Mirrors log b) (hrun : (writeAll side xs).run b = .ok () b') :
    Mirrors (log ++ xs.filterMap fun x => entryOf side x.1 x.2) b'
      ∧ b'.ready = b.ready := by
  induction xs generalizing log b with
  | nil =>
      cases hrun
      rw [List.filterMap_nil, List.append_nil]
      exact ⟨hm, rfl⟩
  | cons x xs ih =>
      obtain ⟨hx, hxs⟩ := List.forall_mem_cons.mp hxs
      obtain ⟨e, he⟩ := Option.isSome_iff_exists.mp hx
      obtain ⟨⟨⟩, b₁, hx', hrun⟩ := run_bind_ok hrun
      obtain ⟨hm₁, hready⟩ := mirrors_write hm he hx'
      obtain ⟨hm', hready'⟩ := ih hxs hm₁ hrun
      rw [List.append_assoc] at hm'
      rw [List.filterMap_cons, he]
      exact ⟨hm', hready'.trans hready⟩

/-- The changes of an l2update. -/
theorem mirrors_writeChanges {xs : List (Json × Json × Json)}
    (hxs : ∀ x ∈ xs, (changeEntry x).isSome) (hm : Mirrors log b)
    (hrun : (writeChanges xs).run b = .ok () b') :
    Mirrors (log ++ xs.filterMap changeEntry) b' ∧ b'.ready = b.ready := by
  induction xs generalizing log b with
  | nil =>
      cases hrun
      rw [List.filterMap_nil, List.append_nil]
      exact ⟨hm, rfl⟩
  | cons x xs ih =>
      obtain ⟨hx, hxs⟩ := List.forall_mem_cons.mp hxs
      obtain ⟨e, he⟩ := Option.isSome_iff_exists.mp hx
      obtain ⟨side, hside, hrun⟩ := run_attempt_bind_ok hrun
      have he' : entryOf side x.2.1 x.2.2 = some e := by
        rw [changeEntry, hside] at he
        exact he
      obtain ⟨⟨⟩, b₁, hx', hrun⟩ := run_bind_ok hrun
      obtain ⟨hm₁, hready⟩ := mirrors_write hm he' hx'
      obtain ⟨hm', hready'⟩ := ih hxs hm₁ hrun
      rw [List.append_assoc] at hm'
      rw [List.filterMap_cons_some he]
      exact ⟨hm', hready'.trans hready⟩

/-- The entries of a snapshot: the bids, then the asks. -/
def snapshotEntries (bids asks : List (Json × Json)) : List Entry :=
  (bids.filterMap fun x => entryOf .buy x.1 x.2)
    ++ asks.filterMap fun x => entryOf .sell x.1 x.2

/-- A snapshot starts the log anew, and the book is ready. -/
theorem mirrors_applySnapshot {bids asks : List (Json × Json)}
    (hbids : ∀ x ∈ bids, (entryOf .buy x.1 x.2).isSome)
    (hasks : ∀ x ∈ asks, (entryOf .sell x.1 x.2).isSome)
    (hrun : (applySnapshot bids asks).run b = .ok () b') :
    Mirrors (snapshotEntries bids asks) b' ∧ b'.ready = true := by
  unfold applySnapshot at hrun
  rw [run_modify_bind] at hrun
  obtain ⟨⟨⟩, b₁, hrun₁, hrun⟩ := run_bind_ok hrun
  obtain ⟨⟨⟩, b₂, hrun₂, hrun⟩ := run_bind_ok hrun
  obtain ⟨hm₁, -⟩ :=
    mirrors_writeAll hbids (mirrors_nil (levels_clear b)) hrun₁
  obtain ⟨hm₂, -⟩ := mirrors_writeAll hasks hm₁ hrun₂
  cases hrun
  refine ⟨mirrors_of_levels hm₂ fun side => ?_, rfl⟩
  cases side <;> rfl

/-- An l2update, on a book that is ready. -/
theorem mirrors_applyUpdates {xs : List (Json × Json × Json)}
    (hxs : ∀ x ∈ xs, (changeEntry x).isSome) (hm : Mirrors log b)
    (hready : b.ready = true)
    (hrun : (applyUpdates xs).run b = .ok () b') :
    Mirrors (log ++ xs.filterMap changeEntry) b' ∧ b'.ready = true := by
  rw [run_applyUpdates_ready hready] at hrun
  obtain ⟨⟨⟩, b₁, hrun₁, hrun⟩ := run_bind_ok hrun
  obtain ⟨hm₁, hready₁⟩ := mirrors_writeChanges hxs hm hrun₁
  cases hrun
  refine ⟨mirrors_of_levels hm₁ fun side => ?_, hready₁.trans hready⟩
  cases side <;> rfl

/-- The book is that of a log: not ready while there is none. -/
def Logged (log : Option (List Entry)) (b : OrderBook) : Prop :=
  match log with
  | some l => Mirrors l b ∧ b.ready = true
  | none => (∀ side, b.levels side = []) ∧ b.ready = false

theorem Logged.mirrors {log : Option (List Entry)} {b : OrderBook}
    (h : Logged log b) : Mirrors (log.getD []) b := by
  cases log with
  | some l => exact h.1
  | none => exact mirrors_nil h.1

end OrderBook

end MarketPlatform.Consumer
