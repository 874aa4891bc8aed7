/-
When the reconstructed book agrees with the live one.

# Two readings of a level

At a minute of the grid the query takes, for every level, one of the
events that come last by minute of receipt and then by `order`; which of
tied events it takes is the engine's choice (`querySize`). The live book
holds what the last entry of its log says (`sizeAfter`). Both readings
say of a level that it has a size or that it has none.

# From levels to rows

A minute of the reconstruction has one row for each level to which the
query gives a size (`mem_group_reconstruct`); the live book has one row
for each level it holds in the band (`mem_liveRows`). No row is there
twice on either side, so the two lists are the same bag exactly when
they have the same members, and that is to say that, level by level, the
two readings agree (`rows_perm_iff`). They do for every engine exactly
when all tied events agree with the live book (`levelsSettled_iff`),
since any of them may be taken.

The events are those before pruning, in the band: that the price filter
makes no difference there is in `Pruning`.
-/
import MarketPlatform.Proofs.LiveBook
import MarketPlatform.Proofs.Pruning

namespace MarketPlatform.Warehouse

open Lib Lib.Rfc3339 Lib.Relation
open Consumer Consumer.OrderBook

variable {E : Engine} {es : List BookEvent} {log : List Entry}
  {g : String × Int} {k : Option String × Option ℚ} {b : OrderBook} {mid : ℚ}

-- ==================================================== what the query reads

/-- How the events of a level are ordered over the minutes. -/
def BookEvent.stamp (e : BookEvent) : Int ×ₗ Nat ×ₗ Int ×ₗ Nat :=
  toLex (e.eventMinute, e.order)

/-- A size that is a resting order. -/
def BookEvent.resting (e : BookEvent) : Option ℚ :=
  e.size.filter fun s => 0 < s

/-- The events about a product's level received in or before a minute. -/
def mentions (es : List BookEvent) (g : String × Int)
    (k : Option String × Option ℚ) : List BookEvent :=
  es.filter fun e =>
    e.productId = g.1 && e.level = k && e.eventMinute ≤ g.2

/-- The events about a level, up to a minute. -/
theorem mem_mentions {e : BookEvent} :
    e ∈ mentions es g k
      ↔ e ∈ es ∧ e.productId = g.1 ∧ e.level = k ∧ e.eventMinute ≤ g.2 := by
  simp only [mentions, List.mem_filter, Bool.and_eq_true,
    decide_eq_true_eq, and_assoc]

/-- The size the query gives a level. -/
def querySize (E : Engine) (es : List BookEvent) (g : String × Int)
    (k : Option String × Option ℚ) : Option ℚ :=
  (E.last BookEvent.stamp (mentions es g k)).bind BookEvent.resting

/-- The order over the minutes: the minute first, then the order within
it. -/
theorem stamp_le_iff {e e' : BookEvent} : e.stamp ≤ e'.stamp
    ↔ e.eventMinute < e'.eventMinute
      ∨ e.eventMinute = e'.eventMinute ∧ e.order ≤ e'.order :=
  Prod.Lex.toLex_le_toLex

/-- The last events of the latest minute come last of all. The stamp
orders by the minute and then within it, so an event is greatest among
all mentions of the level when it is greatest in the latest minute that
has any. -/
theorem greatest_mentions {e : BookEvent} (he : CarriedFrom es g e) :
    greatest BookEvent.stamp (mentions es g e.level)
      = greatest BookEvent.order
          (group BookEvent.levelMinuteKey es e.levelMinuteKey) := by
  have hkey : ∀ x ∈ es, x.levelMinuteKey = e.levelMinuteKey
      ↔ x ∈ mentions es g e.level ∧ x.eventMinute = e.eventMinute := by
    intro x hx
    rw [mem_mentions, BookEvent.levelMinuteKey, BookEvent.levelMinuteKey,
      BookEvent.level, BookEvent.level, he.product]
    simp only [Prod.mk.injEq]
    constructor
    · intro hex
      obtain ⟨hp, hside, hprice, hminute⟩ := hex
      exact ⟨⟨hx, hp, ⟨hside, hprice⟩, hminute ▸ he.before⟩, hminute⟩
    · intro hex
      obtain ⟨⟨-, hp, ⟨hside, hprice⟩, -⟩, hminute⟩ := hex
      exact ⟨hp, hside, hprice, hminute⟩
  have hself : e ∈ mentions es g e.level :=
    mem_mentions.mpr ⟨he.mem, he.product, rfl, he.before⟩
  have hlatest : ∀ x ∈ mentions es g e.level,
      x.eventMinute ≤ e.eventMinute := by
    intro x hx
    obtain ⟨hmem, hp, hlevel, hle⟩ := mem_mentions.mp hx
    exact he.latest x hmem hp hlevel hle
  refine greatest_filter_congr fun x hx => ?_
  show x ∈ greatest BookEvent.stamp (mentions es g e.level)
    ↔ x ∈ greatest BookEvent.order
      (group BookEvent.levelMinuteKey es e.levelMinuteKey)
  rw [mem_greatest, mem_greatest, mem_group, hkey x hx]
  constructor
  · intro hex
    obtain ⟨hmem, hmax⟩ := hex
    have hminute : x.eventMinute = e.eventMinute := by
      have h := stamp_le_iff.mp (hmax e hself)
      have hle := hlatest x hmem
      omega
    refine ⟨⟨hx, hmem, hminute⟩, fun s hs => ?_⟩
    obtain ⟨hs, hsk⟩ := mem_group.mp hs
    obtain ⟨hs, hsminute⟩ := (hkey s hs).mp hsk
    rcases stamp_le_iff.mp (hmax s hs) with hlt | ⟨-, hle⟩
    · omega
    · exact hle
  · intro hex
    obtain ⟨⟨-, hmem, hminute⟩, hmax⟩ := hex
    refine ⟨hmem, fun s hs => stamp_le_iff.mpr ?_⟩
    by_cases hsminute : s.eventMinute = e.eventMinute
    · have hses := (mem_mentions.mp hs).1
      refine Or.inr ⟨hsminute.trans hminute.symm, hmax s ?_⟩
      exact mem_group.mpr ⟨hses, (hkey s hses).mpr ⟨hs, hsminute⟩⟩
    · have hle := hlatest s hs
      omega

/-- A level that is mentioned is carried. -/
theorem exists_carriedFrom (h : mentions es g k ≠ []) :
    ∃ e, CarriedFrom es g e ∧ e.level = k := by
  obtain ⟨e, he⟩ := exists_last Engine.inOrder BookEvent.eventMinute h
  obtain ⟨hmem, hp, hlevel, hle⟩ := mem_mentions.mp (mem_of_last he)
  refine ⟨e, ⟨hmem, hp, hle, fun e' he' hp' hlevel' hle' => ?_⟩, hlevel⟩
  exact le_last he (mem_mentions.mpr
    ⟨he', hp', hlevel'.trans hlevel, hle'⟩)

/-- The row of a level. -/
def rowAt (g : String × Int) (k : Option String × Option ℚ) (s : ℚ) :
    BookRow :=
  ⟨g.1, g.2, k.1, k.2, some s, dateOf g.2⟩

/-- A row tells its level and size. -/
theorem rowAt_inj {k' : Option String × Option ℚ} {s s' : ℚ}
    (h : rowAt g k s = rowAt g k' s') : k = k' ∧ s = s' := by
  simp only [rowAt, BookRow.mk.injEq, true_and, and_true,
    Option.some.injEq] at h
  exact ⟨Prod.ext h.1 h.2.1, h.2.2⟩

/-- The rows of a minute of the grid: one for each level that has a
size. The query carries the last event of each level and minute forward,
and keeps what rests; the size at a level is that of its last
mention. -/
theorem mem_group_reconstruct {grid : List (String × Int)}
    (hgrid : grid.Nodup) (hg : g ∈ grid) {r : BookRow} :
    r ∈ group BookRow.gridKey (reconstruct E grid es) g
      ↔ ∃ k s, querySize E es g k = some s ∧ rowAt g k s = r := by
  have hsize : ∀ e, CarriedFrom es g e → ∀ s,
      querySize E es g e.level = some s
        ↔ minuteSize E es e = some s ∧ 0 < s := by
    intro e he s
    have hpick : E.last BookEvent.stamp (mentions es g e.level)
        = E.last BookEvent.order
            (group BookEvent.levelMinuteKey es e.levelMinuteKey) :=
      congrArg E.pick (greatest_mentions he)
    rw [querySize, minuteSize, hpick]
    cases E.last BookEvent.order
        (group BookEvent.levelMinuteKey es e.levelMinuteKey) with
    | none => simp
    | some x => simp [BookEvent.resting, Option.filter_eq_some_iff]
  rw [group_reconstruct hgrid hg, List.mem_filter, mem_carried]
  constructor
  · intro h
    obtain ⟨⟨e, he, rfl⟩, hrest⟩ := h
    obtain ⟨s, hs, hpos⟩ := Option.any_eq_true _ _ |>.mp hrest
    refine ⟨e.level, s, (hsize e he s).mpr ⟨hs, of_decide_eq_true hpos⟩, ?_⟩
    have hs : minuteSize E es e = some s := hs
    rw [rowOf, hs]
    rfl
  · intro h
    obtain ⟨k, s, hk, rfl⟩ := h
    have hne : mentions es g k ≠ [] := by
      intro hnil
      rw [querySize, hnil, last_eq_none_iff.mpr rfl] at hk
      cases hk
    obtain ⟨e, he, rfl⟩ := exists_carriedFrom hne
    obtain ⟨hs, hpos⟩ := (hsize e he s).mp hk
    refine ⟨⟨e, he, ?_⟩, ?_⟩
    · rw [rowOf, hs]
      rfl
    · simpa [BookRow.isResting, rowAt] using hpos

-- ======================================================== what the book holds

/-- The row of a live level. -/
def liveRow (g : String × Int) (mid : ℚ) (side : Side) :
    Decimal × Decimal → Option BookRow
  | (.finite q, .finite s) =>
      if inBand mid q then some (rowAt g (some side.name, some q) s)
      else none
  | _ => none

/-- A live level has a row when its price is in the band and both its
numbers are finite. -/
theorem liveRow_eq_some_iff {side : Side} {l : Decimal × Decimal}
    {r : BookRow} :
    liveRow g mid side l = some r
      ↔ ∃ q s, l = (.finite q, .finite s) ∧ inBand mid q = true
        ∧ rowAt g (some side.name, some q) s = r := by
  unfold liveRow
  split
  · next q s =>
      by_cases hband : inBand mid q = true
      · rw [if_pos hband, Option.some.injEq]
        constructor
        · exact fun h => ⟨q, s, rfl, hband, h⟩
        · intro hx
          obtain ⟨q', s', hl, -, hrow⟩ := hx
          simp only [Prod.mk.injEq, Decimal.finite.injEq] at hl
          rw [hl.1, hl.2, hrow]
      · rw [if_neg hband]
        constructor
        · intro h
          cases h
        · intro hx
          obtain ⟨q', s', hl, hband', -⟩ := hx
          simp only [Prod.mk.injEq, Decimal.finite.injEq] at hl
          rw [hl.1] at hband
          exact absurd hband' hband
  · next hne =>
      constructor
      · intro h
        cases h
      · intro hx
        obtain ⟨q, s, rfl, -⟩ := hx
        exact absurd rfl (hne q s)

/-- The rows of a live book's levels inside the band around a mid. -/
def liveRows (g : String × Int) (mid : ℚ) (b : OrderBook) :
    List BookRow :=
  [Side.buy, Side.sell].flatMap fun side =>
    (b.levels side).filterMap (liveRow g mid side)

/-- The rows of a live book: one for each level in the band. -/
theorem mem_liveRows {r : BookRow} :
    r ∈ liveRows g mid b
      ↔ ∃ side q s, inBand mid q = true ∧ (b.levels side).Rests q s
        ∧ rowAt g (some side.name, some q) s = r := by
  rw [liveRows, List.mem_flatMap]
  simp only [List.mem_filterMap, liveRow_eq_some_iff]
  constructor
  · intro h
    obtain ⟨side, -, l, hl, q, s, rfl, hband, hrow⟩ := h
    exact ⟨side, q, s, hband, hl, hrow⟩
  · intro h
    obtain ⟨side, q, s, hband, hrests, hrow⟩ := h
    refine ⟨side, ?_, _, hrests, q, s, rfl, hband, hrow⟩
    cases side <;> simp

/-- A book holds a price once on each side, so no row is there twice. -/
theorem nodup_liveRows (hplain : ∀ side, (b.levels side).Plain) :
    (liveRows g mid b).Nodup := by
  have hside : ∀ side,
      ((b.levels side).filterMap (liveRow g mid side)).Nodup := by
    intro side
    refine List.Nodup.filterMap ?_ (hplain side).nodup.of_map
    intro l l' r hl hl'
    obtain ⟨q, s, rfl, -, hr⟩ := liveRow_eq_some_iff.mp hl
    obtain ⟨q', s', rfl, -, hr'⟩ := liveRow_eq_some_iff.mp hl'
    obtain ⟨hk, rfl⟩ := rowAt_inj (hr.trans hr'.symm)
    obtain rfl := Option.some.inj (congrArg Prod.snd hk)
    rfl
  rw [liveRows, List.flatMap_cons, List.flatMap_cons, List.flatMap_nil,
    List.append_nil]
  refine (hside .buy).append (hside .sell) fun r hbuy hsell => ?_
  obtain ⟨l, -, hl⟩ := List.mem_filterMap.mp hbuy
  obtain ⟨l', -, hl'⟩ := List.mem_filterMap.mp hsell
  obtain ⟨q, s, -, -, hr⟩ := liveRow_eq_some_iff.mp hl
  obtain ⟨q', s', -, -, hr'⟩ := liveRow_eq_some_iff.mp hl'
  obtain ⟨hk, -⟩ := rowAt_inj (hr.trans hr'.symm)
  have hname : Side.buy.name = Side.sell.name :=
    Option.some.inj (congrArg Prod.fst hk)
  revert hname
  decide

-- ============================================================== agreement

/-- The events of a product are about levels of the book's two sides. -/
def Sided (es : List BookEvent) (p : String) : Prop :=
  ∀ e ∈ es, e.productId = p →
    ∃ (side : Side) (q : ℚ), e.level = (some side.name, some q)

/-- A level that the query gives a size is one of the book's sides. -/
theorem sided_of_querySize (hsided : Sided es g.1) {s : ℚ}
    (h : querySize E es g k = some s) :
    ∃ (side : Side) (q : ℚ), k = (some side.name, some q) := by
  obtain ⟨e, he, -⟩ := Option.bind_eq_some_iff.mp h
  obtain ⟨hmem, hp, rfl, -⟩ := mem_mentions.mp (mem_of_last he)
  exact hsided e hmem hp

/-- The rows of a minute are those of a live book exactly when the query
and the log give every level in the band the same size.

Neither list has a row twice, so the two are the same bag when they have
the same rows; and a row names its level and size (`rowAt_inj`), so that
is an equality of sizes at each level. -/
theorem rows_perm_iff {bs : List BookEvent}
    (hg : g ∈ minuteGrid (relevant bs))
    (hmid : referenceMid bs g.1 = some mid)
    (hsided : Sided (unpruned bs) g.1) (hm : Mirrors log b) :
    (group BookRow.gridKey
        (reconstruct E (minuteGrid (relevant bs)) (relevant bs)) g).Perm
        (liveRows g mid b)
      ↔ ∀ (side : Side) (q : ℚ), inBand mid q = true →
          querySize E (unpruned bs) g (some side.name, some q)
            = sizeAfter log side q := by
  have hgrid : (minuteGrid (relevant bs)).Nodup := List.nodup_dedup _
  have hpruned : (group BookRow.gridKey
      (reconstruct E (minuteGrid (relevant bs)) (relevant bs)) g).Perm
      ((group BookRow.gridKey
        (reconstruct E (minuteGrid (relevant bs)) (unpruned bs)) g).filter
        (BookRow.nearMid bs)) := pruned_perm hgrid hgrid hg hg
  have hrow : ∀ (side : Side) (q s : ℚ),
      rowAt g (some side.name, some q) s ∈ group BookRow.gridKey
          (reconstruct E (minuteGrid (relevant bs)) (relevant bs)) g
        ↔ querySize E (unpruned bs) g (some side.name, some q) = some s
          ∧ inBand mid q = true := by
    intro side q s
    rw [hpruned.mem_iff, List.mem_filter, mem_group_reconstruct hgrid hg,
      BookRow.nearMid]
    have hprod : (rowAt g (some side.name, some q) s).productId = g.1 := rfl
    have hprice : (rowAt g (some side.name, some q) s).price = some q := rfl
    simp only [hprod, hmid, hprice]
    refine and_congr_left fun _ => ⟨?_, fun h => ⟨_, s, h, rfl⟩⟩
    intro hx
    obtain ⟨k, s', h, heq⟩ := hx
    obtain ⟨rfl, rfl⟩ := rowAt_inj heq
    exact h
  have hform : ∀ r ∈ group BookRow.gridKey
        (reconstruct E (minuteGrid (relevant bs)) (relevant bs)) g,
      ∃ (side : Side) (q s : ℚ),
        rowAt g (some side.name, some q) s = r := by
    intro r hr
    obtain ⟨k, s, h, rfl⟩ := (mem_group_reconstruct hgrid hg).mp
      (List.mem_filter.mp (hpruned.mem_iff.mp hr)).1
    obtain ⟨side, q, rfl⟩ := sided_of_querySize hsided h
    exact ⟨side, q, s, rfl⟩
  have hlive : ∀ (side : Side) (q s : ℚ),
      rowAt g (some side.name, some q) s ∈ liveRows g mid b
        ↔ sizeAfter log side q = some s
          ∧ inBand mid q = true := by
    intro side q s
    rw [mem_liveRows]
    constructor
    · intro hx
      obtain ⟨side', q', s', hband, hrests, heq⟩ := hx
      obtain ⟨hk, rfl⟩ := rowAt_inj heq
      obtain rfl : q' = q := Option.some.inj (congrArg Prod.snd hk)
      obtain rfl : side' = side :=
        Side.name_inj (Option.some.inj (congrArg Prod.fst hk))
      exact ⟨(hm.level side' q' s').mp hrests, hband⟩
    · intro hx
      obtain ⟨h, hband⟩ := hx
      exact ⟨side, q, s, hband, (hm.level side q s).mpr h, rfl⟩
  rw [List.perm_ext_iff_of_nodup (nodup_group_reconstruct hgrid)
    (nodup_liveRows hm.plain)]
  constructor
  · intro h side q hband
    refine Option.ext fun s => ?_
    have hs := (hrow side q s).symm.trans ((h _).trans (hlive side q s))
    simpa only [hband, and_true] using hs
  · intro h r
    constructor
    · intro hr
      obtain ⟨side, q, s, rfl⟩ := hform r hr
      obtain ⟨hq, hband⟩ := (hrow side q s).mp hr
      exact (hlive side q s).mpr ⟨h side q hband ▸ hq, hband⟩
    · intro hr
      obtain ⟨side, q, s, hband, hrests, rfl⟩ := mem_liveRows.mp hr
      refine (hrow side q s).mpr ⟨?_, hband⟩
      rw [h side q hband]
      exact (hm.level side q s).mp hrests

/-- Every level in the band is settled: the events of it that tie for
last agree with the log, and a level that is not mentioned is not held. -/
def LevelsSettled (es : List BookEvent) (log : List Entry) (g : String × Int)
    (mid : ℚ) : Prop :=
  ∀ (side : Side) (q : ℚ), inBand mid q = true →
    (mentions es g (some side.name, some q) = [] →
      sizeAfter log side q = none)
    ∧ ∀ e ∈ greatest BookEvent.stamp
        (mentions es g (some side.name, some q)),
      e.resting = sizeAfter log side q

/-- Whatever the engine takes among tied rows, the rows of a minute are
those of a live book, exactly when every level is settled: what all
engines take of a level is what its tied events agree on
(`forall_last_iff`). -/
theorem levelsSettled_iff {bs : List BookEvent}
    (hg : g ∈ minuteGrid (relevant bs))
    (hmid : referenceMid bs g.1 = some mid)
    (hsided : Sided (unpruned bs) g.1) (hm : Mirrors log b) :
    (∀ E : Engine, (group BookRow.gridKey
        (reconstruct E (minuteGrid (relevant bs)) (relevant bs)) g).Perm
        (liveRows g mid b))
      ↔ LevelsSettled (unpruned bs) log g mid := by
  simp only [rows_perm_iff hg hmid hsided hm]
  constructor
  · intro h side q hband
    exact forall_last_iff.mp fun E => h E side q hband
  · intro h E side q hband
    exact forall_last_iff.mpr (h side q hband) E

end MarketPlatform.Warehouse
