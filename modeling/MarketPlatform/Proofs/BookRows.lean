/-
The rows of the reconstructed book, said without the query.

# One level, one row

At a minute of the grid, a level's row is carried from the latest minute
that mentions the level (`CarriedFrom`), and its size is the last one of
that minute (`minuteSize`). Every level has one row (`nodup_carried`),
and a row is kept when its size is positive (`mem_reconstruct`). These
say all that later proofs use of `level_minute`, `carried` and the final
filter; none of them opens the query again.

# What the rows depend on

Two tables with the same events of a product have the same snapshot, the
same mid and the same rows of it (`relevant_congr`): how often an event
is there, and where, makes no difference.

# Liquidity

The last section is `fct_liquidity_1m` over such rows, for any
arithmetic: a minute has the row made of its book, if the book has both
sides (`group_fctLiquidity1m`), and the order of the book's rows says
nothing (`liquidityOf_perm`).
-/
import MarketPlatform.Warehouse.Marts

namespace MarketPlatform.Warehouse

open Lib Lib.Rfc3339 Lib.Relation

variable {E : Engine} {es : List BookEvent} {g : String × Int}

-- =========================================================== level_minute

/-- The size of an event's level at the end of the event's minute. -/
def minuteSize (E : Engine) (es : List BookEvent) (e : BookEvent) :
    Option ℚ :=
  (E.last BookEvent.order
    (group BookEvent.levelMinuteKey es e.levelMinuteKey)).bind
      BookEvent.size

/-- The row of `level_minute` an event belongs to. -/
def levelMinuteOf (E : Engine) (es : List BookEvent) (e : BookEvent) :
    LevelMinute :=
  ⟨e.productId, e.side, e.price, e.eventMinute, minuteSize E es e⟩

/-- The rows of `level_minute` are those of the events. -/
theorem mem_levelMinute {l : LevelMinute} :
    l ∈ levelMinute E es ↔ ∃ e ∈ es, levelMinuteOf E es e = l := by
  rw [levelMinute, mem_groupBy]
  constructor
  · intro h
    obtain ⟨k, hk, rfl⟩ := h
    obtain ⟨e, he, rfl⟩ := mem_groups.mp hk
    exact ⟨e, he, rfl⟩
  · intro h
    obtain ⟨e, he, rfl⟩ := h
    exact ⟨e.levelMinuteKey, mem_groups.mpr ⟨e, he, rfl⟩, rfl⟩

/-- Events of one level and minute belong to one row. -/
theorem minuteSize_congr {e e' : BookEvent}
    (h : e.levelMinuteKey = e'.levelMinuteKey) :
    minuteSize E es e = minuteSize E es e' := by
  rw [minuteSize, minuteSize, h]

-- ================================================================ carried

/-- The event is of the latest minute, at or before the grid's, that
mentions its level. -/
structure CarriedFrom (es : List BookEvent) (g : String × Int)
    (e : BookEvent) : Prop where
  mem : e ∈ es
  product : e.productId = g.1
  before : e.eventMinute ≤ g.2
  latest : ∀ e' ∈ es, e'.productId = g.1 → e'.level = e.level →
    e'.eventMinute ≤ g.2 → e'.eventMinute ≤ e.eventMinute

/-- The row carried from an event. -/
def rowOf (E : Engine) (es : List BookEvent) (g : String × Int)
    (e : BookEvent) : BookRow :=
  ⟨g.1, g.2, e.side, e.price, minuteSize E es e, dateOf g.2⟩

/-- The rows `carried` joins a minute of the grid with. -/
theorem mem_joined {levels : List LevelMinute} {l : LevelMinute} :
    l ∈ levels.filter (fun l => l.productId = g.1 && l.eventMinute ≤ g.2)
      ↔ l ∈ levels ∧ l.productId = g.1 ∧ l.eventMinute ≤ g.2 := by
  simp [List.mem_filter]

/-- The rows carried to a minute are those of the events that the levels
are carried from. The query keeps one row of each level, of its latest
minute; any event of that level and minute gives the same row. -/
theorem mem_carried {r : BookRow} :
    r ∈ carried E (levelMinute E es) g
      ↔ ∃ e, CarriedFrom es g e ∧ rowOf E es g e = r := by
  rw [carried, List.mem_map]
  constructor
  · intro h
    obtain ⟨l, hl, rfl⟩ := h
    obtain ⟨hmem, hfirst⟩ := of_mem_firstBy hl
    obtain ⟨hmem, hp, hle⟩ := mem_joined.mp hmem
    obtain ⟨e, he, rfl⟩ := mem_levelMinute.mp hmem
    refine ⟨e, ⟨he, hp, hle, fun e' he' hp' hlevel hle' => ?_⟩, rfl⟩
    exact hfirst (levelMinuteOf E es e') (mem_joined.mpr
      ⟨mem_levelMinute.mpr ⟨e', he', rfl⟩, hp', hle'⟩) hlevel
  · intro h
    obtain ⟨e, he, rfl⟩ := h
    have hmem : levelMinuteOf E es e ∈ (levelMinute E es).filter
        fun l => l.productId = g.1 && l.eventMinute ≤ g.2 :=
      mem_joined.mpr ⟨mem_levelMinute.mpr ⟨e, he.mem, rfl⟩, he.product,
        he.before⟩
    obtain ⟨l, hl, hpart⟩ : ∃ l ∈ firstBy E LevelMinute.level
        LevelMinute.recency ((levelMinute E es).filter
          fun l => l.productId = g.1 && l.eventMinute ≤ g.2),
        l.level = (levelMinuteOf E es e).level := exists_mem_firstBy hmem
    obtain ⟨hlmem, hfirst⟩ := of_mem_firstBy hl
    obtain ⟨hlmem, hp', hle'⟩ := mem_joined.mp hlmem
    obtain ⟨e', he', rfl⟩ := mem_levelMinute.mp hlmem
    -- both are of the latest minute, so they are of one group
    have hge : e.eventMinute ≤ e'.eventMinute := hfirst _ hmem hpart.symm
    have hle := he.latest e' he' hp' hpart hle'
    have hlevel : e'.side = e.side ∧ e'.price = e.price :=
      ⟨congrArg Prod.fst hpart, congrArg Prod.snd hpart⟩
    have hkey : e'.levelMinuteKey = e.levelMinuteKey := by
      have hp : e'.productId = e.productId := hp'.trans he.product.symm
      rw [BookEvent.levelMinuteKey, BookEvent.levelMinuteKey, hp,
        hlevel.1, hlevel.2, le_antisymm hle hge]
    refine ⟨_, hl, ?_⟩
    rw [rowOf, ← minuteSize_congr hkey, ← hlevel.1, ← hlevel.2]
    rfl

/-- Every level has one row. -/
theorem nodup_carried (levels : List LevelMinute) :
    ((carried E levels g).map fun r => (r.side, r.price)).Nodup := by
  rw [carried, List.map_map]
  exact nodup_firstBy

/-- A carried row is of the minute it is carried to. -/
theorem gridKey_of_mem_carried {levels : List LevelMinute} {r : BookRow}
    (h : r ∈ carried E levels g) : r.gridKey = g := by
  obtain ⟨l, -, rfl⟩ := List.mem_map.mp h
  rfl

-- ============================================================ reconstruct

/-- The rows of the book: of each minute of the grid, the carried rows
whose size is positive. -/
theorem mem_reconstruct {grid : List (String × Int)} {r : BookRow} :
    r ∈ reconstruct E grid es
      ↔ r.gridKey ∈ grid ∧ r.isResting = true
        ∧ ∃ e, CarriedFrom es r.gridKey e ∧ rowOf E es r.gridKey e = r := by
  rw [reconstruct, List.mem_filter, List.mem_flatMap]
  constructor
  · intro h
    obtain ⟨⟨g, hg, hr⟩, hrest⟩ := h
    obtain rfl := gridKey_of_mem_carried hr
    exact ⟨hg, hrest, mem_carried.mp hr⟩
  · intro h
    obtain ⟨hg, hrest, hr⟩ := h
    exact ⟨⟨r.gridKey, hg, mem_carried.mpr hr⟩, hrest⟩

/-- The rows of one minute of the grid: those carried to it that are
resting. The grid has the minute once, and what is carried to another
minute is a row of that one. -/
theorem group_reconstruct {grid : List (String × Int)}
    (hgrid : grid.Nodup) (hg : g ∈ grid) :
    group BookRow.gridKey (reconstruct E grid es) g
      = (carried E (levelMinute E es) g).filter BookRow.isResting := by
  rw [reconstruct, group_filter]
  congr 1
  induction grid with
  | nil => cases hg
  | cons g' grid ih =>
      obtain ⟨hnot, hnodup⟩ := List.nodup_cons.mp hgrid
      rw [group, List.flatMap_cons, List.filter_append]
      have hhead : ∀ g', g' ≠ g → (carried E (levelMinute E es) g').filter
          (fun r => r.gridKey = g) = [] := by
        intro g' hne
        refine List.filter_eq_nil_iff.mpr fun r hr hrg => hne ?_
        rw [← gridKey_of_mem_carried hr]
        exact of_decide_eq_true hrg
      by_cases h : g' = g
      · subst h
        have hself : (carried E (levelMinute E es) g').filter
            (fun r => r.gridKey = g') = carried E (levelMinute E es) g' :=
          List.filter_eq_self.mpr fun r hr =>
            decide_eq_true (gridKey_of_mem_carried hr)
        have hrest : (grid.flatMap (carried E (levelMinute E es))).filter
            (fun r => r.gridKey = g') = [] := by
          refine List.filter_eq_nil_iff.mpr fun r hr hrg => hnot ?_
          obtain ⟨g'', hg'', hr⟩ := List.mem_flatMap.mp hr
          rw [← of_decide_eq_true hrg, gridKey_of_mem_carried hr]
          exact hg''
        rw [hself, hrest, List.append_nil]
      · rw [hhead g' h, List.nil_append]
        exact ih hnodup ((List.mem_cons.mp hg).resolve_left (Ne.symm h))

/-- A minute that is not of the grid has no rows. -/
theorem group_reconstruct_of_notMem {grid : List (String × Int)}
    (hg : g ∉ grid) :
    group BookRow.gridKey (reconstruct E grid es) g = [] := by
  refine List.filter_eq_nil_iff.mpr fun r hr hrg => hg ?_
  rw [← of_decide_eq_true hrg]
  exact (mem_reconstruct.mp hr).1

/-- No minute has a row twice. -/
theorem nodup_group_reconstruct {grid : List (String × Int)}
    (hgrid : grid.Nodup) :
    (group BookRow.gridKey (reconstruct E grid es) g).Nodup := by
  by_cases hg : g ∈ grid
  · rw [group_reconstruct hgrid hg]
    exact (nodup_carried _).of_map.filter _
  · rw [group_reconstruct_of_notMem hg]
    exact List.nodup_nil

/-- A row carries the date of its minute. -/
theorem eventDate_of_mem_reconstruct {grid : List (String × Int)}
    {r : BookRow} (h : r ∈ reconstruct E grid es) :
    r.eventDate = dateOf r.eventMinute := by
  obtain ⟨-, -, e, -, hrow⟩ := mem_reconstruct.mp h
  rw [← hrow]
  rfl

-- ====================================================== tables of one bag

section SameRows

variable {p : String} {bs bs' : List BookEvent}

/-- Two tables with the same events of a product. -/
def SameRows (p : String) (bs bs' : List BookEvent) : Prop :=
  ∀ e, e.productId = p → (e ∈ bs ↔ e ∈ bs')

/-- The latest snapshot depends on which events there are. -/
theorem latestSnapshot_congr (h : SameRows p bs bs') :
    latestSnapshot bs p = latestSnapshot bs' p := by
  refine maxOf_congr fun t => ?_
  simp only [List.mem_map, List.mem_filter, Bool.and_eq_true,
    decide_eq_true_eq]
  constructor
  · intro hx
    obtain ⟨e, ⟨he, hp, hs⟩, rfl⟩ := hx
    exact ⟨e, ⟨(h e hp).mp he, hp, hs⟩, rfl⟩
  · intro hx
    obtain ⟨e, ⟨he, hp, hs⟩, rfl⟩ := hx
    exact ⟨e, ⟨(h e hp).mpr he, hp, hs⟩, rfl⟩

/-- The resting levels of the latest snapshot. -/
theorem mem_snapshotRows {e : BookEvent} :
    e ∈ snapshotRows bs p ↔ e ∈ bs ∧ e.productId = p
      ∧ latestSnapshot bs p = some e.stateTime ∧ e.isSnapshot = true
      ∧ e.isResting = true := by
  simp only [snapshotRows, List.mem_filter, Bool.and_eq_true,
    decide_eq_true_eq, and_assoc]

/-- The prices of one side. -/
theorem mem_pricesOf {side : String} {x : ℚ} :
    x ∈ pricesOf side bs
      ↔ ∃ e ∈ bs, e.side = some side ∧ e.price = some x := by
  simp only [pricesOf, List.mem_filterMap, List.mem_filter,
    decide_eq_true_eq, and_assoc]

/-- And so does the mid. -/
theorem referenceMid_congr (h : SameRows p bs bs') :
    referenceMid bs p = referenceMid bs' p := by
  have hprices : ∀ side x, x ∈ pricesOf side (snapshotRows bs p)
      ↔ x ∈ pricesOf side (snapshotRows bs' p) := by
    intro side x
    simp only [mem_pricesOf, mem_snapshotRows, latestSnapshot_congr h]
    constructor
    · intro hex
      obtain ⟨e, ⟨he, hp, hrest⟩, hx⟩ := hex
      exact ⟨e, ⟨(h e hp).mp he, hp, hrest⟩, hx⟩
    · intro hex
      obtain ⟨e, ⟨he, hp, hrest⟩, hx⟩ := hex
      exact ⟨e, ⟨(h e hp).mpr he, hp, hrest⟩, hx⟩
  rw [referenceMid, referenceMid, minOf_congr (hprices "sell"),
    maxOf_congr (hprices "buy")]

/-- The rows that are kept are settled by the rows there are. -/
theorem relevant_congr (h : SameRows p bs bs') :
    SameRows p (relevant bs) (relevant bs') := by
  rintro e rfl
  simp only [relevant, List.mem_filter, sinceSnapshot, nearMid, h e rfl,
    latestSnapshot_congr h, referenceMid_congr h]

end SameRows

-- ========================================================= fct_liquidity_1m

/-- The product and the minute of a row. -/
def Liquidity.gridKey (l : Liquidity) : String × Int :=
  (l.productId, l.barStart)

/-- The prices of one side of a book. -/
theorem mem_bookPrices {side : String} {rows : List BookRow} {x : ℚ} :
    x ∈ bookPrices side rows
      ↔ ∃ r ∈ rows, r.side = some side ∧ r.price = some x := by
  simp only [bookPrices, List.mem_filterMap, List.mem_filter,
    decide_eq_true_eq, and_assoc]

/-- A depth does not depend on the order of the rows. -/
theorem depth_perm {counts : BookRow → Bool} {rows rows' : List BookRow}
    (h : rows.Perm rows') : depth counts rows = depth counts rows' :=
  (h.map _).sum_eq

namespace Arithmetic

variable {A : Arithmetic}

theorem of_liquidityOf {rows : List BookRow} {l : Liquidity}
    (h : A.liquidityOf g rows = some l) :
    l.gridKey = g ∧ l.eventDate = dateOf g.2 := by
  simp only [liquidityOf, Option.bind_eq_bind, Option.bind_eq_some_iff,
    Option.pure_def, Option.some.injEq] at h
  obtain ⟨bestBid, -, bestAsk, -, rfl⟩ := h
  exact ⟨rfl, rfl⟩

/-- The order of a minute's rows says nothing. -/
theorem liquidityOf_perm {rows rows' : List BookRow}
    (h : rows.Perm rows') : A.liquidityOf g rows = A.liquidityOf g rows' := by
  have hprices : ∀ side x,
      x ∈ bookPrices side rows ↔ x ∈ bookPrices side rows' := by
    intro side x
    simp only [mem_bookPrices, h.mem_iff]
  have hbid : maxOf (bookPrices "buy" rows)
      = maxOf (bookPrices "buy" rows') :=
    maxOf_congr (hprices "buy")
  have hask : minOf (bookPrices "sell" rows)
      = minOf (bookPrices "sell" rows') :=
    minOf_congr (hprices "sell")
  have hdepth : ∀ counts, depth counts rows = depth counts rows' :=
    fun counts => depth_perm h
  simp only [liquidityOf, hbid, hask, hdepth, h.length_eq]

/-- A product and minute have the row made from their book, if any. -/
theorem group_fctLiquidity1m {rows : List BookRow} :
    group Liquidity.gridKey (A.fctLiquidity1m rows) g
      = (A.liquidityOf g (group BookRow.gridKey rows g)).toList := by
  have hkey : ∀ k l, A.liquidityOf k (group BookRow.gridKey rows k)
      = some l → l.gridKey = k := fun k l h => (of_liquidityOf h).1
  rw [fctLiquidity1m, groupBy, List.filterMap_map, Function.id_comp,
    group_filterMap nodup_groups hkey]
  split
  · rfl
  · next hg =>
      have hnil : group BookRow.gridKey rows g = [] := by
        by_contra hne
        exact hg (group_ne_nil_iff.mp hne)
      rw [hnil]
      rfl

end Arithmetic

theorem of_liquidityOf {rows : List BookRow} {l : Liquidity}
    (h : liquidityOf g rows = some l) :
    l.gridKey = g ∧ l.eventDate = dateOf g.2 :=
  Arithmetic.of_liquidityOf (A := Arithmetic.bigQuery) h

theorem liquidityOf_perm {rows rows' : List BookRow}
    (h : rows.Perm rows') : liquidityOf g rows = liquidityOf g rows' := by
  rw [liquidityOf_eq]
  exact Arithmetic.liquidityOf_perm h

theorem group_fctLiquidity1m {rows : List BookRow} :
    group Liquidity.gridKey (fctLiquidity1m rows) g
      = (liquidityOf g (group BookRow.gridKey rows g)).toList := by
  rw [fctLiquidity1m_eq, liquidityOf_eq]
  exact Arithmetic.group_fctLiquidity1m

end MarketPlatform.Warehouse
