/-
When the closed minutes of the book are stable.

A later build sees the same raw rows and more, all received in minutes
from a cut on, in whatever order they now lie, and its engine may pick
other rows among tied ones. `closed_liquidity_stable_iff` says when the
rows before the cut, and what an incremental run leaves of them in
`fct_liquidity_1m`, are the same for every two engines.

# What settles a closed minute

The rows of a product before the cut depend only on its relevant events
before the cut (`past`), and on them as a set: a grid minute is there
because of an event, a level is carried from the latest minute that
mentions it, and its size is that of the last event of that minute. Only
the last step leaves the engine a choice, among events of one level and
minute that share the exchange's millisecond and the position in the
message. `TiesSettled` asks that it be no choice: tied events show the
same size, or none of them is resting (`mem_reconstruct_past`). It is
needed, since any of them may be picked (`tiesSettled_of_rows`).

# What a later message does

Later events leave the past alone as long as they bring no new snapshot
of the product: the latest snapshot, its mid and the band stay
(`past_relevant_append`). A new snapshot has a later receive time, and
every row of the product before the cut is gone (`cut_le_of_snapshot`);
that is stable only where there was none.

# The table

An incremental run overwrites the partitions of the lookback, so the rows
of closed minutes inside it are rewritten from the later book
(`buildLiquidity_closed`); the table is assumed to hold, for those dates,
what the former book gave (`Current`).
-/
import MarketPlatform.Proofs.BookRows
import MarketPlatform.Proofs.Staged

namespace MarketPlatform.Warehouse

open Lib Lib.Rfc3339 Lib.Relation Lib.Partitioned

variable {E E' : Engine} {cut : Int} {p : String}

-- =============================================================== the past

/-- The events of a product before a cut. -/
def past (p : String) (cut : Int) (es : List BookEvent) : List BookEvent :=
  es.filter fun e => e.productId = p && e.eventMinute < cut

theorem mem_past {es : List BookEvent} {e : BookEvent} :
    e ∈ past p cut es ↔ e ∈ es ∧ e.productId = p ∧ e.eventMinute < cut := by
  simp [past, List.mem_filter]

/-- The events before a cut. -/
def closed (cut : Int) (es : List BookEvent) : List BookEvent :=
  es.filter fun e => e.eventMinute < cut

theorem mem_closed {es : List BookEvent} {e : BookEvent} :
    e ∈ closed cut es ↔ e ∈ es ∧ e.eventMinute < cut := by
  simp [closed, List.mem_filter]

/-- What a row shows of a size: nothing of one that is not positive. -/
def BookEvent.shown (e : BookEvent) : Option ℚ :=
  if e.isResting then e.size else none

/-- Either of two events may be picked as the last of its level in its
minute. -/
def Tied (es : List BookEvent) (e e' : BookEvent) : Prop :=
  e.levelMinuteKey = e'.levelMinuteKey ∧ e.order = e'.order
    ∧ ∀ f ∈ es, f.levelMinuteKey = e.levelMinuteKey → f.order ≤ e.order

instance (es : List BookEvent) (e e' : BookEvent) :
    Decidable (Tied es e e') := by
  unfold Tied
  infer_instance

/-- Tied events show the same. -/
def TiesSettled (es : List BookEvent) : Prop :=
  ∀ e ∈ es, ∀ e' ∈ es, Tied es e e' → e.shown = e'.shown

instance (es : List BookEvent) : Decidable (TiesSettled es) := by
  unfold TiesSettled
  infer_instance

theorem product_of_key {e f : BookEvent}
    (h : f.levelMinuteKey = e.levelMinuteKey) :
    f.productId = e.productId ∧ f.eventMinute = e.eventMinute :=
  ⟨congrArg Prod.fst h, congrArg (fun k => k.2.2.2) h⟩

/-- The ties of one product. -/
theorem TiesSettled.past {es : List BookEvent}
    (h : TiesSettled (closed cut es)) (p : String) :
    TiesSettled (past p cut es) := by
  rintro e he e' he' ⟨hkey, horder, hlast⟩
  obtain ⟨he, hp, hcut⟩ := mem_past.mp he
  obtain ⟨he', hp', hcut'⟩ := mem_past.mp he'
  refine h e (mem_closed.mpr ⟨he, hcut⟩) e' (mem_closed.mpr ⟨he', hcut'⟩)
    ⟨hkey, horder, fun f hf hfe => ?_⟩
  obtain ⟨hf, hfcut⟩ := mem_closed.mp hf
  have hfp := (product_of_key hfe).1.trans hp
  exact hlast f (mem_past.mpr ⟨hf, hfp, hfcut⟩) hfe

/-- Ties are a matter of the set. -/
theorem TiesSettled.congr {es es' : List BookEvent}
    (h : TiesSettled es) (hmem : ∀ e, e ∈ es' ↔ e ∈ es) :
    TiesSettled es' := by
  rintro e he e' he' ⟨hkey, horder, hlast⟩
  exact h e ((hmem e).mp he) e' ((hmem e').mp he')
    ⟨hkey, horder, fun f hf => hlast f ((hmem f).mpr hf)⟩

/-- The size of a level is that of one of its last events of the
minute. -/
theorem exists_minuteSize {es : List BookEvent} {e : BookEvent}
    (he : e ∈ es) :
    ∃ a ∈ es, a.levelMinuteKey = e.levelMinuteKey
      ∧ (∀ f ∈ es, f.levelMinuteKey = e.levelMinuteKey →
        f.order ≤ a.order)
      ∧ minuteSize E es e = a.size := by
  have hne : group BookEvent.levelMinuteKey es e.levelMinuteKey ≠ [] :=
    group_ne_nil_iff.mpr (mem_groups.mpr ⟨e, he, rfl⟩)
  obtain ⟨a, ha⟩ := exists_last E BookEvent.order hne
  obtain ⟨hmem, hkey⟩ := mem_group.mp (mem_of_last ha)
  refine ⟨a, hmem, hkey, fun f hf hfe => ?_, ?_⟩
  · exact le_last ha (mem_group.mpr ⟨hf, hfe⟩)
  · rw [minuteSize, ha, Option.bind_some]

section Past

variable {es es' : List BookEvent}

/-- What is resting before the cut is settled by the past, where the
ties are. The two engines pick two last events of the level and minute;
each is last in the other's table too, so they tie, and tied events show
the same. -/
theorem minuteSize_past (h : ∀ e, e ∈ past p cut es' ↔ e ∈ past p cut es)
    (hties : TiesSettled (past p cut es)) {e : BookEvent}
    (he : e ∈ past p cut es) {s : ℚ} (hs : minuteSize E es e = some s)
    (hpos : 0 < s) : minuteSize E' es' e = some s := by
  obtain ⟨hmem, hp, hcut⟩ := mem_past.mp he
  have hmem' := (mem_past.mp ((h e).mpr he)).1
  obtain ⟨a, ha, hakey, halast, hasize⟩ := exists_minuteSize (E := E) hmem
  obtain ⟨b, hb, hbkey, hblast, hbsize⟩ := exists_minuteSize (E := E') hmem'
  have hin : ∀ {f : BookEvent} {rows : List BookEvent}, f ∈ rows →
      f.levelMinuteKey = e.levelMinuteKey → f ∈ past p cut rows := by
    intro f rows hf hkey
    obtain ⟨hfp, hfm⟩ := product_of_key hkey
    exact mem_past.mpr ⟨hf, hfp.trans hp, by rw [hfm]; exact hcut⟩
  have hapast := hin ha hakey
  have hbpast := (h b).mp (hin hb hbkey)
  -- each is last in the other's table
  have horder : a.order = b.order := le_antisymm
    (hblast a (mem_past.mp ((h a).mpr hapast)).1 hakey)
    (halast b (mem_past.mp hbpast).1 hbkey)
  have hshown := hties a hapast b hbpast ⟨hakey.trans hbkey.symm, horder,
    fun f hf hfa => halast f (mem_past.mp hf).1 (hfa.trans hakey)⟩
  have haresting : a.isResting = true := by
    rw [BookEvent.isResting, ← hasize, hs]
    exact decide_eq_true hpos
  rw [BookEvent.shown, if_pos haresting, BookEvent.shown] at hshown
  rw [hbsize]
  split at hshown
  · rw [← hshown, ← hasize, hs]
  · rw [← hasize, hs] at hshown
    cases hshown

theorem carriedFrom_past (h : ∀ e, e ∈ past p cut es' ↔ e ∈ past p cut es)
    {M : Int} (hM : M < cut) {e : BookEvent}
    (he : CarriedFrom es (p, M) e) : CarriedFrom es' (p, M) e := by
  have hmem : ∀ e', e'.productId = p → e'.eventMinute ≤ M →
      (e' ∈ es ↔ e' ∈ es') := by
    intro e' hp hle
    have hiff := (h e').symm
    simpa only [mem_past, hp, lt_of_le_of_lt hle hM, and_true, true_and]
      using hiff
  refine ⟨(hmem e he.product he.before).mp he.mem, he.product, he.before,
    fun e' he' hp hlevel hle => ?_⟩
  exact he.latest e' ((hmem e' hp hle).mpr he') hp hlevel hle

/-- The rows of a product before the cut are settled by the past, where
the ties are: the minute is in the grid because of an event of the past,
the event carried to it is one of the past, and so is its size. -/
theorem mem_reconstruct_past
    (h : ∀ e, e ∈ past p cut es' ↔ e ∈ past p cut es)
    (hties : TiesSettled (past p cut es)) {r : BookRow}
    (hp : r.productId = p) (hr : r.eventMinute < cut)
    (hmem : r ∈ reconstruct E (minuteGrid es) es) :
    r ∈ reconstruct E' (minuteGrid es') es' := by
  obtain ⟨hgrid, hrest, e, he, hrow⟩ := mem_reconstruct.mp hmem
  have hkey : r.gridKey = (p, r.eventMinute) := by rw [← hp]; rfl
  rw [hkey] at hgrid he hrow
  have hepast : e ∈ past p cut es :=
    mem_past.mpr ⟨he.mem, he.product, lt_of_le_of_lt he.before hr⟩
  refine mem_reconstruct.mpr ⟨?_, hrest, e, ?_, ?_⟩
  · -- the minute is in the grid because of an event of the past
    obtain ⟨e', he', heq⟩ := List.mem_map.mp (List.mem_dedup.mp hgrid)
    have hp' : e'.productId = p := congrArg Prod.fst heq
    have hminute : e'.eventMinute = r.eventMinute := congrArg Prod.snd heq
    have hpast : e' ∈ past p cut es :=
      mem_past.mpr ⟨he', hp', by rw [hminute]; exact hr⟩
    rw [hkey]
    exact List.mem_dedup.mpr (List.mem_map.mpr
      ⟨e', (mem_past.mp ((h e').mpr hpast)).1, heq⟩)
  · rw [hkey]
    exact carriedFrom_past h hr he
  · obtain ⟨s, hs, hpos⟩ : ∃ s, r.size = some s ∧ 0 < s := by
      unfold BookRow.isResting at hrest
      cases hsize : r.size with
      | none => simp [hsize] at hrest
      | some s => exact ⟨s, rfl, by simpa [hsize] using hrest⟩
    have hsize : minuteSize E es e = some s :=
      (congrArg BookRow.size hrow).trans hs
    rw [hkey, ← hrow, rowOf, rowOf, hsize,
      minuteSize_past h hties hepast hsize hpos]

theorem mem_reconstruct_congr
    (h : ∀ e, e ∈ past p cut es' ↔ e ∈ past p cut es)
    (hties : TiesSettled (past p cut es)) {r : BookRow}
    (hp : r.productId = p) (hr : r.eventMinute < cut) :
    r ∈ reconstruct E' (minuteGrid es') es'
      ↔ r ∈ reconstruct E (minuteGrid es) es :=
  ⟨mem_reconstruct_past (fun e => (h e).symm) (hties.congr h) hp hr,
    mem_reconstruct_past h hties hp hr⟩

end Past

-- =================================================================== ties

section Ties

variable {es : List BookEvent}

/-- An engine may pick any last event of a level and minute. -/
theorem exists_picks {e : BookEvent} (he : e ∈ es)
    (hlast : ∀ f ∈ es, f.levelMinuteKey = e.levelMinuteKey →
      f.order ≤ e.order) :
    ∃ E : Engine, minuteSize E es e = e.size := by
  have hgreatest : e ∈ greatest BookEvent.order
      (group BookEvent.levelMinuteKey es e.levelMinuteKey) :=
    mem_greatest.mpr ⟨mem_group.mpr ⟨he, rfl⟩, fun f hf =>
      hlast f (mem_group.mp hf).1 (mem_group.mp hf).2⟩
  obtain ⟨E, hE⟩ := exists_pick hgreatest
  have hpicked : E.last BookEvent.order
      (group BookEvent.levelMinuteKey es e.levelMinuteKey) = some e := hE
  exact ⟨E, by rw [minuteSize, hpicked, Option.bind_some]⟩

/-- The row that shows an event's size in the event's own minute. -/
theorem mem_reconstruct_self {e : BookEvent} (he : e ∈ es) {s : ℚ}
    (hs : minuteSize E es e = some s) (hpos : 0 < s) :
    rowOf E es (e.productId, e.eventMinute) e
      ∈ reconstruct E (minuteGrid es) es := by
  refine mem_reconstruct.mpr ⟨?_, ?_, e, ?_, rfl⟩
  · exact List.mem_dedup.mpr (List.mem_map.mpr ⟨e, he, rfl⟩)
  · show (minuteSize E es e).any _ = true
    rw [hs]
    exact decide_eq_true hpos
  · exact ⟨he, rfl, le_refl _, fun _ _ _ _ hle => hle⟩

/-- A row of an event's level in the event's own minute shows the size
that the engine took there. -/
theorem size_of_mem_reconstruct {e : BookEvent} (he : e ∈ es) {r : BookRow}
    (hr : r ∈ reconstruct E (minuteGrid es) es)
    (hgrid : r.gridKey = (e.productId, e.eventMinute))
    (hlevel : (r.side, r.price) = e.level) :
    r.size = minuteSize E es e := by
  obtain ⟨-, -, f, hf, hrow⟩ := mem_reconstruct.mp hr
  rw [hgrid] at hf hrow
  have hfe : f.level = e.level := by
    rw [← hlevel, ← hrow]
    rfl
  have hle := hf.latest e he rfl hfe.symm (le_refl _)
  have hkey : f.levelMinuteKey = e.levelMinuteKey := by
    have hside : f.side = e.side := congrArg Prod.fst hfe
    have hprice : f.price = e.price := congrArg Prod.snd hfe
    have hp : f.productId = e.productId := hf.product
    have hm : f.eventMinute = e.eventMinute := le_antisymm hf.before hle
    rw [BookEvent.levelMinuteKey, BookEvent.levelMinuteKey, hp, hside,
      hprice, hm]
  rw [← minuteSize_congr hkey, ← hrow]
  rfl

/-- Where every two engines give the same closed rows, the ties are
settled. Of two tied events one engine can pick the one and another the
other; a size that the first shows makes a row, which the second can
only give if the other event shows it too. -/
theorem tiesSettled_of_rows
    (h : ∀ (E E' : Engine) (r : BookRow), r.eventMinute < cut →
      r ∈ reconstruct E (minuteGrid es) es →
      r ∈ reconstruct E' (minuteGrid es) es) :
    TiesSettled (closed cut es) := by
  -- whatever one of two tied events shows, the other shows
  have hshows : ∀ e ∈ es, ∀ e' ∈ es, e.eventMinute < cut →
      e.levelMinuteKey = e'.levelMinuteKey →
      (∀ f ∈ es, f.levelMinuteKey = e.levelMinuteKey →
        f.order ≤ e.order) →
      (∀ f ∈ es, f.levelMinuteKey = e'.levelMinuteKey →
        f.order ≤ e'.order) →
      ∀ s, e.shown = some s → e'.shown = some s := by
    intro e he e' he' hcut hkey hlast hlast' s hs
    unfold BookEvent.shown at hs
    split at hs
    · next hrest =>
        have hpos : 0 < s := by
          rw [BookEvent.isResting, hs] at hrest
          exact of_decide_eq_true hrest
        obtain ⟨E, hE⟩ := exists_picks he hlast
        obtain ⟨E', hE'⟩ := exists_picks he' hlast'
        have hrow := h E E' _ hcut
          (mem_reconstruct_self he (hE.trans hs) hpos)
        obtain ⟨hp, hm⟩ := product_of_key hkey
        have hlevel : e.level = e'.level := by
          have hside := congrArg (fun k => k.2.1) hkey
          have hprice := congrArg (fun k => k.2.2.1) hkey
          exact Prod.ext hside hprice
        have hsize := size_of_mem_reconstruct he' hrow
          (Prod.ext hp hm) hlevel
        have hs' : e'.size = some s := by
          rw [← hE', ← hsize]
          exact hE.trans hs
        have hrest' : e'.isResting = true := by
          rw [BookEvent.isResting, hs']
          exact decide_eq_true hpos
        rw [BookEvent.shown, if_pos hrest', hs']
    · cases hs
  rintro e he e' he' ⟨hkey, horder, hlast⟩
  obtain ⟨he, hcut⟩ := mem_closed.mp he
  obtain ⟨he', hcut'⟩ := mem_closed.mp he'
  have hlast₁ : ∀ f ∈ es, f.levelMinuteKey = e.levelMinuteKey →
      f.order ≤ e.order := fun f hf hfe => by
    refine hlast f (mem_closed.mpr ⟨hf, ?_⟩) hfe
    rw [(product_of_key hfe).2]
    exact hcut
  have hlast₂ : ∀ f ∈ es, f.levelMinuteKey = e'.levelMinuteKey →
      f.order ≤ e'.order := fun f hf hfe =>
    horder ▸ hlast₁ f hf (hfe.trans hkey.symm)
  cases hs : e.shown with
  | some s => exact (hshows e he e' he' hcut hkey hlast₁ hlast₂ s hs).symm
  | none =>
      cases hs' : e'.shown with
      | none => rfl
      | some s =>
          have hsome := hshows e' he' e he hcut' hkey.symm hlast₂ hlast₁ s hs'
          rw [hs] at hsome
          cases hsome

end Ties

-- =========================================================== later events

section Later

variable {es more : List BookEvent}

/-- Events that are no snapshots of a product leave its snapshot be. -/
theorem latestSnapshot_append
    (h : ∀ e ∈ more, e.productId = p → e.isSnapshot = false) :
    latestSnapshot (es ++ more) p = latestSnapshot es p := by
  have hnil : more.filter (fun e => e.productId = p && e.isSnapshot)
      = [] := by
    refine List.filter_eq_nil_iff.mpr fun e he hcase => ?_
    simp only [Bool.and_eq_true, decide_eq_true_eq] at hcase
    rw [h e he hcase.1] at hcase
    cases hcase.2
  rw [latestSnapshot, latestSnapshot, List.filter_append, hnil,
    List.append_nil]

theorem referenceMid_append
    (h : ∀ e ∈ more, e.productId = p → e.isSnapshot = false) :
    referenceMid (es ++ more) p = referenceMid es p := by
  have hrows : snapshotRows (es ++ more) p = snapshotRows es p := by
    have hnil : more.filter (fun e => e.productId = p
        && latestSnapshot es p = some e.stateTime && e.isSnapshot
        && e.isResting) = [] := by
      refine List.filter_eq_nil_iff.mpr fun e he hcase => ?_
      simp only [Bool.and_eq_true, decide_eq_true_eq] at hcase
      rw [h e he hcase.1.1.1] at hcase
      cases hcase.1.2
    rw [snapshotRows, snapshotRows, latestSnapshot_append h,
      List.filter_append, hnil, List.append_nil]
  rw [referenceMid, referenceMid, hrows]

/-- Without a new snapshot, later events leave the past be. -/
theorem past_relevant_append
    (hlater : ∀ e ∈ more, cut ≤ e.eventMinute)
    (h : ∀ e ∈ more, e.productId = p → e.isSnapshot = false) :
    past p cut (relevant (es ++ more)) = past p cut (relevant es) := by
  have hkeep : ∀ e : BookEvent, e.productId = p →
      (sinceSnapshot (es ++ more) e && nearMid (es ++ more) e)
        = (sinceSnapshot es e && nearMid es e) := by
    intro e hp
    simp only [sinceSnapshot, nearMid, hp, latestSnapshot_append h,
      referenceMid_append h]
  have hnil : more.filter (fun e => (e.productId = p && e.eventMinute < cut)
      && (sinceSnapshot (es ++ more) e && nearMid (es ++ more) e)) = [] := by
    refine List.filter_eq_nil_iff.mpr fun e he hcase => ?_
    simp only [Bool.and_eq_true, decide_eq_true_eq] at hcase
    exact absurd (hlater e he) (not_le.mpr hcase.1.2)
  simp only [past, relevant, List.filter_filter]
  rw [List.filter_append, hnil, List.append_nil]
  refine List.filter_congr fun e _ => ?_
  by_cases hp : e.productId = p
  · rw [hkeep e hp]
  · simp [hp]

theorem le_latestSnapshot {s : BookEvent} (hs : s ∈ es)
    (hsnap : s.isSnapshot = true) {t : Int}
    (ht : latestSnapshot es s.productId = some t) : s.stateTime ≤ t := by
  refine (maxOf_eq_some_iff.mp ht).2 _ (List.mem_map.mpr ⟨s, ?_, rfl⟩)
  exact List.mem_filter.mpr ⟨hs, by simp [hsnap]⟩

/-- Nothing received before a snapshot of its product is relevant. -/
theorem snapshot_le_of_relevant {s : BookEvent} (hs : s ∈ es)
    (hsnap : s.isSnapshot = true) {e : BookEvent} (he : e ∈ relevant es)
    (hp : e.productId = s.productId) : s.stateTime ≤ e.stateTime := by
  have hkept := (List.mem_filter.mp he).2
  rw [Bool.and_eq_true] at hkept
  have hsince := hkept.1
  unfold sinceSnapshot at hsince
  split at hsince
  · next t mid ht hmid =>
      rw [hp] at ht
      exact (le_latestSnapshot hs hsnap ht).trans (of_decide_eq_true hsince)
  · cases hsince

/-- With a snapshot from the cut on, no row before it is left. -/
theorem cut_le_of_snapshot
    (hminute : ∀ e ∈ es, e.eventMinute = truncate minute e.stateTime)
    {s : BookEvent} (hs : s ∈ es) (hsnap : s.isSnapshot = true)
    (hlater : cut ≤ s.eventMinute) {r : BookRow}
    (hr : r ∈ reconstruct E (minuteGrid (relevant es)) (relevant es))
    (hp : r.productId = s.productId) : cut ≤ r.eventMinute := by
  obtain ⟨hgrid, -, -⟩ := mem_reconstruct.mp hr
  obtain ⟨e, he, heq⟩ := List.mem_map.mp (List.mem_dedup.mp hgrid)
  have hep : e.productId = r.productId := congrArg Prod.fst heq
  have hem : e.eventMinute = r.eventMinute := congrArg Prod.snd heq
  have hle := snapshot_le_of_relevant hs hsnap he (hep.trans hp)
  rw [← hem, hminute e (List.mem_filter.mp he).1]
  rw [hminute s hs] at hlater
  exact hlater.trans (truncate_mono (by decide) hle)

end Later

-- =========================================================== closed minutes

section Closed

variable {es more : List StgL2Event}

theorem eventMinute_of_mem {e : BookEvent} (he : e ∈ bookEvents es) :
    e.eventMinute = truncate minute e.stateTime := by
  obtain ⟨s, -, rfl⟩ := List.mem_map.mp he
  rfl

/-- A new snapshot of a product, if the product has rows before the
cut. -/
def NewSnapshot (E : Engine) (cut : Int) (es more : List StgL2Event) :
    Prop :=
  ∃ e ∈ more, e.eventType = "snapshot"
    ∧ ∃ r ∈ intBookState1m E es, r.productId = e.productId
      ∧ r.eventMinute < cut

/-- Without a new snapshot of a product, what is relevant of its past
stays. -/
theorem past_relevant_grown {es' : List StgL2Event}
    (hmem : ∀ e, e ∈ es' ↔ e ∈ es ++ more)
    (hlater : ∀ e ∈ more, cut ≤ truncate minute e.ingestTime)
    (hquiet : ∀ e ∈ more, e.productId = p → e.eventType ≠ "snapshot")
    (e : BookEvent) :
    e ∈ past p cut (relevant (bookEvents es'))
      ↔ e ∈ past p cut (relevant (bookEvents es)) := by
  have hsame : SameRows p (bookEvents es') (bookEvents (es ++ more)) := by
    intro e _
    simp only [bookEvents, List.mem_map, hmem]
  have happend : bookEvents (es ++ more)
      = bookEvents es ++ bookEvents more := List.map_append
  have hmore : ∀ e ∈ bookEvents more, cut ≤ e.eventMinute := by
    intro e he
    obtain ⟨s, hs, rfl⟩ := List.mem_map.mp he
    exact hlater s hs
  have hsnap : ∀ e ∈ bookEvents more, e.productId = p →
      e.isSnapshot = false := by
    intro e he hp
    obtain ⟨s, hs, rfl⟩ := List.mem_map.mp he
    exact decide_eq_false (hquiet s hs hp)
  have hpast : past p cut (relevant (bookEvents (es ++ more)))
      = past p cut (relevant (bookEvents es)) := by
    rw [happend]
    exact past_relevant_append hmore hsnap
  rw [← hpast, mem_past, mem_past]
  exact and_congr_left fun hp => relevant_congr hsame e hp.1

/-- The rows before the cut are the same for every two engines exactly
when there is no such snapshot and the ties before the cut are
settled. -/
theorem closed_rows_iff {es' : List StgL2Event}
    (hmem : ∀ e, e ∈ es' ↔ e ∈ es ++ more)
    (hlater : ∀ e ∈ more, cut ≤ truncate minute e.ingestTime) :
    (∀ (E E' : Engine) (r : BookRow), r.eventMinute < cut →
        (r ∈ intBookState1m E' es' ↔ r ∈ intBookState1m E es))
      ↔ (∀ E, ¬ NewSnapshot E cut es more)
        ∧ TiesSettled (closed cut (relevant (bookEvents es))) := by
  -- a product with a new snapshot has no row before the cut left
  have hgone : ∀ (E : Engine), ∀ e ∈ more, e.eventType = "snapshot" →
      ∀ r ∈ intBookState1m E es', r.productId = e.productId →
        cut ≤ r.eventMinute := by
    intro E e he htype r hr hp
    refine cut_le_of_snapshot (fun e he => eventMinute_of_mem he)
      (List.mem_map_of_mem ((hmem e).mpr (List.mem_append_right es he))) ?_
      (hlater e he) hr hp
    exact decide_eq_true htype
  constructor
  · intro h
    constructor
    · rintro E ⟨e, he, htype, r, hr, hp, hcut⟩
      have hr' := (h E E r hcut).mpr hr
      exact absurd (hgone E e he htype r hr' hp) (not_le.mpr hcut)
    · exact tiesSettled_of_rows fun E E' r hcut hr =>
        (h E' E' r hcut).mp ((h E E' r hcut).mpr hr)
  · rintro ⟨hno, hties⟩ E E' r hcut
    by_cases hsnap : ∃ e ∈ more, e.eventType = "snapshot"
        ∧ e.productId = r.productId
    · obtain ⟨e, he, htype, hp⟩ := hsnap
      constructor
      · intro hr
        exact absurd (hgone E' e he htype r hr hp.symm) (not_le.mpr hcut)
      · intro hr
        exact absurd ⟨e, he, htype, r, hr, hp.symm, hcut⟩ (hno E)
    · refine mem_reconstruct_congr (past_relevant_grown hmem hlater
        fun e he hp htype => hsnap ⟨e, he, htype, hp⟩) (hties.past _) rfl hcut

end Closed

-- ========================================================= fct_liquidity_1m

section Liquidity

variable {book book' : List BookRow} {vars : Vars} {now : Int}

/-- The rows before the cut are made from the books before the cut. -/
theorem fctLiquidity1m_closed
    (h : ∀ g : String × Int, g.2 < cut →
      (group BookRow.gridKey book' g).Perm (group BookRow.gridKey book g)) :
    ((fctLiquidity1m book').filter fun l => l.barStart < cut).Perm
      ((fctLiquidity1m book).filter fun l => l.barStart < cut) := by
  refine perm_of_groups Liquidity.gridKey fun g => ?_
  rw [group_filter, group_filter]
  by_cases hg : g.2 < cut
  · rw [group_fctLiquidity1m, group_fctLiquidity1m,
      liquidityOf_perm (h g hg)]
  · have hnil : ∀ rows : List Liquidity, (group Liquidity.gridKey rows
        g).filter (fun l => l.barStart < cut) = [] := by
      intro rows
      refine List.filter_eq_nil_iff.mpr fun l hl hcut => hg ?_
      rw [← (mem_group.mp hl).2]
      exact of_decide_eq_true hcut
    rw [hnil, hnil]

/-- Reading only the window leaves the rows inside the window. -/
theorem fctLiquidity1m_windowed
    (hdate : ∀ r ∈ book, r.eventDate = dateOf r.eventMinute) :
    (fctLiquidity1m (windowed vars now true BookRow.eventDate book)).Perm
      ((fctLiquidity1m book).filter fun l =>
        inLookback vars now l.eventDate) := by
  refine perm_of_groups Liquidity.gridKey fun g => ?_
  have hdateOf : ∀ r ∈ group BookRow.gridKey book g,
      r.eventDate = dateOf g.2 := by
    intro r hr
    obtain ⟨hr, hg⟩ := mem_group.mp hr
    rw [hdate r hr, ← hg]
    rfl
  have hbook : group BookRow.gridKey
      (windowed vars now true BookRow.eventDate book) g
        = if inLookback vars now (dateOf g.2) then
            group BookRow.gridKey book g
          else [] := by
    rw [windowed, if_pos rfl, group_filter]
    split
    · next hin =>
        exact List.filter_eq_self.mpr fun r hr => by rwa [hdateOf r hr]
    · next hout =>
        exact List.filter_eq_nil_iff.mpr fun r hr => by rwa [hdateOf r hr]
  rw [group_fctLiquidity1m, group_filter, group_fctLiquidity1m, hbook]
  split
  · next hin =>
      rw [List.filter_eq_self.mpr]
      intro l hl
      rw [(of_liquidityOf (Option.mem_toList.mp hl)).2, hin]
  · next hout =>
      have hnone : liquidityOf g [] = none := rfl
      rw [hnone, List.filter_eq_nil_iff.mpr]
      · exact List.Perm.nil
      · intro l hl
        rw [(of_liquidityOf (Option.mem_toList.mp hl)).2]
        exact hout

/-- In the partitions that a run may overwrite, the table holds what was
made from a book. -/
def Current (vars : Vars) (now : Int) (book : List BookRow)
    (t : List Liquidity) : Prop :=
  ∀ d, inLookback vars now d = true →
    (group Liquidity.eventDate t d).Perm
      (group Liquidity.eventDate (fctLiquidity1m book) d)

/-- An incremental run leaves the rows before the cut as they are, if
the book has left them as they are. A date that the run rewrites is
inside the window, so all of its rows are computed again from all of its
book. -/
theorem buildLiquidity_closed
    (hdate : ∀ r ∈ book', r.eventDate = dateOf r.eventMinute)
    (h : ∀ g : String × Int, g.2 < cut →
      (group BookRow.gridKey book' g).Perm (group BookRow.gridKey book g))
    {t : List Liquidity} (ht : Current vars now book t) :
    ((buildLiquidity vars now false book' (some t)).filter fun l =>
        l.barStart < cut).Perm (t.filter fun l => l.barStart < cut) := by
  have hquery : (fctLiquidity1m (windowed vars now true BookRow.eventDate
      book')).Perm ((fctLiquidity1m book').filter fun l =>
        inLookback vars now l.eventDate) := fctLiquidity1m_windowed hdate
  have hclosed := fctLiquidity1m_closed h
  refine perm_of_groups Liquidity.eventDate fun d => ?_
  rw [group_filter, group_filter]
  unfold buildLiquidity materialize
  rw [group_overwritten]
  split
  · exact List.Perm.refl _
  · next hne =>
      -- the run has rows of the date, so the date is inside the window
      have hin : inLookback vars now d = true := by
        obtain ⟨l, hl⟩ := List.exists_mem_of_ne_nil _ hne
        obtain ⟨hl, hd⟩ := mem_group.mp hl
        rw [← hd]
        exact (List.mem_filter.mp (hquery.mem_iff.mp hl)).2
      have hall : group Liquidity.eventDate ((fctLiquidity1m book').filter
          fun l => inLookback vars now l.eventDate) d
            = group Liquidity.eventDate (fctLiquidity1m book') d := by
        rw [group_filter]
        refine List.filter_eq_self.mpr fun l hl => ?_
        rw [(mem_group.mp hl).2, hin]
      have hmade : ((group Liquidity.eventDate (fctLiquidity1m (windowed
          vars now true BookRow.eventDate book')) d).filter fun l =>
            l.barStart < cut).Perm ((group Liquidity.eventDate
              (fctLiquidity1m book') d).filter fun l => l.barStart < cut) := by
        rw [← hall]
        exact (hquery.filter _).filter _
      have hpast : ((group Liquidity.eventDate (fctLiquidity1m book')
          d).filter fun l => l.barStart < cut).Perm
            ((group Liquidity.eventDate (fctLiquidity1m book) d).filter
              fun l => l.barStart < cut) := by
        rw [← group_filter, ← group_filter]
        exact hclosed.filter _
      exact hmade.trans (hpast.trans ((ht d hin).symm.filter _))

end Liquidity

-- ============================================================== the result

/-- The raw table of a build, and of a later build that sees more
messages, all received in minutes from the cut on. -/
structure Grown (vars : Vars) (cut now now' : Int)
    (rows rows' more : List RawL2) : Prop where
  window : ∀ r ∈ rows, rawPartitionFilter vars now r.partitionTime
  window' : ∀ r ∈ rows', rawPartitionFilter vars now' r.partitionTime
  /-- Rows may have got their partitions meanwhile, and lie in any
  order. -/
  grown : (rows'.map RawL2.message).Perm
    ((rows ++ more).map RawL2.message)
  later : ∀ r ∈ more, ∀ t ∈ r.ingestTime.instant, cut ≤ truncate minute t

section Grown

variable {vars : Vars} {now now' : Int} {rows rows' more : List RawL2}
  {es es' : List StgL2Event}

/-- The staged rows of the later build are those of the former and those
of the messages that came. -/
theorem staged_grown (h : Grown vars cut now now' rows rows' more)
    (hes : stgL2Events vars now rows = some es)
    (hes' : stgL2Events vars now' rows' = some es') :
    (∀ r ∈ more, (stgL2Row r).isSome)
      ∧ es'.Perm (es ++ (more.filterMap stgL2Row).flatten) := by
  obtain ⟨-, rfl⟩ := (stgL2Events_eq_some_iff h.window).mp hes
  obtain ⟨hsome, rfl⟩ := (stgL2Events_eq_some_iff h.window').mp hes'
  have hmessages : ∀ rs : List RawL2,
      rs.filterMap stgL2Row = (rs.map RawL2.message).filterMap stgL2Row := by
    intro rs
    rw [List.filterMap_map]
    rfl
  constructor
  · intro r hr
    have hmem : r.message ∈ rows'.map RawL2.message :=
      h.grown.mem_iff.mpr
        (List.mem_map_of_mem (List.mem_append_right rows hr))
    obtain ⟨r', hr', heq⟩ := List.mem_map.mp hmem
    rw [← stgL2Row_message r, ← heq, stgL2Row_message]
    exact hsome r' hr'
  · rw [hmessages rows', ← List.flatten_append, ← List.filterMap_append,
      hmessages (rows ++ more)]
    exact (h.grown.filterMap _).flatten

/-- The closed minutes of the book, and of `fct_liquidity_1m` under an
incremental run, are the same after more messages and for every two
engines exactly when no product that has a new snapshot level had a row
of a closed minute, and no tie of the closed minutes is left to the
engine.

The rows before the cut are settled first (`closed_rows_iff`); the books
of a minute hold each row once, so that the same rows are the same books,
and the table is made of them minute by minute. -/
theorem closed_liquidity_stable_iff
    (h : Grown vars cut now now' rows rows' more)
    (hes : stgL2Events vars now rows = some es)
    (hes' : stgL2Events vars now' rows' = some es') :
    (∀ E E' : Engine,
      (∀ r : BookRow, r.eventMinute < cut →
        (r ∈ intBookState1m E' es' ↔ r ∈ intBookState1m E es))
      ∧ ∀ t, Current vars now' (intBookState1m E es) t →
        ((buildLiquidity vars now' false (intBookState1m E' es')
            (some t)).filter fun l => l.barStart < cut).Perm
          (t.filter fun l => l.barStart < cut))
      ↔ (∀ r ∈ more, r.eventType = "snapshot" → stgL2Row r ≠ some [] →
          ∀ E, ∀ b ∈ intBookState1m E es, b.productId = r.productId →
            cut ≤ b.eventMinute)
        ∧ TiesSettled (closed cut (relevant (bookEvents es))) := by
  obtain ⟨hsome, hperm⟩ := staged_grown h hes hes'
  have hmem : ∀ e, e ∈ (more.filterMap stgL2Row).flatten
      ↔ ∃ r ∈ more, ∃ ls, stgL2Row r = some ls ∧ e ∈ ls := by
    intro e
    simp only [List.mem_flatten, List.mem_filterMap]
    tauto
  have hlater : ∀ e ∈ (more.filterMap stgL2Row).flatten,
      cut ≤ truncate minute e.ingestTime := by
    intro e he
    obtain ⟨r, hr, ls, hls, he⟩ := (hmem e).mp he
    exact h.later r hr _ (of_mem_row hls he).2.2.1
  have hrows := closed_rows_iff (fun e => hperm.mem_iff) hlater
  have hsnap : (∀ E, ¬ NewSnapshot E cut es (more.filterMap
      stgL2Row).flatten) ↔ ∀ r ∈ more, r.eventType = "snapshot" →
        stgL2Row r ≠ some [] → ∀ E, ∀ b ∈ intBookState1m E es,
          b.productId = r.productId → cut ≤ b.eventMinute := by
    constructor
    · intro hno r hr htype hne E b hb hp
      by_contra hcut
      obtain ⟨ls, hls⟩ := Option.isSome_iff_exists.mp (hsome r hr)
      rw [hls] at hne
      obtain ⟨e, he⟩ := List.exists_mem_of_ne_nil ls fun hnil =>
        hne (congrArg some hnil)
      obtain ⟨hep, het, -⟩ := of_mem_row hls he
      exact hno E ⟨e, (hmem e).mpr ⟨r, hr, ls, hls, he⟩, het.trans htype,
        b, hb, hp.trans hep.symm, not_le.mp hcut⟩
    · rintro hquiet E ⟨e, he, htype, b, hb, hp, hcut⟩
      obtain ⟨r, hr, ls, hls, he⟩ := (hmem e).mp he
      obtain ⟨hep, het, -⟩ := of_mem_row hls he
      have hne : stgL2Row r ≠ some [] := by
        rw [hls]
        rintro hnil
        rw [Option.some.inj hnil] at he
        cases he
      exact absurd (hquiet r hr (het.symm.trans htype) hne E b hb
        (hp.trans hep)) (not_le.mpr hcut)
  rw [← hsnap, ← hrows]
  constructor
  · exact fun hx E E' => (hx E E').1
  · intro hsame E E'
    have hnodup : ∀ E es g,
        (group BookRow.gridKey (intBookState1m E es) g).Nodup :=
      fun E es g => nodup_group_reconstruct (List.nodup_dedup _)
    refine ⟨hsame E E', fun t ht => buildLiquidity_closed
      (fun r hr => eventDate_of_mem_reconstruct hr) (fun g hg => ?_) ht⟩
    refine (List.perm_ext_iff_of_nodup (hnodup E' _ g)
      (hnodup E _ g)).mpr fun r => ?_
    by_cases hr : r.gridKey = g
    · subst hr
      simpa only [mem_group, and_true] using hsame E E' r hg
    · simp only [mem_group, hr, and_false]

end Grown

/-- A book of one minute. -/
def quietMinute : List RawL2 := [
  btcRow "snapshot" ("\x7b\"bids\": [[\"100\", \"1\"]], "
    ++ "\"asks\": [[\"101\", \"2\"]]\x7d") 0]

/-- An update, a minute later. -/
def nextUpdate : List RawL2 := [
  btcRow "l2update" "\x7b\"changes\": [[\"buy\", \"100.5\", \"3\"]]\x7d"
    60000]

/-- A snapshot after a reconnect, a minute later. -/
def nextSnapshot : List RawL2 := [
  btcRow "snapshot" ("\x7b\"bids\": [[\"100\", \"1\"]], "
    ++ "\"asks\": [[\"101\", \"2\"]]\x7d") 60000]

/-- An update leaves the minute before it as it was, wherever its row
lies. -/
theorem closed_liquidity_stable_update :
    ∃ es es', stgL2Events {} 0 quietMinute = some es
      ∧ stgL2Events {} minute (nextUpdate ++ quietMinute) = some es'
      ∧ ∀ r : BookRow, r.eventMinute < minute →
        (r ∈ intBookState1m Engine.inReverse es'
          ↔ r ∈ intBookState1m Engine.inOrder es) := by
  have hgrown : Grown {} minute 0 minute quietMinute
      (nextUpdate ++ quietMinute) nextUpdate :=
    ⟨by decide, by decide, List.perm_append_comm.map _, by decide +kernel⟩
  have hes : stgL2Events {} 0 quietMinute
      = some ((stgL2Events {} 0 quietMinute).getD []) := by
    decide +kernel
  have hes' : stgL2Events {} minute (nextUpdate ++ quietMinute)
      = some ((stgL2Events {} minute (nextUpdate ++ quietMinute)).getD
        []) := by
    decide +kernel
  refine ⟨_, _, hes, hes', ?_⟩
  refine ((closed_liquidity_stable_iff hgrown hes hes').mpr
    ⟨?_, by decide +kernel⟩ Engine.inOrder Engine.inReverse).1
  intro r hr htype
  rw [List.mem_singleton.mp hr] at htype
  exact absurd htype (by decide)

/-- A reconnect's snapshot takes the minutes before it out of the book,
and out of `fct_liquidity_1m`. -/
theorem reconnect_drops_closed_minutes :
    ∃ es es', stgL2Events {} 0 quietMinute = some es
      ∧ stgL2Events {} minute (quietMinute ++ nextSnapshot) = some es'
      ∧ ((intBookState1m Engine.inOrder es).map BookRow.eventMinute
        = [0, 0])
      ∧ ((intBookState1m Engine.inOrder es').map BookRow.eventMinute
        = [minute, minute])
      ∧ ((fctLiquidity1m (intBookState1m Engine.inOrder es)).map
        Liquidity.barStart = [0])
      ∧ ((buildLiquidity {} minute false (intBookState1m Engine.inOrder es')
        (some (fctLiquidity1m (intBookState1m Engine.inOrder es)))).map
          Liquidity.barStart = [minute]) := by
  refine ⟨(stgL2Events {} 0 quietMinute).getD [],
    (stgL2Events {} minute (quietMinute ++ nextSnapshot)).getD [], ?_⟩
  decide +kernel

end MarketPlatform.Warehouse
