/-
What the backfill publishes.

# The exchange and its API

The exchange is a list of trades; `Reports` says that a JSON value, a
feed message or an entry of a page, gives the fields of one of them, and
`RestApi` is the API's documented behaviour: a page below a cursor holds
trades of the product below it, the newest of them, and is empty only
when there are none. Nothing is said about how many there are on a page.

# The loop

The invariant of the loop is `Collected`: what is collected is wanted
and reported, and every wanted trade at or above the cursor is there.
One page moves the cursor down to its least id, and leaves nothing out
on the way, because a trade below the cursor that is not on the page is
below all of it (`collected_addPage`). Under it the loop ends with every
trade of the gap (`collect_complete`): the cursor goes down with each
page, which bounds the pages by the ids above the gap's start. So
`backfill` publishes a copy of each and of nothing else
(`backfill_publishes`).

# Times

Both paths read the same time texts (`parseTime_of_utcText`,
`timestamp_of_utcText`): the handlers through Python's reader, after the
`Z` was replaced by an offset, the backfill by replacing an offset by a
`Z`. Either replacement changes the zone only, and the zone is UTC.
-/
import MarketPlatform.Proofs.Handling
import MarketPlatform.Scripts.Backfill

namespace MarketPlatform.Scripts

open Lib Lib.Rfc3339 Lib.Numeral Lib.Relation Consumer
  Consumer.MessageHandler

-- ============================================================== time texts

/-- The zone that Python writes for UTC. -/
def utcOffset : List Char := ['+', '0', '0', ':', '0', '0']

/-- An RFC 3339 text in UTC, and its instant. -/
def UtcText (text : String) (time : Int) : Prop :=
  ∃ t, scan text.toList = some t ∧ (t.zone = ['Z'] ∨ t.zone = utcOffset)
    ∧ time = t.seconds * second + micros t.fraction

/-- The consumer reads the instant of a text in UTC. -/
theorem parseTime_of_utcText {text : String} {time : Int}
    (h : UtcText text time) : parseTime (.str text) = .ok ⟨time, true⟩ := by
  obtain ⟨t, hscan, hzone, rfl⟩ := h
  obtain ⟨civil, htext, hinner, hrest⟩ := scan_split hscan
  have hreplaced : replaceZ text.toList = civil ++ utcOffset := by
    rw [htext, replaceZ_append, replaceZ_of_ne fun c hc => (hinner c hc).1]
    rcases hzone with hz | hz
    · rw [hz]
      rfl
    · rw [hz]
      rfl
  have hopens : Opens utcOffset := ⟨by decide, by decide⟩
  show fromisoformat (replaceZ text.toList) = _
  rw [hreplaced, fromisoformat, hrest utcOffset hopens]
  have hoffset : offset utcOffset = some 0 := by decide
  have hne : utcOffset ≠ [] := by decide
  simp only [hne, if_false, hoffset, sub_zero]

/-- Characters that write no zone are copied. -/
theorem replaceUtc_append {cs : List Char} (h : ∀ c ∈ cs, Inner c)
    (ds : List Char) : replaceUtc (cs ++ ds) = cs ++ replaceUtc ds := by
  induction cs with
  | nil => rfl
  | cons c cs ih =>
      obtain ⟨hc, hcs⟩ := List.forall_mem_cons.mp h
      have hcons : ∀ rest, replaceUtc (c :: rest) = c :: replaceUtc rest := by
        intro rest
        rw [replaceUtc]
        exact fun _ hplus => absurd hplus hc.2
      rw [List.cons_append, hcons, ih hcs, List.cons_append]

/-- The warehouse reads the instant of a backfilled text, unless its
fraction is too long for it. -/
theorem timestamp_of_utcText {text : String} {time t' : Int}
    (h : UtcText text time) (ht' : timestamp (eventTimeOf text) = some t') :
    t' = time := by
  obtain ⟨t, hscan, hzone, rfl⟩ := h
  obtain ⟨civil, htext, hinner, hrest⟩ := scan_split hscan
  have hreplaced : replaceUtc text.toList = civil ++ ['Z'] := by
    rw [htext, replaceUtc_append hinner]
    rcases hzone with hz | hz
    · rw [hz]
      rfl
    · rw [hz]
      rfl
  have htime : (eventTimeOf text).toList = civil ++ ['Z'] := by
    simp [eventTimeOf, hreplaced]
  have hopens : Opens ['Z'] := ⟨by decide, by decide⟩
  have hoffset : offset ['Z'] = some 0 := rfl
  rw [timestamp, htime, hrest ['Z'] hopens] at ht'
  by_cases hlen : 6 < t.fraction.length
  · simp [hlen] at ht'
  · simp only [hlen, if_false, List.cons_ne_nil, hoffset, Option.map_some,
      sub_zero, Option.some.injEq] at ht'
    exact ht'.symm

-- ============================================================ the exchange

/-- A trade as the exchange produced it; its time is in microseconds. -/
structure ExchangeTrade where
  productId : String
  tradeId : Int
  price : String
  size : String
  side : String
  time : Int
  deriving DecidableEq

/-- What tells the trades apart. -/
def ExchangeTrade.key (x : ExchangeTrade) : Int × String :=
  (x.tradeId, x.productId)

/-- A JSON value gives the fields of a trade. -/
structure Reports (x : ExchangeTrade) (trade : Json) : Prop where
  tradeId : tradeIdOf trade = .ok x.tradeId
  price : (item trade "price").map pyStr = .ok x.price
  size : (item trade "size").map pyStr = .ok x.size
  side : (item trade "side").map pyStr = .ok x.side
  time : ∃ text, item trade "time" = .ok (.str text) ∧ UtcText text x.time

/-- The REST API: a page holds trades of the product below the cursor, the
newest first, and as long as there are any. -/
structure RestApi (xs : List ExchangeTrade)
    (fetchPage : String → Int → List Json) : Prop where
  reports : ∀ p cursor, ∀ trade ∈ fetchPage p cursor,
    ∃ x ∈ xs, x.productId = p ∧ x.tradeId < cursor ∧ Reports x trade
  newest : ∀ p cursor, ∀ x ∈ xs, x.productId = p → x.tradeId < cursor →
    fetchPage p cursor ≠ []
      ∧ ((∃ trade ∈ fetchPage p cursor, tradeIdOf trade = .ok x.tradeId)
        ∨ ∀ trade ∈ fetchPage p cursor, ∀ tid,
          tradeIdOf trade = .ok tid → x.tradeId < tid)

/-- The trade is in the gap. -/
def Args.gap (args : Args) (x : ExchangeTrade) : Prop :=
  x.productId = args.product ∧ args.wanted x.tradeId = true

/-- A published record is a backfilled copy of a trade. -/
structure Backfilled (x : ExchangeTrade) (m : Trade) : Prop where
  productId : m.productId = x.productId
  tradeId : m.tradeId = x.tradeId
  price : m.price = x.price
  size : m.size = x.size
  side : m.side = x.side
  eventTime : ∀ t, m.eventTime.instant = some t → t = x.time

/-- The payload of a reported trade. -/
theorem toTopicPayload_ok {x : ExchangeTrade} {trade : Json}
    (h : Reports x trade) (now : Int) :
    ∃ m, toTopicPayload now trade x.productId = .ok m ∧ Backfilled x m := by
  obtain ⟨text, htext, hutc⟩ := h.time
  have htime : (item trade "time" >>= asText) = .ok text := by
    rw [htext]
    rfl
  have hid : (item trade "trade_id" >>= pyInt) = .ok x.tradeId := h.tradeId
  have hpayload : toTopicPayload now trade x.productId = .ok {
      sequence := 0, productId := x.productId, tradeId := x.tradeId,
      price := x.price, size := x.size, side := x.side, makerOrderId := "",
      takerOrderId := "", eventTime := .other (eventTimeOf text),
      ingestTime := iso now } := by
    simp only [toTopicPayload, htime, hid, h.price, h.size, h.side]
    rfl
  exact ⟨_, hpayload, rfl, rfl, rfl, rfl, rfl,
    fun t ht => timestamp_of_utcText hutc ht⟩

-- ================================================================== pages

/-- A field of every entry of a page, when every entry has it. -/
theorem mapM_ok {α β : Type} {f : α → Py β} (rows : List α)
    (h : ∀ r ∈ rows, ∃ b, f r = .ok b) :
    ∃ out, rows.mapM f = .ok out
      ∧ List.Forall₂ (fun r b => f r = .ok b) rows out := by
  induction rows with
  | nil => exact ⟨[], rfl, .nil⟩
  | cons r rows ih =>
      obtain ⟨hr, hrows⟩ := List.forall_mem_cons.mp h
      obtain ⟨b, hb⟩ := hr
      obtain ⟨out, hout, hall⟩ := ih hrows
      refine ⟨b :: out, ?_, .cons hb hall⟩
      rw [List.mapM_cons, hb, hout]
      rfl

section Forall

variable {α β : Type} {R : α → β → Prop} {rows : List α} {out : List β}

/-- What is on the right has a partner on the left. -/
theorem exists_of_mem_right (h : List.Forall₂ R rows out) {b : β}
    (hb : b ∈ out) : ∃ a ∈ rows, R a b := by
  induction h with
  | nil => cases hb
  | cons hr _ ih =>
      rcases List.mem_cons.mp hb with rfl | hb
      · exact ⟨_, List.mem_cons_self, hr⟩
      · obtain ⟨a, ha, hab⟩ := ih hb
        exact ⟨a, List.mem_cons_of_mem _ ha, hab⟩

/-- What is on the left has a partner on the right. -/
theorem exists_of_mem_left (h : List.Forall₂ R rows out) {a : α}
    (ha : a ∈ rows) : ∃ b ∈ out, R a b := by
  induction h with
  | nil => cases ha
  | cons hr _ ih =>
      rcases List.mem_cons.mp ha with rfl | ha
      · exact ⟨_, List.mem_cons_self, hr⟩
      · obtain ⟨b, hb, hab⟩ := ih ha
        exact ⟨b, List.mem_cons_of_mem _ hb, hab⟩

end Forall

/-- The ids of a page, paired with their entries. -/
theorem mem_zip_ids {page : List Json} {ids : List Int}
    (h : List.Forall₂ (fun t i => tradeIdOf t = .ok i) page ids)
    {e : Int × Json} :
    e ∈ ids.zip page ↔ e.2 ∈ page ∧ tradeIdOf e.2 = .ok e.1 := by
  obtain ⟨i, t⟩ := e
  induction h with
  | nil => simp
  | cons ht _ ih =>
      rw [List.zip_cons_cons, List.mem_cons, ih, List.mem_cons,
        Prod.mk.injEq]
      constructor
      · rintro (⟨rfl, rfl⟩ | ⟨hmem, hid⟩)
        · exact ⟨Or.inl rfl, ht⟩
        · exact ⟨Or.inr hmem, hid⟩
      · intro hx
        obtain ⟨rfl | hmem, hid⟩ := hx
        · exact Or.inl ⟨Except.ok.inj (hid.symm.trans ht), rfl⟩
        · exact Or.inr ⟨hmem, hid⟩

/-- The range is what is wanted. -/
theorem mem_range {args : Args} {tid : Int} :
    tid ∈ args.range ↔ args.wanted tid = true := by
  simp only [Args.range, Args.wanted, List.mem_map, List.mem_range,
    Bool.and_eq_true, decide_eq_true_eq]
  constructor
  · intro h
    obtain ⟨i, hi, rfl⟩ := h
    omega
  · intro h
    obtain ⟨hafter, hbefore⟩ := h
    exact ⟨(tid - args.after - 1).toNat, by omega, by omega⟩

section Collected

variable {args : Args} {collected page : List (Int × Json)}

/-- An entry after an assignment is the new one, or was there. -/
theorem mem_put {tid : Int} {trade : Json} {e : Int × Json}
    (h : e ∈ put tid trade collected) : e = (tid, trade) ∨ e ∈ collected := by
  induction collected with
  | nil => exact Or.inl (List.mem_singleton.mp h)
  | cons c cs ih =>
      unfold put at h
      split at h
      · rcases List.mem_cons.mp h with rfl | h
        · exact Or.inl rfl
        · exact Or.inr (List.mem_cons_of_mem c h)
      · rcases List.mem_cons.mp h with rfl | h
        · exact Or.inr List.mem_cons_self
        · exact (ih h).imp_right (List.mem_cons_of_mem c)

/-- The keys after an assignment. -/
theorem mem_keys_put {tid i : Int} {trade : Json} :
    i ∈ (put tid trade collected).map Prod.fst
      ↔ i = tid ∨ i ∈ collected.map Prod.fst := by
  induction collected with
  | nil => simp [put]
  | cons c cs ih =>
      unfold put
      split
      · next hc =>
          simp only [List.map_cons, List.mem_cons, hc]
          tauto
      · simp only [List.map_cons, List.mem_cons, ih]
        tauto

/-- What is collected was there, or is a wanted entry of the page. -/
theorem mem_addPage {e : Int × Json} (h : e ∈ addPage args page collected) :
    e ∈ collected ∨ e ∈ page ∧ args.wanted e.1 = true := by
  induction page generalizing collected with
  | nil => exact Or.inl h
  | cons t ts ih =>
      unfold addPage at h
      rw [List.foldl_cons] at h
      rcases ih h with h | ⟨h, hw⟩
      · split at h
        · next hw =>
            rcases mem_put h with rfl | h
            · exact Or.inr ⟨List.mem_cons_self, hw⟩
            · exact Or.inl h
        · exact Or.inl h
      · exact Or.inr ⟨List.mem_cons_of_mem t h, hw⟩

/-- Every wanted id of a page is collected. -/
theorem mem_keys_addPage {i : Int}
    (h : i ∈ collected.map Prod.fst
      ∨ i ∈ page.map Prod.fst ∧ args.wanted i = true) :
    i ∈ (addPage args page collected).map Prod.fst := by
  induction page generalizing collected with
  | nil => exact h.resolve_right fun h => by cases h.1
  | cons t ts ih =>
      unfold addPage
      rw [List.foldl_cons]
      refine ih ?_
      rcases h with h | ⟨h, hw⟩
      · left
        split
        · exact mem_keys_put.mpr (Or.inr h)
        · exact h
      · rcases List.mem_cons.mp h with rfl | h
        · left
          rw [if_pos hw]
          exact mem_keys_put.mpr (Or.inl rfl)
        · exact Or.inr ⟨h, hw⟩

end Collected

/-- What the loop has: wanted trades only, and all of those that are not
below the cursor. -/
structure Collected (xs : List ExchangeTrade) (args : Args) (cursor : Int)
    (collected : List (Int × Json)) : Prop where
  sound : ∀ e ∈ collected, args.wanted e.1 = true
    ∧ ∃ x ∈ xs, x.productId = args.product ∧ x.tradeId = e.1
      ∧ Reports x e.2
  complete : ∀ x ∈ xs, x.productId = args.product →
    args.wanted x.tradeId = true → cursor ≤ x.tradeId →
      x.tradeId ∈ collected.map Prod.fst

section Loop

variable {xs : List ExchangeTrade} {fetchPage : String → Int → List Json}
  {args : Args}

/-- From a higher cursor on there is less to have. -/
theorem Collected.mono {cursor cursor' : Int}
    {collected : List (Int × Json)} (hle : cursor ≤ cursor')
    (h : Collected xs args cursor collected) :
    Collected xs args cursor' collected :=
  ⟨h.sound, fun x hx hp hw hc => h.complete x hx hp hw (hle.trans hc)⟩

variable (args) in
/-- The ids of a page are those of trades below the cursor. -/
theorem ids_of_page (api : RestApi xs fetchPage) (cursor : Int) :
    ∃ ids, (fetchPage args.product cursor).mapM tradeIdOf = .ok ids
      ∧ List.Forall₂ (fun t i => tradeIdOf t = .ok i)
          (fetchPage args.product cursor) ids
      ∧ ∀ i ∈ ids, i < cursor := by
  have hpage : ∀ trade ∈ fetchPage args.product cursor,
      ∃ i, tradeIdOf trade = .ok i := by
    intro trade ht
    obtain ⟨x, -, -, -, hx⟩ := api.reports _ _ trade ht
    exact ⟨x.tradeId, hx.tradeId⟩
  obtain ⟨ids, hids, hall⟩ := mapM_ok _ hpage
  refine ⟨ids, hids, hall, fun i hi => ?_⟩
  obtain ⟨trade, ht, hid⟩ := exists_of_mem_right hall hi
  obtain ⟨x, -, -, hlt, hx⟩ := api.reports _ _ trade ht
  obtain rfl := Except.ok.inj (hx.tradeId.symm.trans hid)
  exact hlt

/-- A page moves the cursor down to its lowest id and leaves nothing out
on the way. A trade of the gap below the old cursor is on the page,
unless all of the page is newer, and then it is below the new cursor
too. -/
theorem collected_addPage (api : RestApi xs fetchPage) {cursor low : Int}
    {collected : List (Int × Json)} {ids : List Int}
    (hids : List.Forall₂ (fun t i => tradeIdOf t = .ok i)
      (fetchPage args.product cursor) ids)
    (hlow : minOf ids = some low)
    (h : Collected xs args cursor collected) :
    Collected xs args low (addPage args
      (ids.zip (fetchPage args.product cursor)) collected) where
  sound := fun e he => by
    rcases mem_addPage he with he | ⟨he, hw⟩
    · exact h.sound e he
    · obtain ⟨hpage, hid⟩ := (mem_zip_ids hids).mp he
      obtain ⟨x, hx, hp, -, hreports⟩ := api.reports _ _ e.2 hpage
      have hxe : x.tradeId = e.1 :=
        Except.ok.inj (hreports.tradeId.symm.trans hid)
      exact ⟨hw, x, hx, hp, hxe, hreports⟩
  complete := fun x hx hp hw hc => by
    refine mem_keys_addPage ?_
    by_cases hold : cursor ≤ x.tradeId
    · exact Or.inl (h.complete x hx hp hw hold)
    · refine Or.inr ⟨?_, hw⟩
      rcases (api.newest _ _ x hx hp (not_le.mp hold)).2 with
        ⟨trade, ht, hid⟩ | hall
      · exact List.mem_map.mpr
          ⟨(x.tradeId, trade), (mem_zip_ids hids).mpr ⟨ht, hid⟩, rfl⟩
      · -- every trade of the page is newer, the lowest too
        obtain ⟨trade, ht, hid⟩ :=
          exists_of_mem_right hids (mem_of_minOf hlow)
        exact absurd hc (not_le.mpr (hall trade ht low hid))

/-- With a unit of fuel for each id above the gap's start, the loop ends
with every trade of the gap. By induction on the fuel: each page moves
the cursor down, and where the loop stops for another reason, a full
collection or an empty page, nothing of the gap is left below. -/
theorem collect_complete (api : RestApi xs fetchPage) (fuel : Nat)
    (cursor : Int) (hfuel : (cursor - args.after).toNat < fuel)
    (collected : List (Int × Json))
    (h : Collected xs args cursor collected) :
    ∃ all, collect fetchPage args fuel cursor collected = some (.ok all)
      ∧ Collected xs args args.after all := by
  induction fuel generalizing cursor collected with
  | zero => exact absurd hfuel (Nat.not_lt_zero _)
  | succ fuel ih =>
      unfold collect
      by_cases hun : unfinished args collected = true
      · rw [if_pos hun]
        by_cases hpage : fetchPage args.product cursor = []
        · -- nothing is left below the cursor
          rw [if_pos hpage]
          refine ⟨collected, rfl, h.sound, fun x hx hp hw _ => ?_⟩
          refine h.complete x hx hp hw (not_lt.mp fun hlt => ?_)
          exact (api.newest _ _ x hx hp hlt).1 hpage
        · obtain ⟨ids, hids, hall, hbelow⟩ := ids_of_page args api
            cursor
          obtain ⟨trade, ht⟩ := List.exists_mem_of_ne_nil _ hpage
          obtain ⟨i, hi, -⟩ := exists_of_mem_left hall ht
          obtain ⟨low, hlow⟩ := exists_minOf hi
          have hlt := hbelow low (mem_of_minOf hlow)
          have hnext := collected_addPage api hall hlow h
          rw [if_neg hpage, hids]
          simp only [hlow, Option.getD_some]
          by_cases hend : low ≤ args.after
          · rw [if_pos hend]
            exact ⟨_, rfl, hnext.mono hend⟩
          · rw [if_neg hend]
            exact ih low (by omega) _ hnext
      · rw [if_neg hun]
        refine ⟨collected, rfl, h.sound, fun x hx hp hw _ => ?_⟩
        by_contra hnot
        refine hun (List.any_eq_true.mpr ⟨x.tradeId, mem_range.mpr hw, ?_⟩)
        exact decide_eq_true hnot

/-- What was collected can be sent: the payload of an entry is a copy of a
trade of the gap. -/
theorem Collected.payload {cursor : Int} {collected : List (Int × Json)}
    (h : Collected xs args cursor collected) {e : Int × Json}
    (he : e ∈ collected) (now : Int) :
    ∃ x ∈ xs, args.gap x ∧ x.tradeId = e.1
      ∧ ∃ m, toTopicPayload now e.2 args.product = .ok m ∧ Backfilled x m := by
  obtain ⟨hw, x, hx, hp, hid, hreports⟩ := h.sound e he
  obtain ⟨m, hm, hback⟩ := toTopicPayload_ok hreports now
  exact ⟨x, hx, ⟨hp, hid ▸ hw⟩, hid, m, hp ▸ hm, hback⟩

/-- Nothing of the gap lies above the first cursor. -/
theorem collected_start : Collected xs args (args.before + PAGE_SIZE) [] := by
  refine ⟨by simp, fun x _ _ hw hc => ?_⟩
  simp only [Args.wanted, Bool.and_eq_true, decide_eq_true_eq, PAGE_SIZE]
    at hw hc
  omega

/-- A backfill publishes a copy of each trade of the gap, unless it is a
dry run, and nothing else. The loop has collected the gap
(`collect_complete`), every entry it collected can be made a payload,
and sorting loses none. -/
theorem backfill_publishes (api : RestApi xs fetchPage) (clock : Nat → Int)
    {fuel : Nat}
    (hfuel : (args.before + PAGE_SIZE - args.after).toNat < fuel) :
    ∃ ms, backfill fetchPage clock args fuel = some (.ok ms)
      ∧ (∀ m ∈ ms, ∃ x ∈ xs, args.gap x ∧ Backfilled x m)
      ∧ (args.dryRun = false → ∀ x ∈ xs, args.gap x →
        ∃ m ∈ ms, (m.tradeId, m.productId) = x.key) := by
  unfold backfill
  by_cases hempty : args.range = []
  · rw [if_pos hempty]
    refine ⟨[], rfl, by simp, fun _ x _ hgap => ?_⟩
    have hmem := mem_range.mpr hgap.2
    rw [hempty] at hmem
    cases hmem
  · obtain ⟨all, hall, hcollected⟩ := collect_complete api fuel _ hfuel []
      collected_start
    let sorted := (all.insertionSort fun a b => a.1 ≤ b.1).zipIdx
    have hmem : ∀ r ∈ sorted, r.1 ∈ all := fun r hr =>
      (List.mem_insertionSort _).mp
        (List.mem_of_getElem? (List.mk_mem_zipIdx_iff_getElem?.mp hr))
    obtain ⟨ms, hms, hrows⟩ := mapM_ok (f := fun r =>
      toTopicPayload (clock r.2) r.1.2 args.product) sorted fun r hr => by
        obtain ⟨-, -, -, -, m, hm, -⟩ :=
          hcollected.payload (hmem r hr) (clock r.2)
        exact ⟨m, hm⟩
    have hcopy : ∀ r ∈ sorted, ∀ m, toTopicPayload (clock r.2) r.1.2
        args.product = .ok m →
          ∃ x ∈ xs, args.gap x ∧ x.tradeId = r.1.1 ∧ Backfilled x m := by
      intro r hr m hm
      obtain ⟨x, hx, hgap, hid, m', hm', hback⟩ :=
        hcollected.payload (hmem r hr) (clock r.2)
      rw [hm] at hm'
      obtain rfl := Except.ok.inj hm'
      exact ⟨x, hx, hgap, hid, hback⟩
    rw [if_neg hempty, hall, Option.map_some, ok_bind]
    by_cases hdry : args.dryRun = true
    · rw [if_pos hdry]
      refine ⟨[], rfl, by simp, fun hlive => ?_⟩
      rw [hlive] at hdry
      cases hdry
    rw [if_neg hdry]
    refine ⟨ms, congrArg some hms, fun m hm => ?_, fun _ x hx hgap => ?_⟩
    · obtain ⟨r, hr, hm⟩ := exists_of_mem_right hrows hm
      obtain ⟨x, hx, hgap, -, hback⟩ := hcopy r hr m hm
      exact ⟨x, hx, hgap, hback⟩
    · have hw := hgap.2
      have hkey : x.tradeId ∈ all.map Prod.fst := by
        refine hcollected.complete x hx hgap.1 hw ?_
        simp only [Args.wanted, Bool.and_eq_true, decide_eq_true_eq] at hw
        omega
      obtain ⟨e, he, hid⟩ := List.mem_map.mp hkey
      have hin : e ∈ all.insertionSort fun a b => a.1 ≤ b.1 :=
        (List.mem_insertionSort _).mpr he
      obtain ⟨i, hi⟩ := List.getElem?_of_mem hin
      have hi' : (e, i) ∈ sorted := List.mk_mem_zipIdx_iff_getElem?.mpr hi
      obtain ⟨m, hm, hof⟩ := exists_of_mem_left hrows hi'
      obtain ⟨x', -, hgap', hid', hback⟩ := hcopy _ hi' m hof
      refine ⟨m, hm, Prod.ext ?_ ?_⟩
      · show m.tradeId = x.tradeId
        rw [hback.tradeId, hid', hid]
      · show m.productId = x.productId
        rw [hback.productId, hgap'.1, hgap.1]

end Loop

end MarketPlatform.Scripts
