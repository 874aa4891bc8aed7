/-
The loop over pages, exactly.

`backfill` walks back through the exchange's trades a page at a time. A
page is the newest 1000 trades below the cursor; the loop keeps those of
the gap, moves the cursor to the lowest id it has seen, and stops when
the page is empty, when the cursor is past the gap, or when it has
everything. The ids of a product need not be consecutive: an id of the
range that no trade has is never found, and then the second test of the
loop never succeeds.

# One page

A page reaches down to its lowest id without a hole
(`mem_newestBelow_of_le`): a trade between that id and the cursor is on
the page too. And a page is empty only where no trade is left below the
cursor.

# The invariant

`Exact`: what the loop has is every wanted trade that is not below the
cursor, once, and no other. A page keeps it (`Exact.addPage`), because
its ids are all below the old cursor, hence new, and because it has no
hole above the new one. Each of the three ways out leaves nothing wanted
below the cursor, so that on leaving the loop has the whole gap
(`collect_exact`).

The cursor falls with every page, so the loop ends: the pages are
bounded by the distance from the first cursor to the start of the gap.
The loop has a fuel for it, and the theorem asks for one more than that
distance.

# What is sent

The collected trades are sorted by id and published one by one. The
result is stated of the ids of the calls and of the payload of each
(`backfill_exact`): the ids of the gap in ascending order, and for each
of them the record made of the endpoint's own entry.
-/
import Mathlib.Data.Finset.Sort
import MarketPlatform.Proofs.Backfill

namespace MarketPlatform.Scripts

open Lib Lib.Relation Consumer

-- ============================================================ the endpoint

local instance pageOrder : PartialOrder Int :=
  Int.instLinearOrder.toPartialOrder

local instance pagePreorder : Preorder Int := Int.instLinearOrder.toPreorder

/-- The ids of a page: the newest below a cursor, newest first. -/
def newestBelow (existing : Finset Int) (cursor : Int) : List Int :=
  ((existing.filter fun i => i < cursor).sort (· ≥ ·)).take 1000

/-- The endpoint of a product whose trades are `entry i`, for the ids
`existing`: a page is that of `newestBelow`, and an entry has the fields
of a trade. -/
structure TradesEndpoint (existing : Finset Int) (entry : Int → Json)
    (product : String) (fetchPage : String → Int → List Json) : Prop where
  page : ∀ cursor,
    fetchPage product cursor = (newestBelow existing cursor).map entry
  tradeId : ∀ i ∈ existing, tradeIdOf (entry i) = .ok i
  time : ∀ i ∈ existing, ∃ text, item (entry i) "time" = .ok (.str text)
  fields : ∀ i ∈ existing, ∀ key ∈ ["price", "size", "side"],
    ∃ v, item (entry i) key = .ok v

section Page

variable {existing : Finset Int} {cursor i j : Int}

theorem of_mem_newestBelow (h : i ∈ newestBelow existing cursor) :
    i ∈ existing ∧ i < cursor := by
  have hmem := List.mem_of_mem_take h
  rw [Finset.mem_sort, Finset.mem_filter] at hmem
  exact hmem

theorem nodup_newestBelow : (newestBelow existing cursor).Nodup :=
  (Finset.sort_nodup _ _).sublist (List.take_sublist _ _)

/-- A page has no hole above its ids. -/
theorem mem_newestBelow_of_le (hj : j ∈ newestBelow existing cursor)
    (hi : i ∈ existing) (hlt : i < cursor) (hle : j ≤ i) :
    i ∈ newestBelow existing cursor := by
  unfold newestBelow at hj ⊢
  have hmem : i ∈ (existing.filter fun i => i < cursor).sort (· ≥ ·) := by
    rw [Finset.mem_sort, Finset.mem_filter]
    exact ⟨hi, hlt⟩
  have hsorted := (existing.filter fun i => i < cursor).sortedGT_sort.pairwise
  rw [← List.take_append_drop 1000
    ((existing.filter fun i => i < cursor).sort (· ≥ ·))] at hmem hsorted
  rcases List.mem_append.mp hmem with hmem | hmem
  · exact hmem
  · -- what the page leaves out is below all of it
    have hbelow := (List.pairwise_append.mp hsorted).2.2 j hj i hmem
    omega

/-- A page is empty only where nothing is left. -/
theorem newestBelow_ne_nil (hi : i ∈ existing) (hlt : i < cursor) :
    newestBelow existing cursor ≠ [] := by
  unfold newestBelow
  intro hnil
  rcases List.take_eq_nil_iff.mp hnil with h | h
  · cases h
  · have hmem : i ∈ (existing.filter fun i => i < cursor).sort (· ≥ ·) := by
      rw [Finset.mem_sort, Finset.mem_filter]
      exact ⟨hi, hlt⟩
    rw [h] at hmem
    cases hmem

end Page

-- =============================================================== one page

section Fresh

variable {args : Args} {collected page : List (Int × Json)}

theorem put_of_notMem {tid : Int} {trade : Json}
    (h : tid ∉ collected.map Prod.fst) :
    put tid trade collected = collected ++ [(tid, trade)] := by
  induction collected with
  | nil => rfl
  | cons c cs ih =>
      rw [List.map_cons, List.mem_cons, not_or] at h
      unfold put
      rw [if_neg (Ne.symm h.1), ih h.2]
      rfl

/-- A page of new ids is added entry by entry. -/
theorem addPage_of_fresh (hnodup : (page.map Prod.fst).Nodup)
    (hfresh : ∀ e ∈ page, e.1 ∉ collected.map Prod.fst) :
    addPage args page collected
      = collected ++ page.filter fun e => args.wanted e.1 := by
  induction page generalizing collected with
  | nil => exact (List.append_nil collected).symm
  | cons e page ih =>
      obtain ⟨he, hpage⟩ := List.forall_mem_cons.mp hfresh
      rw [List.map_cons, List.nodup_cons] at hnodup
      unfold addPage at ih ⊢
      rw [List.foldl_cons]
      by_cases hw : args.wanted e.1 = true
      · rw [if_pos hw, put_of_notMem he, ih hnodup.2, List.filter_cons,
          if_pos hw, List.append_assoc]
        · rfl
        · intro e' he'
          rw [List.map_append, List.mem_append, not_or]
          refine ⟨hpage e' he', fun heq => ?_⟩
          rw [List.map_singleton, List.mem_singleton] at heq
          exact hnodup.1 (heq ▸ List.mem_map_of_mem he')
      · rw [if_neg hw, ih hnodup.2 hpage, List.filter_cons, if_neg hw]

end Fresh

-- =============================================================== the loop

/-- What the loop has at a cursor: the wanted trades that are not below
it, each once. -/
structure Exact (existing : Finset Int) (entry : Int → Json) (args : Args)
    (cursor : Int) (collected : List (Int × Json)) : Prop where
  nodup : (collected.map Prod.fst).Nodup
  mem : ∀ e, e ∈ collected ↔ e.1 ∈ existing ∧ args.wanted e.1 = true
    ∧ cursor ≤ e.1 ∧ e.2 = entry e.1

section Loop

variable {existing : Finset Int} {entry : Int → Json}
  {fetchPage : String → Int → List Json} {args : Args}
  {cursor cursor' : Int} {collected : List (Int × Json)}

/-- Nothing wanted lies between two cursors. -/
theorem Exact.congr (h : Exact existing entry args cursor collected)
    (hnone : ∀ i ∈ existing, args.wanted i = true →
      (cursor ≤ i ↔ cursor' ≤ i)) :
    Exact existing entry args cursor' collected where
  nodup := h.nodup
  mem := fun e => by
    rw [h.mem]
    constructor
    · intro he
      obtain ⟨hi, hw, hc, heq⟩ := he
      exact ⟨hi, hw, (hnone e.1 hi hw).mp hc, heq⟩
    · intro he
      obtain ⟨hi, hw, hc, heq⟩ := he
      exact ⟨hi, hw, (hnone e.1 hi hw).mpr hc, heq⟩

theorem exact_start :
    Exact existing entry args (args.before + PAGE_SIZE) [] where
  nodup := List.nodup_nil
  mem := fun e => by
    simp only [List.not_mem_nil, Args.wanted, Bool.and_eq_true,
      decide_eq_true_eq, PAGE_SIZE, false_iff]
    omega

/-- A page moves the cursor down to its lowest id. -/
theorem Exact.addPage (h : Exact existing entry args cursor collected)
    {low : Int} (hlow : minOf (newestBelow existing cursor) = some low) :
    Exact existing entry args low (addPage args
      ((newestBelow existing cursor).zip
        ((newestBelow existing cursor).map entry)) collected) := by
  have hlowmem := mem_of_minOf hlow
  have hle : ∀ i ∈ newestBelow existing cursor, low ≤ i := fun i hi =>
    (minOf_eq_some_iff.mp hlow).2 i hi
  have hzip : (newestBelow existing cursor).zip
      ((newestBelow existing cursor).map entry)
      = (newestBelow existing cursor).map fun i => (i, entry i) := by
    generalize newestBelow existing cursor = ids
    induction ids with
    | nil => rfl
    | cons i ids ih => rw [List.map_cons, List.zip_cons_cons, ih, List.map_cons]
  have hkeys : ((newestBelow existing cursor).map fun i => (i, entry i)).map
      Prod.fst = newestBelow existing cursor := by
    rw [List.map_map]
    exact List.map_id _
  have hfresh : ∀ e ∈ (newestBelow existing cursor).map fun i =>
      (i, entry i), e.1 ∉ collected.map Prod.fst := by
    intro e he hmem
    obtain ⟨i, hi, rfl⟩ := List.mem_map.mp he
    obtain ⟨e', he', heq⟩ := List.mem_map.mp hmem
    obtain ⟨-, -, hc, -⟩ := (h.mem e').mp he'
    have hlt := (of_mem_newestBelow hi).2
    simp only at heq
    omega
  rw [hzip, addPage_of_fresh (hkeys.symm ▸ nodup_newestBelow) hfresh]
  constructor
  · rw [List.map_append, List.nodup_append]
    refine ⟨h.nodup, ?_, ?_⟩
    · have hsub := (List.filter_sublist (l := (newestBelow existing
        cursor).map fun i => (i, entry i))
        (p := fun e => args.wanted e.1)).map Prod.fst
      rw [hkeys] at hsub
      exact nodup_newestBelow.sublist hsub
    · intro a ha b hb heq
      obtain ⟨e, he, rfl⟩ := List.mem_map.mp hb
      exact hfresh e (List.mem_of_mem_filter he) (heq ▸ ha)
  · intro e
    rw [List.mem_append, h.mem, List.mem_filter, List.mem_map]
    constructor
    · intro he
      rcases he with ⟨hi, hw, hc, heq⟩ | ⟨⟨i, hi, rfl⟩, hw⟩
      · refine ⟨hi, hw, ?_, heq⟩
        have hlt := (of_mem_newestBelow hlowmem).2
        omega
      · exact ⟨(of_mem_newestBelow hi).1, hw, hle i hi, rfl⟩
    · intro he
      obtain ⟨hi, hw, hc, heq⟩ := he
      by_cases hold : cursor ≤ e.1
      · exact Or.inl ⟨hi, hw, hold, heq⟩
      · refine Or.inr ⟨⟨e.1, ?_, Prod.ext rfl heq.symm⟩, hw⟩
        exact mem_newestBelow_of_le hlowmem hi (not_le.mp hold) hc

theorem ids_of_newestBelow
    (api : TradesEndpoint existing entry args.product fetchPage) :
    (fetchPage args.product cursor).mapM tradeIdOf
      = .ok (newestBelow existing cursor) := by
  have hids : ∀ i ∈ newestBelow existing cursor,
      tradeIdOf (entry i) = .ok i := fun i hi =>
    api.tradeId i (of_mem_newestBelow hi).1
  rw [api.page]
  generalize newestBelow existing cursor = ids at hids
  induction ids with
  | nil => rfl
  | cons i ids ih =>
      obtain ⟨hi, hids⟩ := List.forall_mem_cons.mp hids
      rw [List.map_cons, List.mapM_cons, hi, ih hids]
      rfl

/-- With a unit of fuel for each id above the gap's start, the loop ends
with the wanted trades, each once. By induction on the fuel, with a case
for each way out and one for the next page. -/
theorem collect_exact
    (api : TradesEndpoint existing entry args.product fetchPage) (fuel : Nat)
    (cursor : Int) (hfuel : (cursor - args.after).toNat < fuel)
    (collected : List (Int × Json))
    (h : Exact existing entry args cursor collected) :
    ∃ all, collect fetchPage args fuel cursor collected = some (.ok all)
      ∧ Exact existing entry args args.after all := by
  have hafter : ∀ {i : Int}, args.wanted i = true → args.after ≤ i := by
    intro i hw
    simp only [Args.wanted, Bool.and_eq_true, decide_eq_true_eq] at hw
    omega
  induction fuel generalizing cursor collected with
  | zero => exact absurd hfuel (Nat.not_lt_zero _)
  | succ fuel ih =>
      unfold collect
      by_cases hun : unfinished args collected = true
      · rw [if_pos hun]
        by_cases hpage : fetchPage args.product cursor = []
        · -- the page is empty: nothing is left below the cursor
          rw [if_pos hpage]
          refine ⟨collected, rfl, h.congr fun i hi hw => ?_⟩
          refine iff_of_true (not_lt.mp fun hlt => ?_) (hafter hw)
          rw [api.page, List.map_eq_nil_iff] at hpage
          exact newestBelow_ne_nil hi hlt hpage
        · have hne : newestBelow existing cursor ≠ [] := by
            intro hnil
            rw [api.page, hnil] at hpage
            exact hpage rfl
          obtain ⟨i, hi⟩ := List.exists_mem_of_ne_nil _ hne
          obtain ⟨low, hlow⟩ := exists_minOf hi
          have hlt := (of_mem_newestBelow (mem_of_minOf hlow)).2
          have hnext := h.addPage hlow
          rw [if_neg hpage, ids_of_newestBelow api, api.page]
          simp only [hlow, Option.getD_some]
          by_cases hend : low ≤ args.after
          · -- the cursor is past the range
            rw [if_pos hend]
            refine ⟨_, rfl, hnext.congr fun i _ hw => ?_⟩
            exact iff_of_true (hend.trans (hafter hw)) (hafter hw)
          · rw [if_neg hend]
            exact ih low (by omega) _ hnext
      · -- everything in the range is collected
        rw [if_neg hun]
        refine ⟨collected, rfl, h.congr fun i _ hw => ?_⟩
        refine iff_of_true ?_ (hafter hw)
        by_contra hc
        refine hun (List.any_eq_true.mpr ⟨i, mem_range.mpr hw, ?_⟩)
        rw [decide_eq_true_eq]
        intro hmem
        obtain ⟨e, he, rfl⟩ := List.mem_map.mp hmem
        exact hc ((h.mem e).mp he).2.2.1

end Loop

-- =========================================================== what is sent

section Publish

variable {existing : Finset Int} {entry : Int → Json}
  {fetchPage : String → Int → List Json} {args : Args}

theorem exists_payload
    (api : TradesEndpoint existing entry args.product fetchPage) {i : Int}
    (hi : i ∈ existing) (now : Int) :
    ∃ m, toTopicPayload now (entry i) args.product = .ok m
      ∧ m.tradeId = i := by
  obtain ⟨text, htext⟩ := api.time i hi
  obtain ⟨price, hprice⟩ := api.fields i hi "price" (by simp)
  obtain ⟨size, hsize⟩ := api.fields i hi "size" (by simp)
  obtain ⟨side, hside⟩ := api.fields i hi "side" (by simp)
  have hid : (item (entry i) "trade_id" >>= pyInt) = .ok i := api.tradeId i hi
  have htime : (item (entry i) "time" >>= asText) = .ok text := by
    rw [htext]
    rfl
  unfold toTopicPayload
  rw [htime, hid, hprice, hsize, hside]
  exact ⟨_, rfl, rfl⟩

/-- The payloads of collected trades, in their order. -/
theorem exists_payloads (clock : Nat → Int)
    (api : TradesEndpoint existing entry args.product fetchPage)
    (trades : List (Int × Json))
    (h : ∀ e ∈ trades, e.1 ∈ existing ∧ e.2 = entry e.1) (n : Nat) :
    ∃ ms, (trades.zipIdx n).mapM
        (fun t => toTopicPayload (clock t.2) t.1.2 args.product) = .ok ms
      ∧ ms.map Trade.tradeId = trades.map Prod.fst
      ∧ ∀ m ∈ ms, ∃ now,
        toTopicPayload now (entry m.tradeId) args.product = .ok m := by
  induction trades generalizing n with
  | nil => exact ⟨[], rfl, rfl, by simp⟩
  | cons e trades ih =>
      obtain ⟨⟨hi, heq⟩, htrades⟩ := List.forall_mem_cons.mp h
      obtain ⟨ms, hms, hids, hpayload⟩ := ih htrades (n + 1)
      obtain ⟨m, hm, hid⟩ := exists_payload api hi (clock n)
      refine ⟨m :: ms, ?_, ?_, ?_⟩
      · rw [List.zipIdx_cons, List.mapM_cons, heq, hm, hms]
        rfl
      · rw [List.map_cons, List.map_cons, hid, hids]
      · refine List.forall_mem_cons.mpr ⟨⟨clock n, ?_⟩, hpayload⟩
        rw [hid]
        exact hm

/-- The ids strictly between the ends of the range. -/
def inRange (existing : Finset Int) (args : Args) : Finset Int :=
  existing.filter fun i => args.wanted i

/-- Sorted by their ids, the collected trades are those of the range. -/
theorem sorted_keys {all : List (Int × Json)}
    (hnodup : (all.map Prod.fst).Nodup)
    (hmem : ∀ e, e ∈ all ↔ e.1 ∈ existing
      ∧ args.after < e.1 ∧ e.1 < args.before ∧ e.2 = entry e.1) :
    (all.insertionSort fun a b => a.1 ≤ b.1).map Prod.fst
      = (inRange existing args).sort := by
  have hperm := all.perm_insertionSort fun a b => a.1 ≤ b.1
  have hsorted : ((all.insertionSort fun a b => a.1 ≤ b.1).map
      Prod.fst).Pairwise (· ≤ ·) := by
    rw [List.pairwise_map]
    exact all.pairwise_insertionSort fun a b => a.1 ≤ b.1
  have hkeys : ((all.insertionSort fun a b => a.1 ≤ b.1).map Prod.fst).Perm
      (inRange existing args).sort := by
    refine (List.perm_ext_iff_of_nodup
      ((hperm.map Prod.fst).nodup_iff.mpr hnodup)
      (Finset.sort_nodup _ _)).mpr fun i => ?_
    rw [(hperm.map Prod.fst).mem_iff, Finset.mem_sort, inRange,
      Finset.mem_filter, List.mem_map]
    simp only [Args.wanted, Bool.and_eq_true, decide_eq_true_eq]
    constructor
    · intro h
      obtain ⟨e, he, rfl⟩ := h
      obtain ⟨hi, hafter, hbefore, -⟩ := (hmem e).mp he
      exact ⟨hi, hafter, hbefore⟩
    · intro h
      obtain ⟨hi, hafter, hbefore⟩ := h
      exact ⟨(i, entry i), (hmem _).mpr ⟨hi, hafter, hbefore, rfl⟩, rfl⟩
  exact hkeys.eq_of_pairwise' hsorted (Finset.pairwise_sort _ _)

/-- The loop ends with the existing trades strictly inside the range. -/
theorem exists_collected
    (api : TradesEndpoint existing entry args.product fetchPage) {fuel : Nat}
    (hfuel : (args.before + PAGE_SIZE - args.after).toNat < fuel) :
    ∃ all, collect fetchPage args fuel (args.before + PAGE_SIZE) []
        = some (.ok all)
      ∧ (all.map Prod.fst).Nodup
      ∧ ∀ e, e ∈ all ↔ e.1 ∈ existing
        ∧ args.after < e.1 ∧ e.1 < args.before ∧ e.2 = entry e.1 := by
  obtain ⟨all, hall, hexact⟩ :=
    collect_exact api fuel (args.before + PAGE_SIZE) hfuel [] exact_start
  refine ⟨all, hall, hexact.nodup, fun e => ?_⟩
  simp only [hexact.mem, Args.wanted, Bool.and_eq_true, decide_eq_true_eq]
  constructor
  · intro he
    obtain ⟨hi, ⟨hafter, hbefore⟩, -, heq⟩ := he
    exact ⟨hi, hafter, hbefore, heq⟩
  · intro he
    obtain ⟨hi, hafter, hbefore, heq⟩ := he
    exact ⟨hi, ⟨hafter, hbefore⟩, hafter.le, heq⟩

theorem inRange_eq_empty (hrange : args.range = []) :
    inRange existing args = ∅ := by
  rw [inRange, Finset.filter_eq_empty_iff]
  intro i _ hw
  have hi := mem_range.mpr hw
  rw [hrange] at hi
  cases hi

/-- The loop ends, for every range, with the existing trades strictly
inside it, each once and as the endpoint gave it; without `--dry-run`
exactly these are published, once each and in ascending order, under the
product's key. -/
theorem backfill_exact (clock : Nat → Int)
    (api : TradesEndpoint existing entry args.product fetchPage) {fuel : Nat}
    (hfuel : (args.before + PAGE_SIZE - args.after).toNat < fuel) :
    (∃ all, collect fetchPage args fuel (args.before + PAGE_SIZE) []
        = some (.ok all)
      ∧ (all.map Prod.fst).Nodup
      ∧ ∀ e, e ∈ all ↔ e.1 ∈ existing
        ∧ args.after < e.1 ∧ e.1 < args.before ∧ e.2 = entry e.1)
    ∧ ∃ ms, published fetchPage clock args fuel
        = some (.ok (ms.map fun m => ⟨.trades m, args.product⟩))
      ∧ (args.dryRun = true → ms = [])
      ∧ (args.dryRun = false →
        ms.map Trade.tradeId = (inRange existing args).sort
        ∧ ∀ m ∈ ms, ∃ now,
          toTopicPayload now (entry m.tradeId) args.product = .ok m) := by
  obtain ⟨all, hall, hnodup, hmem⟩ := exists_collected api hfuel
  refine ⟨⟨all, hall, hnodup, hmem⟩, ?_⟩
  unfold published backfill
  by_cases hrange : args.range = []
  · -- the range is empty: nothing is fetched
    rw [if_pos hrange]
    refine ⟨[], rfl, fun _ => rfl, fun _ => ⟨?_, by simp⟩⟩
    rw [inRange_eq_empty hrange, Finset.sort_empty, List.map_nil]
  · rw [if_neg hrange, hall]
    cases hdry : args.dryRun with
    | true => exact ⟨[], rfl, fun _ => rfl, fun h => by cases h⟩
    | false =>
        have hperm := all.perm_insertionSort fun a b => a.1 ≤ b.1
        obtain ⟨ms, hms, hids, hpayload⟩ := exists_payloads clock api
          (all.insertionSort fun a b => a.1 ≤ b.1)
          (fun e he => by
            obtain ⟨hi, -, -, heq⟩ := (hmem e).mp (hperm.mem_iff.mp he)
            exact ⟨hi, heq⟩) 0
        refine ⟨ms, ?_, fun h => (by cases h), fun _ => ⟨?_, hpayload⟩⟩
        · simp only [Option.map_some]
          show some (Except.map _ (List.mapM _ _)) = _
          rw [hms]
          rfl
        · rw [hids]
          exact sorted_keys hnodup hmem

end Publish

/-- A trade of the endpoint. -/
def btcEntry (i : Int) : Json :=
  .obj [("trade_id", .int i), ("time", .str "1970-01-01T00:00:00Z"),
    ("price", .str "100.5"), ("size", .str "0.1"), ("side", .str "buy")]

/-- The endpoint, for the trades 2, 3, 5 and 9. -/
def btcPage (_ : String) (cursor : Int) : List Json :=
  (newestBelow {2, 3, 5, 9} cursor).map btcEntry

def btcGap : Args := { product := "BTC-USD", after := 2, before := 6 }

/-- The ordering key and the trade id of a published record. -/
def keyAndId (p : Published) : String × Option Int :=
  match p.payload with
  | .trades m => (p.orderingKey, some m.tradeId)
  | _ => (p.orderingKey, none)

/-- The trades 3 and 5 are recovered; no trade 4 exists. -/
theorem backfill_exact_hole :
    (published btcPage (fun _ => 0) btcGap 2000).map
        (fun r => r.map fun ps => ps.map keyAndId)
      = some (.ok [("BTC-USD", some 3), ("BTC-USD", some 5)]) := by
  have hapi : TradesEndpoint {2, 3, 5, 9} btcEntry btcGap.product btcPage :=
    ⟨fun _ => rfl, fun _ _ => rfl, fun _ _ => ⟨_, rfl⟩, fun i _ key hkey => by
      simp only [List.mem_cons, List.not_mem_nil, or_false] at hkey
      rcases hkey with rfl | rfl | rfl <;> exact ⟨_, rfl⟩⟩
  obtain ⟨-, ms, hms, -, hsent⟩ := backfill_exact (fun _ => 0) hapi
    (show _ < 2000 by decide)
  have hids : ms.map Trade.tradeId = [3, 5] := by
    have hrange : inRange {2, 3, 5, 9} btcGap = {3, 5} := by decide
    rw [(hsent rfl).1, hrange, Finset.sort_insert, Finset.sort_singleton]
    · decide
    · decide
  have hkeys : (ms.map fun m =>
        (⟨.trades m, "BTC-USD"⟩ : Published)).map keyAndId
      = (ms.map Trade.tradeId).map fun i => ("BTC-USD", some i) := by
    rw [List.map_map, List.map_map]
    rfl
  rw [hms]
  show some (Except.ok (List.map keyAndId (ms.map fun m =>
    (⟨.trades m, "BTC-USD"⟩ : Published)))) = _
  rw [hkeys, hids]
  rfl

end MarketPlatform.Scripts
