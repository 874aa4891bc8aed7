/-
What a call that raises leaves of the book.

# The statement

A raise stops the loop over the levels, and what was written before it
stands: the flag that hides an unusable book is set by a snapshot that
succeeds and cleared by `reset` alone. So a ready book whose snapshot or
update fails goes on being served with what is left of it, unless the
levels written before the failure say what the book held anyway
(`failed_call_unserved_iff`).

# One loop

Either call is one loop over levels that may fail to be read
(`Op.rawLevels`, `run_eq`): an update over the book as it is, a snapshot
over an empty one. A loop that raises does so at one of its levels, and
has written the ones before it (`exists_raisesAt`,
`written_of_raisesAt`). `Written` says what such a loop leaves: the last
write about a level decides, and a level without one is as it was at the
start. The book is as it was exactly when that changes nothing
(`asItWas_iff_harmless`): for an update where the writes say anything,
for a snapshot everywhere.

# Equal books

Two books are compared as their dictionaries compare: by their items.
Where no two prices of a side tie in its order the books are then equal
(`AsItWas.eq`), since the items of a side come in the order of their
keys, in every book that is reached (`ordered_of_reached`).
-/
import MarketPlatform.Proofs.BookMap

namespace MarketPlatform.Consumer

open Lib Lib.Numeral EStateM Lib.LastWrite

-- ============================================================== one side

namespace Levels

variable {side : Side} {d d' : Levels} {p s : Decimal}

/-- Setting a level leaves no price twice. -/
theorem Keyed.of_set (hd : Keyed d) (h : d.set side p s = .ok d') :
    Keyed d' := by
  by_cases hnan : p.isNan = true ∧ resting s = none
  · rw [set_nan_zero hnan.1 hnan.2 h]
    exact hd
  · exact (hd.set (fun hp hs => hnan ⟨hp, hs⟩) h).1

/-- No level comes before one with a lower key. -/
def Ordered (side : Side) (d : Levels) : Prop :=
  d.Pairwise fun l m => (side.key m.1).lt (side.key l.1) = false

/-- The order of the keys is transitive. -/
theorem lt_trans {a b c : Decimal} (hab : a.lt b = true)
    (hbc : b.lt c = true) : a.lt c = true := by
  cases a <;> cases b <;> cases c <;> simp_all [Decimal.lt]
  exact hab.trans hbc

/-- And irreflexive, not-a-numbers included. -/
theorem lt_irrefl (a : Decimal) : a.lt a = false := by
  cases a <;> simp [Decimal.lt]

/-- An insertion keeps the order: a key goes after every key that is not
greater. -/
theorem Ordered.insort (hd : Ordered side d) :
    Ordered side (d.insort side p s) := by
  induction d with
  | nil => exact List.pairwise_singleton _ _
  | cons l d ih =>
      obtain ⟨hl, hrest⟩ := List.pairwise_cons.mp hd
      unfold Levels.insort
      by_cases hlt : (side.key p).lt (side.key l.1) = true
      · rw [if_pos hlt]
        -- what is not below `l` is not below what is
        have hafter : ∀ m, (side.key m).lt (side.key l.1) = false →
            (side.key m).lt (side.key p) = false := by
          intro m hm
          rw [← Bool.not_eq_true] at hm ⊢
          exact fun h => hm (lt_trans h hlt)
        refine List.pairwise_cons.mpr ⟨fun m hm => ?_, hd⟩
        rcases List.mem_cons.mp hm with rfl | hm
        · exact hafter m.1 (lt_irrefl _)
        · exact hafter m.1 (hl m hm)
      · rw [if_neg hlt]
        refine List.pairwise_cons.mpr ⟨fun m hm => ?_, ih hrest⟩
        rcases mem_insort.mp hm with rfl | hm
        · exact Bool.not_eq_true _ ▸ hlt
        · exact hl m hm

/-- So does setting a level. -/
theorem Ordered.set (hd : Ordered side d) (h : d.set side p s = .ok d') :
    Ordered side d' := by
  rw [← setBy_default] at h
  cases sets_of_ok h with
  | removed hs => exact hd.sublist List.filter_sublist
  | replaced hs hc =>
      apply pairwise_replace (R := fun p p' =>
        (side.key p').lt (side.key p) = false)
      exact hd
  | added hs hc hraises hnan =>
      rw [insortBy_default]
      exact hd.insort

end Levels

namespace OrderBook

-- ==================================================== the levels of a call

/-- A level as a call gives it: the side it names, its price and size. -/
abbrev RawLevel := Py Side × Json × Json

/-- Write a level as the call gives it: its side is read first. -/
def writeRaw (x : RawLevel) : EStateM Exc OrderBook Unit := do
  let side ← attempt x.1
  write side x.2.1 x.2.2

/-- The levels of a call, in the order in which it writes them. -/
def Op.rawLevels : Op → List RawLevel
  | .applySnapshot bids asks =>
      bids.map (fun x => (.ok .buy, x)) ++ asks.map fun x => (.ok .sell, x)
  | .applyUpdates changes => changes.map fun x => (Side.ofRaw x.1, x.2)
  | .reset => []

/-- The book that they are written to. -/
def Op.start (b : OrderBook) : Op → OrderBook
  | .applyUpdates _ => b
  | .applySnapshot _ _ | .reset => b.clear

/-- The loop over one side of a snapshot is one over raw levels. -/
theorem writeAll_eq (side : Side) (xs : List (Json × Json)) :
    writeAll side xs
      = (xs.map fun x => ((.ok side, x) : RawLevel)).forM writeRaw := by
  induction xs with
  | nil => rfl
  | cons x xs ih =>
      show (write side x.1 x.2 >>= fun _ => writeAll side xs)
        = (writeRaw (.ok side, x) >>= fun _ => _)
      rw [ih]
      rfl

/-- So is the loop over the changes of an update. -/
theorem writeChanges_eq (xs : List (Json × Json × Json)) :
    writeChanges xs
      = (xs.map fun x => ((Side.ofRaw x.1, x.2) : RawLevel)).forM
          writeRaw := by
  induction xs with
  | nil => rfl
  | cons x xs ih =>
      show (attempt (Side.ofRaw x.1) >>= fun side =>
          write side x.2.1 x.2.2 >>= fun _ => writeChanges xs)
        = (writeRaw (Side.ofRaw x.1, x.2) >>= fun _ => _)
      rw [ih]
      unfold writeRaw
      rw [bind_assoc]

/-- A level that raises leaves the book as it was. -/
theorem eq_of_writeRaw_error {x : RawLevel} {b b' : OrderBook} {e : Exc}
    (h : (writeRaw x).run b = .error e b') : b' = b := by
  rcases run_attempt_bind_error h with rfl | ⟨side, -, h⟩
  · rfl
  rcases run_attempt_bind_error h with rfl | ⟨p, -, h⟩
  · rfl
  rcases run_attempt_bind_error h with rfl | ⟨s, -, h⟩
  · rfl
  rw [run_get_bind] at h
  rcases run_attempt_bind_error h with rfl | ⟨d, -, h⟩
  · rfl
  · cases h

-- ======================================================== what is written

/-- A level that was written. -/
structure Write where
  side : Side
  price : Decimal
  size : Decimal
  deriving DecidableEq

/-- The side and the price. -/
def Write.level (w : Write) : Side × Decimal := (w.side, w.price)

/-- What a raw level writes; a not-a-number is not removed. -/
def writeOf (x : RawLevel) : Option Write :=
  match x.1, decimal x.2.1, decimal x.2.2 with
  | .ok side, .ok p, .ok s =>
      if p.isNan && (Levels.resting s).isNone then none
      else some ⟨side, p, s⟩
  | _, _, _ => none

/-- The book after a log of writes: the last one about a level decides,
and a level without one is as it was at the start. -/
structure Written (start : OrderBook) (log : List Write) (b : OrderBook) :
    Prop where
  ready : b.ready = start.ready
  snapshotCount : b.snapshotCount = start.snapshotCount
  updateCount : b.updateCount = start.updateCount
  keyed : b.Both fun _ => Levels.Keyed
  level : ∀ side l, l ∈ b.levels side
    ↔ (lastOf Write.level log (side, l.1)).elim (l ∈ start.levels side)
        fun w => Levels.resting w.size = some l.2

variable {start b b' : OrderBook} {log : List Write}

/-- Before the first write. -/
theorem written_nil (hb : b.Both fun _ => Levels.Keyed) : Written b [] b where
  ready := rfl
  snapshotCount := rfl
  updateCount := rfl
  keyed := hb
  level := fun _ _ => Iff.rfl

/-- One more write, given what it does to its side. -/
theorem Written.setLevels {side : Side} {d : Levels} {p s : Decimal}
    (h : Written start log b) (hd : d.Keyed)
    (hmem : ∀ l, l ∈ d ↔ if l.1 = p then Levels.resting s = some l.2
      else l ∈ b.levels side) :
    Written start (log ++ [⟨side, p, s⟩]) (b.setLevels side d) where
  ready := (ready_setLevels b side d).trans h.ready
  snapshotCount := by
    rw [← h.snapshotCount]
    cases side <;> rfl
  updateCount := by
    rw [← h.updateCount]
    cases side <;> rfl
  keyed := h.keyed.setLevels hd
  level := fun side' l => by
    have hlevel : Write.level ⟨side, p, s⟩ = (side', l.1)
        ↔ side' = side ∧ l.1 = p := by
      rw [Write.level, Prod.mk.injEq, eq_comm, eq_comm (a := p)]
    rw [levels_setLevels, lastOf_concat]
    by_cases hside : side' = side
    · rw [if_pos hside, hmem]
      by_cases hl : l.1 = p
      · rw [if_pos hl, if_pos (hlevel.mpr ⟨hside, hl⟩)]
        exact Iff.rfl
      · rw [if_neg hl, if_neg fun heq => hl (hlevel.mp heq).2, ← hside]
        exact h.level side' l
    · rw [if_neg hside, if_neg fun heq => hside (hlevel.mp heq).1]
      exact h.level side' l

/-- One more level, which may write nothing. -/
theorem Written.writeRaw {x : RawLevel} (h : Written start log b)
    (hrun : (writeRaw x).run b = .ok () b') :
    Written start (log ++ (writeOf x).toList) b' := by
  obtain ⟨side, hside, hrun⟩ := run_attempt_bind_ok hrun
  obtain ⟨p, s, d, hp, hs, hset, rfl⟩ := write_ok hrun
  unfold writeOf
  rw [hside, hp, hs]
  dsimp only
  by_cases hnan : p.isNan = true ∧ Levels.resting s = none
  · have hsame := Levels.set_nan_zero hnan.1 hnan.2 hset
    rw [if_pos (by rw [hnan.1, hnan.2]; rfl), hsame]
    have hb : b.setLevels side (b.levels side) = b := by
      cases side <;> rfl
    rw [hb, Option.toList_none, List.append_nil]
    exact h
  · obtain ⟨hkeyed, hmem⟩ :=
      (h.keyed side).set (fun hp hs => hnan ⟨hp, hs⟩) hset
    rw [if_neg (by simpa using hnan)]
    exact h.setLevels hkeyed hmem

/-- What a loop over raw levels leaves. -/
theorem Written.run {xs : List RawLevel} (h : Written start log b)
    (hrun : (xs.forM OrderBook.writeRaw).run b = .ok ⟨⟩ b') :
    Written start (log ++ xs.filterMap writeOf) b' := by
  induction xs generalizing log b with
  | nil =>
      obtain ⟨-, rfl⟩ := Result.ok.inj hrun
      rw [List.filterMap_nil, List.append_nil]
      exact h
  | cons x xs ih =>
      obtain ⟨⟨⟩, b₁, hx, hxs⟩ := run_bind_ok hrun
      have hrest := ih (h.writeRaw hx) hxs
      have hlog : (x :: xs).filterMap writeOf
          = (writeOf x).toList ++ xs.filterMap writeOf := by
        rw [List.filterMap_cons]
        cases writeOf x <;> rfl
      rw [hlog, ← List.append_assoc]
      exact hrest

-- ================================================================= a call

/-- What a call sets once its levels are written. -/
def Op.finish : Op → OrderBook → OrderBook
  | .applySnapshot _ _, b =>
      { b with ready := true, snapshotCount := b.snapshotCount + 1 }
  | .applyUpdates _, b => { b with updateCount := b.updateCount + 1 }
  | .reset, b => { b with ready := false }

/-- A call is one loop over its levels, unless it is an update that the
book is not ready for. -/
theorem run_eq {op : Op}
    (h : ∀ changes, op = .applyUpdates changes → b.ready = true) :
    op.run.run b = (op.rawLevels.forM writeRaw >>= fun _ =>
      modify op.finish).run (op.start b) := by
  cases op with
  | applySnapshot bids asks =>
      show (applySnapshot bids asks).run b = _
      unfold applySnapshot
      rw [run_modify_bind, writeAll_eq, writeAll_eq]
      show _ = ((bids.map _ ++ asks.map _).forM writeRaw >>= _).run b.clear
      rw [List.forM_eq_forM, List.forM_append, bind_assoc]
      rfl
  | applyUpdates changes =>
      show (applyUpdates changes).run b = _
      rw [run_applyUpdates_ready (h changes rfl), writeChanges_eq]
      rfl
  | reset => rfl

/-- A call that raises does so in its loop. -/
theorem forM_of_error {op : Op} {e : Exc}
    (hrun : op.run.run b = .error e b') :
    (op.rawLevels.forM writeRaw).run (op.start b) = .error e b' := by
  have hready : ∀ changes, op = .applyUpdates changes → b.ready = true := by
    rintro changes rfl
    by_contra hidle
    have hok := run_applyUpdates_idle (Bool.eq_false_iff.mpr hidle) changes
    cases hok.symm.trans hrun
  rw [run_eq hready, run_bind] at hrun
  cases hloop : (op.rawLevels.forM writeRaw).run (op.start b) with
  | ok u b₁ =>
      rw [hloop] at hrun
      cases hrun
  | error e' b₁ =>
      rw [hloop] at hrun
      exact hrun

/-- A book that some calls lead to, whether or not they raised. -/
inductive Reached : OrderBook → Prop where
  | new : Reached {}
  | call {b : OrderBook} (h : Reached b) (op : Op) :
      Reached (op.run.run b).state

/-- An emptied book has the property, and so has an untouched one. -/
theorem both_start {P : Side → Levels → Prop} (hnil : ∀ side, P side [])
    (hb : b.Both P) (op : Op) : (op.start b).Both P := by
  have hclear : b.clear.Both P := fun side => by
    rw [levels_clear]
    exact hnil side
  cases op with
  | applyUpdates changes => exact hb
  | applySnapshot bids asks => exact hclear
  | reset => exact hclear

/-- What every level that is set keeps holds of every book. -/
theorem both_of_reached {P : Side → Levels → Prop}
    (hnil : ∀ side, P side [])
    (hset : ∀ side d p s d', P side d → d.set side p s = .ok d' → P side d')
    (hb : Reached b) : b.Both P := by
  have hP : Stable .default P fun _ _ _ => True := by
    refine ⟨hnil, fun side d price size p s d' hd _ _ _ h => ?_⟩
    rw [Levels.setBy_default] at h
    exact hset side d p s d' hd h
  induction hb with
  | new =>
      intro side
      cases side <;> exact hnil _
  | @call b hb op ih =>
      have hop : op.Each fun _ _ _ => True := by
        cases op <;> simp [Op.Each]
      rw [← op.runBy_default]
      exact hP.preserves_runBy hop b ih

/-- No book that is reached has a price twice on a side. -/
theorem keyed_of_reached (hb : Reached b) : b.Both fun _ => Levels.Keyed :=
  both_of_reached (fun _ => Levels.keyed_nil)
    (fun _ _ _ _ _ hd h => hd.of_set h) hb

/-- The sides of a book that is reached are in the order of their
keys. -/
theorem ordered_of_reached (hb : Reached b) : b.Both Levels.Ordered :=
  both_of_reached (fun _ => List.Pairwise.nil)
    (fun _ _ _ _ _ hd h => hd.set h) hb

-- ============================================================ as it was

/-- The book is what it was: the flag, the counts, and the items of its
two dictionaries. -/
structure AsItWas (b b' : OrderBook) : Prop where
  ready : b'.ready = b.ready
  snapshotCount : b'.snapshotCount = b.snapshotCount
  updateCount : b'.updateCount = b.updateCount
  items : ∀ side l, l ∈ b'.levels side ↔ l ∈ b.levels side

/-- No two prices of a side are equal in its order. -/
def NoTies (b : OrderBook) : Prop :=
  ∀ side, ∀ l ∈ b.levels side, ∀ m ∈ b.levels side,
    (side.key m.1).lt (side.key l.1) = false →
    (side.key l.1).lt (side.key m.1) = false → l.1 = m.1

/-- Then the items come in one order. -/
theorem AsItWas.eq (h : AsItWas b b') (hb : Reached b) (hb' : Reached b')
    (hties : b.NoTies) : b' = b := by
  have hlevels : ∀ side, b'.levels side = b.levels side := by
    intro side
    have hkeyed := keyed_of_reached hb side
    have hperm : (b'.levels side).Perm (b.levels side) :=
      (List.perm_ext_iff_of_nodup (keyed_of_reached hb' side).of_map
        hkeyed.of_map).mpr (h.items side)
    refine List.Perm.eq_of_pairwise (fun l m hl hm hlm hml => ?_)
      (ordered_of_reached hb' side) (ordered_of_reached hb side) hperm
    have hl' := (h.items side l).mp hl
    exact List.inj_on_of_nodup_map hkeyed hl' hm
      (hties side l hl' m hm hlm hml)
  have hbids := hlevels .buy
  have hasks := hlevels .sell
  obtain ⟨hready, hsnapshots, hupdates, -⟩ := h
  cases b
  cases b'
  simp only [levels] at hbids hasks hready hsnapshots hupdates
  subst hbids hasks hready hsnapshots hupdates
  rfl

/-- The levels written before a raise say what the book held: those of an
update where they say anything, those of a snapshot everywhere. -/
def Op.Harmless (b : OrderBook) (pre : List RawLevel) : Op → Prop
  | .applySnapshot _ _ => ∀ side l, l ∈ b.levels side
      ↔ ∃ w, lastOf Write.level (pre.filterMap writeOf) (side, l.1) = some w
        ∧ Levels.resting w.size = some l.2
  | .applyUpdates _ => ∀ w,
      lastOf Write.level (pre.filterMap writeOf) w.level = some w →
      ∀ s, (w.price, s) ∈ b.levels w.side ↔ Levels.resting w.size = some s
  | .reset => True

/-- A loop over raw levels writes those before this one and raises. -/
def RaisesAt (b : OrderBook) (pre : List RawLevel) (x : RawLevel) : Prop :=
  ∃ b₁, (pre.forM writeRaw).run b = .ok ⟨⟩ b₁
    ∧ ((writeRaw x).run b₁).isOk = false

/-- The book is as it was when what was written is harmless. A failed
call leaves the flag and the counts alone, so the two books differ in
their levels or not at all, and a level is what its last write made
it. -/
theorem asItWas_iff_harmless {op : Op} {pre : List RawLevel}
    (hop : op ≠ .reset)
    (h : Written (op.start b) (pre.filterMap writeOf) b') :
    AsItWas b b' ↔ op.Harmless b pre := by
  have hsame : AsItWas b b' ↔ ∀ side l, l ∈ b'.levels side
      ↔ l ∈ b.levels side := by
    refine ⟨AsItWas.items, fun hitems => ⟨?_, ?_, ?_, hitems⟩⟩
    · rw [h.ready]
      cases op <;> rfl
    · rw [h.snapshotCount]
      cases op <;> rfl
    · rw [h.updateCount]
      cases op <;> rfl
  rw [hsame]
  cases op with
  | reset => exact absurd rfl hop
  | applySnapshot bids asks =>
      refine forall_congr' fun side => forall_congr' fun l => ?_
      rw [h.level]
      show (Option.elim _ (l ∈ b.clear.levels side) _ ↔ _) ↔ _
      rw [levels_clear]
      cases lastOf Write.level (pre.filterMap writeOf) (side, l.1) with
      | none => simp [iff_comm]
      | some w => simp [iff_comm]
  | applyUpdates changes =>
      constructor
      · intro hitems w hw s
        have hlevel := h.level w.side (w.price, s)
        rw [show (w.side, w.price) = w.level from rfl, hw] at hlevel
        exact (hitems w.side (w.price, s)).symm.trans hlevel
      · intro hharmless side l
        rw [h.level]
        cases hlast :
            lastOf Write.level (pre.filterMap writeOf) (side, l.1) with
        | none => exact Iff.rfl
        | some w =>
            obtain ⟨-, hlevel⟩ := of_lastOf hlast
            obtain ⟨rfl, hprice⟩ := Prod.mk.inj hlevel
            rw [← hlevel] at hlast
            have hl := hharmless w hlast l.2
            rw [hprice] at hl
            exact hl.symm

/-- A call raises at one of its levels. -/
theorem exists_raisesAt {op : Op} {e : Exc}
    (hrun : op.run.run b = .error e b') :
    ∃ pre x rest, op.rawLevels = pre ++ x :: rest
      ∧ RaisesAt (op.start b) pre x := by
  obtain ⟨pre, x, rest, b₁, hsplit, hpre, hx⟩ :=
    run_forM_error (forM_of_error hrun)
  refine ⟨pre, x, rest, hsplit, b₁, hpre, ?_⟩
  rw [hx]
  rfl

/-- Where it does, it leaves what the levels before that one write. -/
theorem written_of_raisesAt {op : Op} {e : Exc} {pre rest : List RawLevel}
    {x : RawLevel} (hb : Reached b) (hrun : op.run.run b = .error e b')
    (hsplit : op.rawLevels = pre ++ x :: rest)
    (hx : RaisesAt (op.start b) pre x) :
    Written (op.start b) (pre.filterMap writeOf) b' := by
  obtain ⟨b₁, hpre, hraises⟩ := hx
  have hloop := forM_of_error hrun
  rw [hsplit, run_forM_append hpre] at hloop
  have hcons : (writeRaw x >>= fun _ => rest.forM writeRaw).run b₁
      = .error e b' := hloop
  rw [run_bind] at hcons
  cases hw : (writeRaw x).run b₁ with
  | ok u b₂ =>
      rw [hw] at hraises
      cases hraises
  | error e' b₂ =>
      rw [hw] at hcons
      obtain ⟨-, rfl⟩ := Result.error.inj hcons
      obtain rfl := eq_of_writeRaw_error hw
      have hstart := both_start (fun _ => Levels.keyed_nil)
        (keyed_of_reached hb) op
      have hwritten := (written_nil hstart).run hpre
      rwa [List.nil_append] at hwritten

/-- A book that is not ready serves no quote. -/
theorem quote_of_not_ready (h : b.ready = false) : b.quote = .ok none := by
  simp [OrderBook.quote, bestBid, bestAsk, h]

/-- After a call that raises a book is as it was or not ready exactly
when it was not ready before, or the levels written until then say what
it held. In such a book that is as it was nothing has changed at all,
unless two prices of a side tie.

A call that raises is one loop, over a ready book or an emptied one;
what it leaves is `Written`, and the flag is the one of the start. -/
theorem failed_call_unserved_iff {op : Op} {e : Exc} (hb : Reached b)
    (hrun : op.run.run b = .error e b') :
    (AsItWas b b' ∨ b'.ready = false ∧ b'.quote = .ok none
        ↔ b.ready = false ∨ ∃ pre x rest, op.rawLevels = pre ++ x :: rest
          ∧ RaisesAt (op.start b) pre x ∧ op.Harmless b pre)
      ∧ (AsItWas b b' → b.NoTies → b' = b) := by
  obtain ⟨pre, x, rest, hsplit, hx⟩ := exists_raisesAt hrun
  have hwritten := written_of_raisesAt hb hrun hsplit hx
  have hop : op ≠ .reset := by
    rintro rfl
    cases pre <;> cases hsplit
  have hready : b'.ready = b.ready := by
    rw [hwritten.ready]
    cases op <;> rfl
  refine ⟨⟨fun hkept => ?_, fun hcond => ?_⟩, fun hsame hties => ?_⟩
  · rcases hkept with hsame | ⟨hnot, -⟩
    · exact Or.inr ⟨pre, x, rest, hsplit, hx,
        (asItWas_iff_harmless hop hwritten).mp hsame⟩
    · exact Or.inl (hready.symm.trans hnot)
  · rcases hcond with hnot | ⟨pre', x', rest', hsplit', hx', hharmless⟩
    · have hnot' := hready.trans hnot
      exact Or.inr ⟨hnot', quote_of_not_ready hnot'⟩
    · have hwritten' := written_of_raisesAt hb hrun hsplit' hx'
      exact Or.inl ((asItWas_iff_harmless hop hwritten').mpr hharmless)
  · have hb' : Reached (op.run.run b).state := Reached.call hb op
    rw [hrun] at hb'
    exact hsame.eq hb hb' hties

/-- One bid and one ask. -/
def smallSnapshot : Op :=
  .applySnapshot [(.str "100", .str "5")] [(.str "101", .str "4")]

/-- The book of that snapshot. -/
def smallBook : OrderBook where
  bids := [(.finite 100, .finite 5)]
  asks := [(.finite 101, .finite 4)]
  ready := true
  snapshotCount := 1

/-- The snapshot makes the book. -/
theorem run_smallSnapshot : (smallSnapshot.run.run {}).state = smallBook := by
  decide +kernel

/-- So it can be reached. -/
theorem smallBook_reached : Reached smallBook := by
  rw [← run_smallSnapshot]
  exact Reached.new.call _

/-- The bid that is held, said once more, and a price that cannot be
read. -/
def repeatedBid : Op :=
  .applyUpdates [(.str "buy", .str "100", .str "5"),
    (.str "buy", .str "oops", .str "1")]

theorem failed_call_unserved_repeated :
    ∃ e, repeatedBid.run.run smallBook = .error e smallBook
      ∧ (AsItWas smallBook smallBook
        ∨ smallBook.ready = false ∧ smallBook.quote = .ok none) := by
  have hstate : (repeatedBid.run.run smallBook).state = smallBook := by
    decide +kernel
  obtain ⟨e, hrun⟩ : ∃ e, repeatedBid.run.run smallBook
      = .error e (repeatedBid.run.run smallBook).state :=
    Result.eq_error_of_isOk (by decide +kernel)
  rw [hstate] at hrun
  have hbid : [((Side.ofRaw (.str "buy"), .str "100", .str "5") :
      RawLevel)].filterMap writeOf = [⟨.buy, .finite 100, .finite 5⟩] := by
    decide +kernel
  refine ⟨e, hrun, (failed_call_unserved_iff smallBook_reached hrun).1.mpr
    (Or.inr ⟨[(Side.ofRaw (.str "buy"), .str "100", .str "5")],
      (Side.ofRaw (.str "buy"), .str "oops", .str "1"), [], rfl,
      ⟨smallBook, ?_, ?_⟩, ?_⟩)⟩
  · have hok : (([((Side.ofRaw (.str "buy"), .str "100", .str "5") :
        RawLevel)].forM writeRaw).run smallBook).isOk = true := by
      decide +kernel
    have hsame : (([((Side.ofRaw (.str "buy"), .str "100", .str "5") :
        RawLevel)].forM writeRaw).run smallBook).state = smallBook := by
      decide +kernel
    have hpre := Result.eq_ok_of_isOk hok
    rw [hsame] at hpre
    exact hpre
  · show ((writeRaw (Side.ofRaw (.str "buy"), .str "oops", .str "1")).run
      smallBook).isOk = false
    decide +kernel
  · intro w hw s
    rw [hbid] at hw
    obtain rfl := List.mem_singleton.mp (of_lastOf hw).1
    show (_, s) ∈ [((.finite 100, .finite 5) : Decimal × Decimal)] ↔ _
    rw [List.mem_singleton, Prod.mk.injEq, and_iff_right rfl, eq_comm]
    exact Option.some_inj.symm

/-- A bid, and a side that is none. -/
def halfUpdate : Op :=
  .applyUpdates [(.str "buy", .str "100.5", .str "7"),
    (.str "hold", .str "99", .str "1")]

/-- A price that cannot be read. -/
def badSnapshot : Op := .applySnapshot [(.str "oops", .str "5")] []

/-- Both leave a book that is ready: the one with a bid of an update that
failed, the other with no levels. -/
theorem failed_call_served :
    smallBook.Reached
      ∧ (∃ e b', halfUpdate.run.run smallBook = .error e b'
        ∧ b'.quote = .ok (some ⟨.finite (201 / 2), .finite 7, .finite 101,
            .finite 4⟩)
        ∧ ¬ (AsItWas smallBook b' ∨ b'.ready = false ∧ b'.quote = .ok none))
      ∧ ∃ e b', badSnapshot.run.run smallBook = .error e b'
        ∧ b'.bids = [] ∧ b'.asks = []
        ∧ ¬ (AsItWas smallBook b'
          ∨ b'.ready = false ∧ b'.quote = .ok none) := by
  obtain ⟨e, hhalf⟩ : ∃ e, halfUpdate.run.run smallBook
      = .error e (halfUpdate.run.run smallBook).state :=
    Result.eq_error_of_isOk (by decide +kernel)
  obtain ⟨e', hbad⟩ : ∃ e, badSnapshot.run.run smallBook
      = .error e (badSnapshot.run.run smallBook).state :=
    Result.eq_error_of_isOk (by decide +kernel)
  have hhalf' : (halfUpdate.run.run smallBook).state
      = { smallBook with bids := [(.finite (201 / 2), .finite 7),
          (.finite 100, .finite 5)] } := by decide +kernel
  have hbad' : (badSnapshot.run.run smallBook).state
      = { smallBook with bids := [], asks := [] } := by decide +kernel
  rw [hhalf'] at hhalf
  rw [hbad'] at hbad
  refine ⟨smallBook_reached, ⟨e, _, hhalf, by decide +kernel, ?_⟩, e', _,
    hbad, rfl, rfl, ?_⟩
  · intro hkept
    rcases hkept with hsame | ⟨hnot, -⟩
    · have hbid := (hsame.items .buy (.finite (201 / 2), .finite 7)).mp
        List.mem_cons_self
      revert hbid
      decide +kernel
    · cases hnot
  · intro hkept
    rcases hkept with hsame | ⟨hnot, -⟩
    · cases (hsame.items .buy (.finite 100, .finite 5)).mpr
        List.mem_cons_self
    · cases hnot

end OrderBook

end MarketPlatform.Consumer
