/-
No `extra` is lost in a log line.

A log call may carry `extra`, a dict whose items become attributes of
the record. The formatter writes one JSON line a record, into which it
copies every attribute that is not one a record always has. Between the
two stands `makeRecord` of the standard library, which raises a
`KeyError` when an `extra` overwrites an attribute.

# Names

The formatter's list of standard attributes and the names `makeRecord`
refuses are the same (`mem_standard_iff`). So of an accepted `extra`
only a name that opens with an underscore is not written, and the name
`exception` when the record has one of its own. Nothing else of the
record gets into the line.

# Lines

`WrittenAs` is what a line says of a record: its message, its exception,
every shown member of `extra` with its value, and the record's own
severity and logger unless an `extra` of that name took the place. The
payload is an object in which a later member overwrites an earlier one
of its name, so the proof is about what a lookup finds
(`Made.lookup_payload`). The line is the text of that object, and
reading the text back gives it again, because all its members are flat:
a text, a number or a bool (`Json.loads_dumpsLine` of `Lib/JsonLine`).

# The last line

`main` ends with a log call whose `extra` is the snapshot of the
metrics. No metric has a name that is refused, hidden or one of the
line's own, whatever happened before, so the call is made and its line
reads back as the whole snapshot (`drained_reads_back`). The names of
the metrics of any run are those of `Proofs/Totals`.
-/
import MarketPlatform.Consumer.Logs
import MarketPlatform.Proofs.Totals

namespace MarketPlatform.Consumer

open Lib

-- ================================================================== values

namespace LogValue

/-- A float is a number. -/
def Readable : LogValue → Bool
  | .float literal value => Json.isFloatText literal value
  | _ => true

theorem flat_json {v : LogValue} (h : v.Readable = true) :
    Json.Flat v.json = true := by
  cases v with
  | float literal value => exact h
  | _ => rfl

end LogValue

namespace CloudLoggingFormatter

variable {r : LogRecord} {extra : List (String × LogValue)}

-- ================================================================= members

/-- The formatter leaves out what `makeRecord` refuses. -/
theorem mem_standard_iff {key : String} :
    key ∈ standard ↔ key ∈ MessageHandler.reservedKeys := by
  have hsame : standard.Perm MessageHandler.reservedKeys := by decide
  exact hsame.mem_iff

/-- The members that `extra` adds. -/
def fields (extra : List (String × LogValue)) : List (String × Json) :=
  (extra.filter fun x => !hidden x.1).map fun x => (x.1, x.2.json)

/-- A record of `extra`, and what is written of it. -/
structure Made (r : LogRecord) (extra : List (String × LogValue)) : Prop where
  accepted : ∀ x ∈ extra, x.1 ∉ standard
  attributes : ∃ own : String → LogValue, r.attributes
    = recordAttributes.map (fun a => (a, own a)) ++ extra

theorem made_of_makeRecord {levelname name message : String}
    {exception : Option String} {own : String → LogValue}
    (h : makeRecord levelname name message exception own extra = .ok r) :
    Made r extra := by
  unfold makeRecord at h
  split at h
  · cases h
  · next hfree =>
      obtain rfl := Except.ok.inj h
      refine ⟨fun x hx hstandard => hfree ?_, own, rfl⟩
      exact List.any_eq_true.mpr
        ⟨x, hx, decide_eq_true (mem_standard_iff.mp hstandard)⟩

/-- Of the attributes, those of `extra` are shown. -/
theorem Made.shown_eq (h : Made r extra) : shown r = fields extra := by
  obtain ⟨own, hown⟩ := h.attributes
  have hstandard : ∀ a ∈ recordAttributes, a ∈ standard := by decide
  unfold shown fields
  rw [hown, List.filter_append, List.filter_eq_nil_iff.mpr,
    List.nil_append]
  · congr 1
    refine List.filter_congr fun x hx => ?_
    simp [h.accepted x hx]
  · intro x hx
    obtain ⟨a, ha, rfl⟩ := List.mem_map.mp hx
    simp [hstandard a ha]

theorem lookup_withException (key : String) (exception : Option String)
    (ms : List (String × Json)) :
    Json.lookup key (withException exception ms)
      = if key = "exception" then
          (exception.map Json.str).or (Json.lookup key ms)
        else Json.lookup key ms := by
  cases exception with
  | none => simp [withException]
  | some text =>
      rw [withException, Json.lookup_setMember]
      rfl

/-- The members of a new payload. -/
def heading (r : LogRecord) : List (String × Json) :=
  [("severity", .str r.levelname), ("message", .str r.message),
    ("logger", .str r.name)]

/-- What a name is looked up to in the payload: the record's exception
comes before everything, then the members of `extra`, then the three of
the line. -/
theorem Made.lookup_payload (h : Made r extra) (key : String) :
    Json.lookup key (payload r)
      = if key = "exception" then
          (r.exception.map Json.str).or
            (Json.lookup key (fields extra))
        else (Json.lookup key (fields extra)).or
          (Json.lookup key (heading r)) := by
  have hheading : Json.lookup "exception" (heading r) = none := rfl
  rw [payload, h.shown_eq, lookup_withException, Json.lookup_update,
    ← heading]
  by_cases hkey : key = "exception"
  · rw [if_pos hkey, if_pos hkey, hkey, hheading, Option.or_none]
  · rw [if_neg hkey, if_neg hkey]

theorem lookup_fields {x : String × LogValue}
    (hnodup : (extra.map Prod.fst).Nodup) (hx : x ∈ extra)
    (hhidden : hidden x.1 = false) :
    Json.lookup x.1 (fields extra) = some x.2.json := by
  have hkeys : ((fields extra).map Prod.fst).Nodup := by
    rw [fields, List.map_map]
    exact hnodup.sublist (List.filter_sublist.map _)
  have hmem : x ∈ extra.filter fun x => !hidden x.1 :=
    List.mem_filter.mpr ⟨hx, by rw [hhidden]; rfl⟩
  exact Json.lookup_of_mem hkeys (List.mem_map.mpr ⟨x, hmem, rfl⟩)

theorem mem_fields_iff {key : String} :
    key ∈ (fields extra).map Prod.fst
      ↔ ∃ x ∈ extra, x.1 = key ∧ hidden key = false := by
  simp only [fields, List.map_map, List.mem_map, List.mem_filter,
    Function.comp_apply, Bool.not_eq_true']
  constructor
  · intro h
    obtain ⟨x, ⟨hx, hhidden⟩, rfl⟩ := h
    exact ⟨x, hx, rfl, hhidden⟩
  · intro h
    obtain ⟨x, hx, rfl, hhidden⟩ := h
    exact ⟨x, ⟨hx, hhidden⟩, rfl⟩

-- =================================================================== lines

/-- What a line says of a record and its `extra`. -/
structure WrittenAs (r : LogRecord) (extra : List (String × LogValue))
    (ms : List (String × Json)) : Prop where
  message : Json.lookup "message" ms = some (.str r.message)
  exception : ∀ text ∈ r.exception,
    Json.lookup "exception" ms = some (.str text)
  each : ∀ x ∈ extra, hidden x.1 = false →
    (x.1 = "exception" → r.exception = none) →
    Json.lookup x.1 ms = some x.2.json
  severity : (∀ x ∈ extra, x.1 ≠ "severity") →
    Json.lookup "severity" ms = some (.str r.levelname)
  logger : (∀ x ∈ extra, x.1 ≠ "logger") →
    Json.lookup "logger" ms = some (.str r.name)
  nothingElse : ∀ key, Json.lookup key ms ≠ none →
    key ∈ ["severity", "message", "logger"]
      ∨ (key = "exception" ∧ r.exception ≠ none)
      ∨ ∃ x ∈ extra, x.1 = key ∧ hidden key = false

/-- The payload of a made record says what `WrittenAs` asks, looked up
name by name. -/
theorem Made.written (h : Made r extra) (hnodup : (extra.map Prod.fst).Nodup) :
    WrittenAs r extra (payload r) := by
  have habsent : ∀ key, (∀ x ∈ extra, x.1 ≠ key) →
      Json.lookup key (fields extra) = none := by
    intro key hkey
    refine Json.lookup_eq_none_iff.mpr fun hmem => ?_
    obtain ⟨x, hx, hxk, -⟩ := mem_fields_iff.mp hmem
    exact hkey x hx hxk
  refine ⟨?_, fun text htext => ?_, fun x hx hhidden hexception => ?_,
    fun hfree => ?_, fun hfree => ?_, fun key hkey => ?_⟩
  · have hmessage : "message" ∈ standard := by decide
    rw [h.lookup_payload, if_neg (by decide), habsent]
    · rfl
    · intro x hx hxk
      exact h.accepted x hx (hxk ▸ hmessage)
  · rw [h.lookup_payload, if_pos rfl, Option.mem_def.mp htext]
    rfl
  · rw [h.lookup_payload, lookup_fields hnodup hx hhidden]
    split
    · next hkey =>
        rw [hexception hkey]
        rfl
    · rfl
  · rw [h.lookup_payload, if_neg (by decide), habsent _ hfree]
    rfl
  · rw [h.lookup_payload, if_neg (by decide), habsent _ hfree]
    rfl
  · rw [h.lookup_payload] at hkey
    have hshown : Json.lookup key (fields extra) ≠ none →
        ∃ x ∈ extra, x.1 = key ∧ hidden key = false := by
      intro hne
      by_contra hnot
      exact hne (Json.lookup_eq_none_iff.mpr (mt mem_fields_iff.mp hnot))
    by_cases hexception : key = "exception"
    · rw [if_pos hexception] at hkey
      by_cases hnone : r.exception = none
      · rw [hnone] at hkey
        exact Or.inr (Or.inr (hshown hkey))
      · exact Or.inr (Or.inl ⟨hexception, hnone⟩)
    · rw [if_neg hexception] at hkey
      by_cases hfield : Json.lookup key (fields extra) = none
      · rw [hfield, Option.none_or] at hkey
        by_contra hnot
        exact hkey (Json.lookup_eq_none_iff.mpr fun hmem =>
          hnot (Or.inl hmem))
      · exact Or.inr (Or.inr (hshown hfield))

/-- Everything written is flat. -/
theorem Made.flat_payload (h : Made r extra)
    (hread : ∀ x ∈ extra, x.2.Readable = true) :
    ∀ m ∈ payload r, Json.Flat m.2 = true := by
  have hfields : ∀ m ∈ Json.update (heading r) (fields extra),
      Json.Flat m.2 = true := by
    intro m hm
    rcases Json.mem_update hm with hm | hm
    · simp only [heading, List.mem_cons, List.not_mem_nil, or_false] at hm
      rcases hm with rfl | rfl | rfl
      · rfl
      · rfl
      · rfl
    · obtain ⟨x, hx, rfl⟩ := List.mem_map.mp hm
      exact LogValue.flat_json (hread x (List.mem_filter.mp hx).1)
  intro m hm
  rw [payload, h.shown_eq, ← heading] at hm
  cases hexception : r.exception with
  | none =>
      rw [hexception] at hm
      exact hfields m hm
  | some text =>
      rw [hexception] at hm
      rcases Json.mem_setMember hm with rfl | hm
      · rfl
      · exact hfields m hm

/-- The line of a made record is read back: it is the text of its
payload, every member of which is flat. -/
theorem Made.reads_back (h : Made r extra)
    (hnodup : (extra.map Prod.fst).Nodup)
    (hread : ∀ x ∈ extra, x.2.Readable = true) :
    ∃ ms, Json.loads (format r) = some (.obj ms) ∧ WrittenAs r extra ms := by
  have hwritten := h.written hnodup
  refine ⟨payload r, Json.loads_dumpsLine ?_ (h.flat_payload hread), hwritten⟩
  intro hnil
  have hmessage := hwritten.message
  rw [hnil] at hmessage
  cases hmessage

/-- Whatever else a record has, its line reads back as an object with
every member of `extra` that is not hidden and whose float, if it is one,
is a number. A member called `severity` or `logger` takes the place of
the record's own, and the record's exception that of a member of its
name; there are no others. -/
theorem format_reads_back {levelname name message : String}
    {exception : Option String} {own : String → LogValue}
    (hmade : makeRecord levelname name message exception own extra = .ok r)
    (hnodup : (extra.map Prod.fst).Nodup)
    (hread : ∀ x ∈ extra, x.2.Readable = true) :
    ∃ ms, Json.loads (format r) = some (.obj ms) ∧ WrittenAs r extra ms :=
  (made_of_makeRecord hmade).reads_back hnodup hread

/-- A number, a name that is hidden and a float. -/
def gapExtra : List (String × LogValue) :=
  [("missing", .int 3), ("_task", .bool true),
    ("silence_s", .float "12.5" (some (25 / 2)))]

/-- The line of a warning with a traceback. -/
theorem format_reads_back_gap :
    ∃ r ms, makeRecord "WARNING" "consumer" "trade gap" (some "Traceback")
        (fun _ => .other "None") gapExtra = .ok r
      ∧ Json.loads (format r) = some (.obj ms) ∧ WrittenAs r gapExtra ms := by
  obtain ⟨r, hmade⟩ : ∃ r, makeRecord "WARNING" "consumer" "trade gap"
      (some "Traceback") (fun _ => .other "None") gapExtra = .ok r :=
    ⟨_, rfl⟩
  obtain ⟨ms, hline, hwritten⟩ :=
    format_reads_back hmade (by decide) (by decide +kernel)
  exact ⟨r, ms, hmade, hline, hwritten⟩

end CloudLoggingFormatter

-- ============================================================ the last line

namespace Main

open CloudLoggingFormatter

variable (config : Config) (publisher : Publisher)

/-- What the last line says. -/
structure DrainedLine (m : Main) (written : String × ℚ → LogValue)
    (ms : List (String × Json)) : Prop where
  metrics : ∀ x ∈ m.snapshot, Json.lookup x.1 ms = some (written x).json
  heading : Json.lookup "severity" ms = some (.str "INFO")
    ∧ Json.lookup "message" ms = some (.str "drained")
    ∧ Json.lookup "logger" ms = some (.str "consumer")
  nothingElse : ∀ key, Json.lookup key ms ≠ none →
    key ∈ ["severity", "message", "logger"] ∨ key ∈ m.snapshot.map Prod.fst

/-- No metric is named like something the line has of its own. -/
theorem free_of_mem_snapshot {m : Main}
    (hnames : (m.snapshot.map Prod.fst).Subperm Counters.names)
    {x : String × ℚ} (hx : x ∈ m.snapshot) :
    x.1 ∉ MessageHandler.reservedKeys ∧ hidden x.1 = false
      ∧ x.1 ∉ ["severity", "message", "logger", "exception"] := by
  have hall : ∀ name ∈ Counters.names,
      name ∉ MessageHandler.reservedKeys ∧ hidden name = false
        ∧ name ∉ ["severity", "message", "logger", "exception"] := by
    decide +kernel
  exact hall x.1 (hnames.subset (List.mem_map_of_mem hx))

/-- The last log call is made. -/
theorem exists_drained {m : Main}
    (hnames : (m.snapshot.map Prod.fst).Subperm Counters.names)
    (own : String → LogValue) (written : String × ℚ → LogValue) :
    ∃ r, m.drained own written = .ok r ∧ r.levelname = "INFO"
      ∧ r.message = "drained" ∧ r.name = "consumer"
      ∧ r.exception = none := by
  refine ⟨_, if_neg fun hany => ?_, rfl, rfl, rfl, rfl⟩
  obtain ⟨y, hy, hreserved⟩ := List.any_eq_true.mp hany
  obtain ⟨x, hx, rfl⟩ := List.mem_map.mp hy
  exact (free_of_mem_snapshot hnames hx).1 (of_decide_eq_true hreserved)

/-- After any run of the program its last log call is made, and the line
reads back as an object of every metric, with its value, and no other
member but the line's own three. -/
theorem drained_reads_back (steps : List Step) (own : String → LogValue)
    {written : String × ℚ → LogValue}
    (hread : ∀ x, (written x).Readable = true) :
    ∃ r ms, (run config (new config publisher) steps).drained own written
        = .ok r
      ∧ Json.loads (format r) = some (.obj ms)
      ∧ DrainedLine (run config (new config publisher) steps) written ms := by
  have hnames := names_snapshot config publisher steps
  generalize run config (new config publisher) steps = m at hnames ⊢
  obtain ⟨r, hr, hlevel, hmessage, hname, hexception⟩ :=
    exists_drained hnames own written
  have hkeys : (m.snapshot.map fun x => (x.1, written x)).map Prod.fst
      = m.snapshot.map Prod.fst := by
    rw [List.map_map]
    rfl
  have hnodup : ((m.snapshot.map fun x => (x.1, written x)).map
      Prod.fst).Nodup := by
    rw [hkeys]
    exact Counters.nodup_of_subperm hnames (by decide +kernel)
  have hvalues : ∀ y ∈ m.snapshot.map (fun x => (x.1, written x)),
      y.2.Readable = true := by
    intro y hy
    obtain ⟨x, -, rfl⟩ := List.mem_map.mp hy
    exact hread x
  obtain ⟨ms, hline, hwritten⟩ :=
    (made_of_makeRecord hr).reads_back hnodup hvalues
  have habsent : ∀ name ∈ ["severity", "message", "logger", "exception"],
      ∀ y ∈ m.snapshot.map (fun x => (x.1, written x)), y.1 ≠ name := by
    intro name hname y hy hyn
    obtain ⟨x, hx, rfl⟩ := List.mem_map.mp hy
    exact (free_of_mem_snapshot hnames hx).2.2 (hyn ▸ hname)
  refine ⟨r, ms, hr, hline, fun x hx => ?_, ⟨?_, ?_, ?_⟩, fun key hkey => ?_⟩
  · exact hwritten.each _ (List.mem_map_of_mem hx)
      (free_of_mem_snapshot hnames hx).2.1 fun _ => hexception
  · rw [hwritten.severity (habsent _ (by decide)), hlevel]
  · rw [hwritten.message, hmessage]
  · rw [hwritten.logger (habsent _ (by decide)), hname]
  · rcases hwritten.nothingElse key hkey with h | ⟨-, h⟩ | ⟨y, hy, rfl, -⟩
    · exact Or.inl h
    · exact absurd hexception h
    · rw [← hkeys]
      exact Or.inr (List.mem_map_of_mem hy)

/-- A refused connection, and then a flush. -/
theorem drained_reads_back_refusal :
    ∃ r ms, (run { products := ["BTC-USD"] }
        (new { products := ["BTC-USD"] } RecordingPublisher)
        [.consumer .enter, .consumer (.connected false), .consumer .unwind,
          .flush]).drained (fun _ => .other "None") (fun x => .int x.2.num)
        = .ok r
      ∧ Json.loads (format r) = some (.obj ms)
      ∧ DrainedLine (run { products := ["BTC-USD"] }
        (new { products := ["BTC-USD"] } RecordingPublisher)
        [.consumer .enter, .consumer (.connected false), .consumer .unwind,
          .flush]) (fun x => .int x.2.num) ms :=
  drained_reads_back _ _ _ _ fun _ => rfl

end Main

end MarketPlatform.Consumer
