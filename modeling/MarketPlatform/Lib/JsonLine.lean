/-
The default text of a flat object, and reading it back.

# A dict that is written to

`setMember` is the assignment of one item of a dict: in place if the key
is there, else at the end. `update` makes the assignments of a list, the
last about a key being the one that counts (`lookup_update`). In a list
in which no name stands twice a member is what its name looks up
(`lookup_of_mem`), so for such a list "written" and "read under this
name" are one.

# The line

`json.dumps` with its default separators writes a blank after each comma
and each colon. Of a flat object — strings, integers, booleans and
floats that are numbers — the reader takes it back whole
(`loads_dumpsLine`): a scalar ends where a comma or the closing brace
stands, and the blanks are skipped. The induction is on the members,
with the fuel of the reader bounded by what is left of the text; one
step of it is `readMembers_spaced`.
-/
import MarketPlatform.Lib.JsonRecord

namespace MarketPlatform.Lib.Json

open Numeral

-- =================================================================== dicts

/-- `ms[key] = value`: in place, or at the end. -/
def setMember (key : String) (value : Json) (ms : List (String × Json)) :
    List (String × Json) :=
  if key ∈ ms.map Prod.fst then
    ms.map fun m => if m.1 = key then (key, value) else m
  else ms ++ [(key, value)]

/-- The last member decides, if it has the name. -/
theorem lookup_concat (key : String) (ms : List (String × Json))
    (m : String × Json) :
    lookup key (ms ++ [m]) = if m.1 = key then some m.2 else lookup key ms := by
  unfold lookup
  rw [List.reverse_append, List.reverse_singleton, List.singleton_append,
    List.find?_cons]
  by_cases h : m.1 = key
  · simp [h]
  · simp [h]

/-- Only a name that no member has looks up nothing. -/
theorem lookup_eq_none_iff {key : String} {ms : List (String × Json)} :
    lookup key ms = none ↔ key ∉ ms.map Prod.fst := by
  rw [lookup, Option.map_eq_none_iff, List.find?_eq_none]
  simp only [List.mem_reverse, decide_eq_true_eq, List.mem_map, not_exists,
    not_and]

/-- Members set in place. -/
theorem lookup_replace (key key' : String) (value : Json)
    (ms : List (String × Json)) :
    lookup key' (ms.map fun m => if m.1 = key then (key, value) else m)
      = if key' = key then (lookup key ms).map fun _ => value
        else lookup key' ms := by
  induction ms using List.reverseRecOn with
  | nil =>
      split
      · rfl
      · rfl
  | append_singleton ms m ih =>
      rw [List.map_append, List.map_singleton, lookup_concat, ih,
        lookup_concat, lookup_concat]
      by_cases hm : m.1 = key
      · by_cases hk : key' = key
        · simp [hm, hk]
        · simp [hm, hk, Ne.symm hk]
      · by_cases hk : key' = key
        · simp [hm, hk]
        · simp [hm, hk]

/-- Setting a member changes that member only. -/
theorem lookup_setMember (key key' : String) (value : Json)
    (ms : List (String × Json)) :
    lookup key' (setMember key value ms)
      = if key' = key then some value else lookup key' ms := by
  unfold setMember
  split
  · next hmem =>
      obtain ⟨v, hv⟩ := Option.ne_none_iff_exists'.mp
        (mt lookup_eq_none_iff.mp (not_not_intro hmem))
      rw [lookup_replace, hv]
      rfl
  · next hmem =>
      rw [lookup_concat]
      by_cases hk : key' = key
      · rw [if_pos hk.symm, if_pos hk]
      · rw [if_neg (Ne.symm hk), if_neg hk]

/-- A member that is set is one of the members. -/
theorem mem_setMember {key : String} {value : Json}
    {ms : List (String × Json)} {m : String × Json}
    (h : m ∈ setMember key value ms) : m = (key, value) ∨ m ∈ ms := by
  unfold setMember at h
  split at h
  · obtain ⟨m', hm', rfl⟩ := List.mem_map.mp h
    split
    · exact Or.inl rfl
    · exact Or.inr hm'
  · rcases List.mem_append.mp h with h | h
    · exact Or.inr h
    · exact Or.inl (List.mem_singleton.mp h)

/-- `ms.update(fields)`. -/
def update (ms fields : List (String × Json)) : List (String × Json) :=
  fields.foldl (fun ms m => setMember m.1 m.2 ms) ms

/-- One more assignment. -/
theorem update_concat (ms fields : List (String × Json))
    (m : String × Json) :
    update ms (fields ++ [m]) = setMember m.1 m.2 (update ms fields) := by
  rw [update, List.foldl_append]
  rfl

/-- What is updated is as in the fields, the rest as it was. -/
theorem lookup_update (key : String) (ms fields : List (String × Json)) :
    lookup key (update ms fields)
      = (lookup key fields).or (lookup key ms) := by
  induction fields using List.reverseRecOn with
  | nil => rfl
  | append_singleton fields m ih =>
      rw [update_concat, lookup_setMember, lookup_concat, ih]
      by_cases hm : m.1 = key
      · rw [if_pos hm.symm, if_pos hm]
        rfl
      · rw [if_neg (Ne.symm hm), if_neg hm]

/-- A member after the assignments was there or is one of them. -/
theorem mem_update {ms fields : List (String × Json)} {m : String × Json}
    (h : m ∈ update ms fields) : m ∈ ms ∨ m ∈ fields := by
  induction fields using List.reverseRecOn with
  | nil => exact Or.inl h
  | append_singleton fields m' ih =>
      rw [update_concat] at h
      rcases mem_setMember h with rfl | h
      · exact Or.inr (List.mem_append_right _ List.mem_cons_self)
      · rcases ih h with h | h
        · exact Or.inl h
        · exact Or.inr (List.mem_append_left _ h)

/-- With no name twice, a member is what its name looks up. -/
theorem lookup_of_mem {ms : List (String × Json)}
    (hnodup : (ms.map Prod.fst).Nodup) {m : String × Json} (h : m ∈ ms) :
    lookup m.1 ms = some m.2 := by
  cases hfind : ms.reverse.find? (fun m' => m'.1 = m.1) with
  | none =>
      have hnone := List.find?_eq_none.mp hfind m (List.mem_reverse.mpr h)
      simp at hnone
  | some m' =>
      have hkey := List.find?_some hfind
      rw [decide_eq_true_eq] at hkey
      have hmem : m' ∈ ms :=
        List.mem_reverse.mp (List.mem_of_find?_eq_some hfind)
      obtain rfl := List.inj_on_of_nodup_map hnodup hmem h hkey
      rw [lookup, hfind, Option.map_some]

-- ================================================================== values

/-- A literal with a point or an exponent, and the number it says. -/
def isFloatText (literal : String) (value : Option ℚ) : Bool :=
  literal.toList.all isNumeralChar && validNumber literal.toList
    && (literal.toList.any fun c => c = '.' || c = 'e' || c = 'E')
    && value.isSome && decide (parse literal.toList = value)

/-- A string, an integer, a boolean, or a float that is a number. -/
def Flat : Json → Bool
  | .str _ => true
  | .int _ => true
  | .bool _ => true
  | .float literal value => isFloatText literal value
  | _ => false

/-- The reader takes a float whole and finds its value. -/
theorem scanNumber_float {literal : String} {value : Option ℚ}
    (h : isFloatText literal value = true) {rest : List Char}
    (hrest : Ends rest) :
    scanNumber (literal.toList ++ rest)
      = some (.float literal value, rest) := by
  simp only [isFloatText, Bool.and_eq_true, decide_eq_true_eq,
    List.all_eq_true] at h
  obtain ⟨⟨⟨⟨hall, hvalid⟩, hpoint⟩, hsome⟩, hparse⟩ := h
  have htake : (literal.toList ++ rest).takeWhile isNumeralChar
      = literal.toList := by
    rw [List.takeWhile_append_of_pos hall]
    cases rest with
    | nil => simp
    | cons c cs => simp [hrest c rfl]
  have hdrop : (literal.toList ++ rest).dropWhile isNumeralChar = rest := by
    rw [List.dropWhile_append_of_pos hall]
    cases rest with
    | nil => simp
    | cons c cs => simp [hrest c rfl]
  obtain ⟨q, rfl⟩ := Option.isSome_iff_exists.mp hsome
  unfold scanNumber
  simp only [htake, hdrop, hvalid, hparse, hpoint]
  simp [String.ofList_toList]

/-- A number opens with a digit or a minus sign. -/
theorem head_of_isFloatText {literal : String} {value : Option ℚ}
    (h : isFloatText literal value = true) :
    ∃ d ds, literal.toList = d :: ds ∧ (d = '-' ∨ d.isDigit = true) := by
  simp only [isFloatText, Bool.and_eq_true] at h
  obtain ⟨⟨⟨⟨-, hvalid⟩, -⟩, -⟩, -⟩ := h
  cases hcs : literal.toList with
  | nil =>
      rw [hcs] at hvalid
      cases hvalid
  | cons d ds =>
      refine ⟨d, ds, rfl, ?_⟩
      by_cases hminus : d = '-'
      · exact Or.inl hminus
      · refine Or.inr ?_
        rw [hcs] at hvalid
        unfold validNumber at hvalid
        simp only [List.head?_cons, Option.some.injEq, hminus, if_false,
          Bool.and_eq_true] at hvalid
        by_contra hdigit
        have hnone : digit? d = none := if_neg (by simpa using hdigit)
        simp [spanDigits, hnone] at hvalid

/-- What opens a number is read as one. -/
theorem read_number {d : Char} {ds : List Char} {fuel : Nat}
    (hd : d = '-' ∨ d.isDigit = true) (hf : (d :: ds).length ≤ fuel) :
    read fuel (d :: ds) = scanNumber (d :: ds) := by
  obtain ⟨-, hquote, hbracket, hbrace, hn, ht, hf'⟩ := of_int_head hd
  cases fuel with
  | zero => simp at hf
  | succ f =>
      rw [read, if_neg hquote, if_neg hbracket, if_neg hbrace]
      simp only [List.isPrefixOf, hn.symm, ht.symm, hf'.symm, beq_iff_eq,
        Bool.and_eq_true, false_and, if_false]

/-- The text of a flat value opens with no blank. -/
theorem skip_flat {j : Json} (hj : Flat j = true) (rest : List Char) :
    skip (write j ++ rest) = write j ++ rest := by
  cases j with
  | str s => exact skip_cons rfl
  | int n => exact skip_scalar (j := .int n) rfl rest
  | bool b =>
      cases b
      · exact skip_cons rfl
      · exact skip_cons rfl
  | float literal value =>
      obtain ⟨d, ds, hw, hd⟩ := head_of_isFloatText hj
      rw [write, hw, List.cons_append]
      exact skip_cons (of_int_head hd).1
  | _ => cases hj

/-- A flat value is read back, when no number goes on after it. -/
theorem read_flat {j : Json} (hj : Flat j = true) {fuel : Nat}
    {rest : List Char} (hf : (write j ++ rest).length ≤ fuel)
    (hrest : Ends rest) : read fuel (write j ++ rest) = some (j, rest) := by
  have hlen : (write j).length ≤ fuel := by
    rw [List.length_append] at hf
    omega
  cases j with
  | str s => exact read_scalar (j := .str s) rfl hlen hrest
  | int n => exact read_scalar (j := .int n) rfl hlen hrest
  | bool b =>
      cases fuel with
      | zero => cases b <;> simp [write] at hlen
      | succ f => cases b <;> rfl
  | float literal value =>
      have hscan := scanNumber_float hj hrest
      obtain ⟨d, ds, hw, hd⟩ := head_of_isFloatText hj
      rw [write] at hf ⊢
      rw [hw, List.cons_append] at hf hscan ⊢
      rw [read_number hd hf, hscan]
  | _ => cases hj

-- ==================================================================== lines

/-- Members of an object, with a blank after each comma and colon. -/
def writeSpaced : List (String × Json) → List Char
  | [] => []
  | [(k, v)] => quote k ++ ':' :: ' ' :: write v
  | (k, v) :: m :: ms =>
      quote k ++ ':' :: ' ' :: write v ++ ',' :: ' ' :: writeSpaced (m :: ms)

/-- `json.dumps` of a flat object, with the default separators. -/
def dumpsLine (ms : List (String × Json)) : String :=
  String.ofList ('{' :: writeSpaced ms ++ ['}'])

/-- The members of a line open with the quote of the first name. -/
theorem writeSpaced_head (m : String × Json) (ms : List (String × Json)) :
    ∃ ds, writeSpaced (m :: ms) = '"' :: ds := by
  cases ms with
  | nil => exact ⟨_, rfl⟩
  | cons m' ms => exact ⟨_, rfl⟩

/-- One member, and what follows it, is read. -/
theorem readMembers_spaced {k : String} {v : Json} (hv : Flat v = true)
    {f : Nat} {d : Char} {ds : List Char}
    (hf : (quote k).length + (write v ++ d :: ds).length ≤ f)
    (hd : isNumeralChar d = false) (hspace : isSpace d = false) :
    readMembers (f + 1) (quote k ++ ':' :: ' ' :: (write v ++ d :: ds))
      = if d = '}' then some ([(k, v)], ds)
        else if d = ',' then
          (readMembers f (skip ds)).map fun r => ((k, v) :: r.1, r.2)
        else none := by
  have hq := quote_length k
  have hblank : skip (' ' :: (write v ++ d :: ds)) = write v ++ d :: ds :=
    skip_flat hv (d :: ds)
  simp only [quote, List.cons_append, List.append_assoc, List.nil_append,
    readMembers]
  rw [if_neg (by simp), scanBody_escaped k.toList f _ (by omega)]
  simp only
  rw [skip_cons (by decide)]
  simp only
  rw [if_neg (by simp), hblank, read_flat hv (by omega) (ends_cons ds hd)]
  simp only
  rw [skip_cons hspace]
  simp only [String.ofList_toList]

/-- The members of a line are read back up to the closing brace. By
induction on the members; after each comes a comma and a blank, or the
brace. -/
theorem readMembers_writeSpaced (ms : List (String × Json)) (hne : ms ≠ [])
    (hms : ∀ m ∈ ms, Flat m.2 = true) (fuel : Nat) (rest : List Char)
    (hf : (writeSpaced ms ++ '}' :: rest).length < fuel) :
    readMembers fuel (writeSpaced ms ++ '}' :: rest) = some (ms, rest) := by
  induction ms generalizing fuel with
  | nil => exact absurd rfl hne
  | cons m ms ih =>
      obtain ⟨k, v⟩ := m
      obtain ⟨hv, hms⟩ := List.forall_mem_cons.mp hms
      have hv : Flat v = true := hv
      cases fuel with
      | zero => omega
      | succ f =>
          cases ms with
          | nil =>
              simp only [writeSpaced, List.append_assoc, List.cons_append,
                List.length_append, List.length_cons] at hf ⊢
              rw [readMembers_spaced hv (by
                simp only [List.length_append, List.length_cons]
                omega) (by decide) (by decide), if_pos rfl]
          | cons m ms =>
              have hw : writeSpaced ((k, v) :: m :: ms)
                  = quote k ++ ':' :: ' ' :: write v
                    ++ ',' :: ' ' :: writeSpaced (m :: ms) := rfl
              rw [hw] at hf ⊢
              simp only [List.append_assoc, List.cons_append,
                List.length_append, List.length_cons] at hf ⊢
              have hrest := ih (by simp) hms f (by
                simp only [List.length_append, List.length_cons]
                omega)
              obtain ⟨ds, hds⟩ := writeSpaced_head m ms
              have hblank : skip (' ' :: (writeSpaced (m :: ms)
                  ++ '}' :: rest)) = writeSpaced (m :: ms) ++ '}' :: rest := by
                rw [hds]
                rfl
              rw [readMembers_spaced hv (by
                simp only [List.length_append, List.length_cons]
                omega) (by decide) (by decide), if_neg (by decide),
                if_pos rfl, hblank, hrest]
              rfl

/-- The line of a flat object reads back as the object. -/
theorem loads_dumpsLine {ms : List (String × Json)} (hne : ms ≠ [])
    (hms : ∀ m ∈ ms, Flat m.2 = true) :
    loads (dumpsLine ms) = some (.obj ms) := by
  obtain ⟨m, ms, rfl⟩ := List.exists_cons_of_ne_nil hne
  obtain ⟨ds, hds⟩ := writeSpaced_head m ms
  have hmembers := readMembers_writeSpaced (m :: ms) hne hms
    ((writeSpaced (m :: ms)).length + 2) [] (by
      simp only [List.length_append, List.length_singleton]
      omega)
  have hskip : skip ('{' :: (writeSpaced (m :: ms) ++ ['}']))
      = '{' :: (writeSpaced (m :: ms) ++ ['}']) := skip_cons (by decide)
  simp only [loads, dumpsLine, String.toList_ofList, List.cons_append,
    hskip, List.length_cons, List.length_append, List.length_nil]
  rw [read, if_neg (by decide), if_neg (by decide), if_pos rfl]
  rw [hds, List.cons_append] at hmembers ⊢
  rw [skip_cons (by decide)]
  simp only
  rw [if_neg (by decide), hmembers]
  rfl

end MarketPlatform.Lib.Json
