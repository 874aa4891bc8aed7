/-
Reading back what was written.

`loads_dumps`: a textual value — strings, arrays and objects, nested in
any way — survives `dumps` followed by `loads`. The proof follows the
reader.

# Characters

One lemma per character (`scanChar_escape`: a printable character stands
for itself, the seven short escapes, one unit, a surrogate pair) gives
the string body (`scanBody_escaped`). The pair is the one case with an
argument: a character above the basic plane is cut into two units of ten
bits each, and the two halves are ranges that the reader can tell from
any other unit.

# Values

The induction over values then only has to hand down fuel, and the
text's own length is fuel enough at every level, because every token
consumed is a character of it. It is mutual, over a value, the elements
of an array and the members of an object, as the writer and the reader
are. What each step needs besides is which character a text opens with
(`write_head`): no white space is skipped before it, and it is no
closing bracket.
-/
import MarketPlatform.Lib.Json
import Mathlib.Tactic.IntervalCases

namespace MarketPlatform.Lib.Json

-- =========================================================== characters

/-- A hexadecimal digit is read back. -/
theorem hexVal_hexDigit : ∀ n < 16, hexVal (hexDigit n) = some n := by
  decide

/-- One unit is read back. -/
theorem scanUnit_escapeUnit {n : Nat} (hn : n < 65536) (rest : List Char) :
    scanUnit ((escapeUnit n).drop 2 ++ rest) = some (n, rest) := by
  have h₁ := hexVal_hexDigit (n / 4096 % 16) (by omega)
  have h₂ := hexVal_hexDigit (n / 256 % 16) (by omega)
  have h₃ := hexVal_hexDigit (n / 16 % 16) (by omega)
  have h₄ := hexVal_hexDigit (n % 16) (by omega)
  simp only [escapeUnit, List.drop_succ_cons, List.drop_zero,
    List.cons_append, List.nil_append, scanUnit, h₁, h₂, h₃, h₄]
  congr 2
  omega

/-- A unit opens with `\u`. -/
private theorem escapeUnit_eq (n : Nat) :
    escapeUnit n = '\\' :: 'u' :: (escapeUnit n).drop 2 := rfl

/-- A unit is read as an escape. -/
private theorem scanChar_escapeUnit (n : Nat) (rest : List Char) :
    scanChar (escapeUnit n ++ rest)
      = scanUnicode ((escapeUnit n).drop 2 ++ rest) := rfl

/-- A character is a scalar value: no surrogate, below the limit. -/
private theorem scalar (c : Char) :
    c.toNat < 55296 ∨ 57343 < c.toNat ∧ c.toNat < 1114112 := by
  have h := c.valid
  unfold UInt32.isValidChar Nat.isValidChar at h
  rcases h with h | ⟨h₁, h₂⟩
  · exact Or.inl h
  · exact Or.inr ⟨h₁, h₂⟩

/-- A character of the basic plane, escaped as one unit. -/
private theorem scanUnicode_unit {c : Char} (hc : c.toNat < 65536)
    (rest : List Char) :
    scanUnicode ((escapeUnit c.toNat).drop 2 ++ rest) = some (c, rest) := by
  have hvalid := scalar c
  have hhigh : ¬(55296 ≤ c.toNat ∧ c.toNat < 56320) := by omega
  have hlow : ¬(56320 ≤ c.toNat ∧ c.toNat < 57344) := by omega
  simp only [scanUnicode, scanUnit_escapeUnit hc, if_neg hhigh,
    if_neg hlow, Char.ofNat_toNat]

/-- Two units that form a surrogate pair. -/
private theorem scanUnicode_surrogates {hi lo : Nat}
    (hhi : 55296 ≤ hi ∧ hi < 56320) (hlo : 56320 ≤ lo ∧ lo < 57344)
    (rest : List Char) :
    scanUnicode ((escapeUnit hi).drop 2 ++ (escapeUnit lo ++ rest))
      = some (Char.ofNat (65536 + 1024 * (hi - 55296) + (lo - 56320)),
          rest) := by
  have hhi' : hi < 65536 := by omega
  have hlo' : lo < 65536 := by omega
  rw [escapeUnit_eq lo]
  simp only [List.cons_append, scanUnicode, scanUnit_escapeUnit hhi',
    if_pos hhi, scanUnit_escapeUnit hlo', if_pos hlo]

/-- A character above the basic plane, escaped as a surrogate pair. -/
private theorem scanUnicode_pair {c : Char} (hc : 65536 ≤ c.toNat)
    (rest : List Char) :
    scanUnicode
      ((escapeUnit (55296 + (c.toNat - 65536) / 1024)).drop 2
        ++ (escapeUnit (56320 + (c.toNat - 65536) % 1024) ++ rest))
      = some (c, rest) := by
  have hvalid := scalar c
  have hval : 65536 + 1024 * (55296 + (c.toNat - 65536) / 1024 - 55296)
      + (56320 + (c.toNat - 65536) % 1024 - 56320) = c.toNat := by
    omega
  rw [scanUnicode_surrogates (by omega) (by omega), hval,
    Char.ofNat_toNat]

/-- Every character is read back from its escape. The cases are those of
`escape`: the seven with a letter of their own, the printable ones,
which stand for themselves, and the others as one unit of four digits or
as a pair of units. -/
theorem scanChar_escape (c : Char) (rest : List Char) :
    scanChar (escape c ++ rest) = some (c, rest) := by
  unfold escape
  split
  case isTrue h => subst h; rfl
  split
  case isTrue h => subst h; rfl
  split
  case isTrue h => subst h; rfl
  split
  case isTrue h => subst h; rfl
  split
  case isTrue h => subst h; rfl
  split
  case isTrue h =>
    have hc : Char.ofNat 8 = c := by rw [← h, Char.ofNat_toNat]
    rw [← hc]
    rfl
  split
  case isTrue h =>
    have hc : Char.ofNat 12 = c := by rw [← h, Char.ofNat_toNat]
    rw [← hc]
    rfl
  split
  case isTrue hquote hslash _ _ _ _ _ hprint =>
    simp only [List.cons_append, List.nil_append, scanChar]
    rw [if_neg hslash, if_neg (by omega)]
  split
  case isTrue hplane =>
    rw [scanChar_escapeUnit]
    exact scanUnicode_unit hplane rest
  case isFalse hplane =>
    rw [List.append_assoc, scanChar_escapeUnit]
    exact scanUnicode_pair (by omega) rest

/-- An escape is not empty and does not start with a quote. -/
theorem escape_head (c : Char) :
    ∃ d ds, escape c = d :: ds ∧ d ≠ '"' := by
  unfold escape
  split
  · exact ⟨_, _, rfl, by decide⟩
  · rename_i hq
    repeat' split
    all_goals first
      | exact ⟨_, _, rfl, by decide⟩
      | exact ⟨_, _, rfl, hq⟩

/-- A string body is read back up to its closing quote. -/
theorem scanBody_escaped :
    ∀ (cs : List Char) (fuel : Nat) (rest : List Char),
      cs.length < fuel →
      scanBody fuel (cs.flatMap escape ++ '"' :: rest) = some (cs, rest) := by
  intro cs
  induction cs with
  | nil =>
      intro fuel rest hf
      cases fuel with
      | zero => simp at hf
      | succ f => simp [scanBody]
  | cons c cs ih =>
      intro fuel rest hf
      cases fuel with
      | zero => simp at hf
      | succ f =>
          obtain ⟨d, ds, hd, hq⟩ := escape_head c
          have hscan := scanChar_escape c (cs.flatMap escape ++ '"' :: rest)
          rw [hd, List.cons_append] at hscan
          rw [List.flatMap_cons, List.append_assoc, hd, List.cons_append]
          simp only [scanBody]
          rw [if_neg hq, hscan]
          simp only
          rw [ih f rest (by simpa using hf)]
          rfl

-- =============================================================== values

mutual

/-- Built from strings, arrays and objects only. -/
def Textual : Json → Bool
  | .str _ => true
  | .arr xs => TextualElems xs
  | .obj ms => TextualMembers ms
  | _ => false

/-- All elements are textual. -/
def TextualElems : List Json → Bool
  | [] => true
  | x :: xs => Textual x && TextualElems xs

/-- All values of the members are textual. -/
def TextualMembers : List (String × Json) → Bool
  | [] => true
  | (_, v) :: ms => Textual v && TextualMembers ms

end

/-- The text of a textual value opens with a quote or a bracket. -/
theorem write_head {j : Json} (hj : Textual j = true) :
    ∃ d ds, write j = d :: ds ∧ (d = '"' ∨ d = '[' ∨ d = '{') := by
  cases j with
  | str s => exact ⟨_, _, rfl, Or.inl rfl⟩
  | arr xs => exact ⟨_, _, rfl, Or.inr (Or.inl rfl)⟩
  | obj ms => exact ⟨_, _, rfl, Or.inr (Or.inr rfl)⟩
  | null => simp [Textual] at hj
  | bool b => simp [Textual] at hj
  | int n => simp [Textual] at hj
  | float l v => simp [Textual] at hj

/-- A token character is not white space. -/
theorem skip_cons {d : Char} {ds : List Char}
    (hd : isSpace d = false) : skip (d :: ds) = d :: ds := by
  simp [skip, hd]

/-- No white space stands before the text of a textual value. -/
private theorem skip_write {j : Json} (hj : Textual j = true)
    (rest : List Char) : skip (write j ++ rest) = write j ++ rest := by
  obtain ⟨d, ds, hw, hd⟩ := write_head hj
  rw [hw, List.cons_append]
  refine skip_cons ?_
  rcases hd with rfl | rfl | rfl <;> decide

/-- A string's text is longer than the string by its quotes at least. -/
theorem quote_length (s : String) :
    s.toList.length + 2 ≤ (quote s).length := by
  have hflat : ∀ cs : List Char, cs.length ≤ (cs.flatMap escape).length := by
    intro cs
    induction cs with
    | nil => simp
    | cons c cs ih =>
        obtain ⟨d, ds, hd, -⟩ := escape_head c
        rw [List.flatMap_cons, List.length_append, hd, List.length_cons,
          List.length_cons]
        omega
  have h := hflat s.toList
  simp only [quote, List.cons_append, List.length_cons, List.length_append,
    List.length_nil]
  omega

private theorem write_length_pos {j : Json} (hj : Textual j = true) :
    1 ≤ (write j).length := by
  obtain ⟨d, ds, hw, -⟩ := write_head hj
  simp [hw]

private theorem writeElems_head {x : Json} (xs : List Json)
    (hx : Textual x = true) :
    ∃ d ds, writeElems (x :: xs) = d :: ds
      ∧ (d = '"' ∨ d = '[' ∨ d = '{') := by
  obtain ⟨d, ds, hw, hd⟩ := write_head hx
  cases xs with
  | nil => exact ⟨d, ds, by simp [writeElems, hw], hd⟩
  | cons y ys => exact ⟨d, _, by simp [writeElems, hw]; rfl, hd⟩

/-- The members of an object open with the quote of the first name. -/
theorem writeMembers_head (k : String) (v : Json)
    (ms : List (String × Json)) :
    ∃ ds, writeMembers ((k, v) :: ms) = '"' :: ds := by
  cases ms with
  | nil => exact ⟨_, rfl⟩
  | cons m ms => exact ⟨_, rfl⟩

mutual

/-- A textual value is read back, whatever follows it. By mutual
recursion with the elements of an array and the members of an object:
the reader sees the first character of the text, decides by it what to
read, and goes on where the part's own text ends. -/
theorem read_write : ∀ (j : Json) (fuel : Nat) (rest : List Char),
    Textual j = true → (write j).length ≤ fuel →
    read fuel (write j ++ rest) = some (j, rest)
  | .str s, fuel, rest, _, hf => by
      have hlen := quote_length s
      simp only [write] at hf ⊢
      match fuel with
      | 0 => omega
      | f + 1 =>
          simp only [quote, List.cons_append, List.append_assoc,
            List.nil_append, read]
          rw [if_pos trivial, scanBody_escaped s.toList f rest (by omega)]
          simp [String.ofList_toList]
  | .arr [], fuel, rest, _, hf => by
      match fuel with
      | 0 => simp [write] at hf
      | f + 1 => simp [write, writeElems, read, skip_cons (d := ']') rfl]
  | .arr (x :: xs), fuel, rest, hj, hf => by
      simp only [Textual, TextualElems, Bool.and_eq_true] at hj
      match fuel with
      | 0 => simp [write] at hf
      | f + 1 =>
          have hlen : (writeElems (x :: xs)).length + 1 ≤ f := by
            simp only [write, List.cons_append, List.length_cons,
              List.length_append, List.length_nil] at hf
            omega
          have ih := readElems_write (x :: xs) f rest (by simp)
            (by simp [TextualElems, hj]) hlen
          obtain ⟨d, ds, hw, hd⟩ := writeElems_head xs hj.1
          have hspace : isSpace d = false := by
            rcases hd with rfl | rfl | rfl <;> decide
          have hclose : d ≠ ']' := by
            rcases hd with rfl | rfl | rfl <;> decide
          rw [hw, List.cons_append] at ih
          simp only [write, List.cons_append, List.append_assoc,
            List.nil_append, read]
          rw [if_neg (by decide), if_pos trivial, hw, List.cons_append,
            skip_cons hspace]
          simp only
          rw [if_neg hclose, ih]
          rfl
  | .obj [], fuel, rest, _, hf => by
      match fuel with
      | 0 => simp [write] at hf
      | f + 1 => simp [write, writeMembers, read, skip_cons (d := '}') rfl]
  | .obj ((k, v) :: ms), fuel, rest, hj, hf => by
      simp only [Textual, TextualMembers, Bool.and_eq_true] at hj
      match fuel with
      | 0 => simp [write] at hf
      | f + 1 =>
          have hlen : (writeMembers ((k, v) :: ms)).length + 1 ≤ f := by
            simp only [write, List.cons_append, List.length_cons,
              List.length_append, List.length_nil] at hf
            omega
          have ih := readMembers_write ((k, v) :: ms) f rest (by simp)
            (by simp [TextualMembers, hj]) hlen
          obtain ⟨ds, hw⟩ := writeMembers_head k v ms
          rw [hw, List.cons_append] at ih
          simp only [write, List.cons_append, List.append_assoc,
            List.nil_append, read]
          rw [if_neg (by decide), if_neg (by decide), if_pos trivial, hw,
            List.cons_append, skip_cons (by decide)]
          simp only
          rw [if_neg (by decide), ih]
          rfl

/-- Array elements are read back up to the closing bracket. The fuel
that one element takes is paid for by its own text. -/
theorem readElems_write : ∀ (xs : List Json) (fuel : Nat) (rest : List Char),
    xs ≠ [] → TextualElems xs = true → (writeElems xs).length + 1 ≤ fuel →
    readElems fuel (writeElems xs ++ ']' :: rest) = some (xs, rest)
  | [], _, _, hne, _, _ => absurd rfl hne
  | [x], fuel, rest, _, hj, hf => by
      simp only [TextualElems, Bool.and_true] at hj
      match fuel with
      | 0 => omega
      | f + 1 =>
          simp only [writeElems] at hf ⊢
          simp only [readElems]
          rw [read_write x f _ hj (by omega)]
          simp only
          rw [skip_cons (by decide)]
          simp
  | x :: y :: xs, fuel, rest, _, hj, hf => by
      have hj' : Textual x = true ∧ TextualElems (y :: xs) = true := by
        simpa [TextualElems] using hj
      have hy : Textual y = true := by
        have := hj'.2
        simp only [TextualElems, Bool.and_eq_true] at this
        exact this.1
      match fuel with
      | 0 => omega
      | f + 1 =>
          have hlen : (write x).length + (writeElems (y :: xs)).length + 2
              ≤ f + 1 := by
            simp only [writeElems, List.length_append,
              List.length_cons] at hf ⊢
            omega
          have hpos := write_length_pos hj'.1
          have ih := readElems_write (y :: xs) f rest (by simp) hj'.2
            (by omega)
          obtain ⟨d, ds, hw, hd⟩ := writeElems_head xs hy
          have hspace : isSpace d = false := by
            rcases hd with rfl | rfl | rfl <;> decide
          have hstep : writeElems (x :: y :: xs)
              = write x ++ ',' :: writeElems (y :: xs) := rfl
          rw [hstep, List.append_assoc, List.cons_append]
          simp only [readElems]
          rw [read_write x f _ hj'.1 (by omega)]
          simp only
          rw [skip_cons (by decide)]
          simp only
          rw [if_neg (by decide), if_pos trivial, hw, List.cons_append,
            skip_cons hspace]
          rw [hw, List.cons_append] at ih
          rw [ih]
          rfl

/-- Object members are read back up to the closing brace. After a member
the next character is a comma or the brace; no name and no value can
begin with either, so nothing is skipped. -/
theorem readMembers_write :
    ∀ (ms : List (String × Json)) (fuel : Nat) (rest : List Char),
    ms ≠ [] → TextualMembers ms = true →
    (writeMembers ms).length + 1 ≤ fuel →
    readMembers fuel (writeMembers ms ++ '}' :: rest) = some (ms, rest)
  | [], _, _, hne, _, _ => absurd rfl hne
  | [(k, v)], fuel, rest, _, hj, hf => by
      simp only [TextualMembers, Bool.and_true] at hj
      have hq := quote_length k
      match fuel with
      | 0 => omega
      | f + 1 =>
          simp only [writeMembers, List.length_append,
            List.length_cons] at hf
          simp only [writeMembers, quote, List.cons_append,
            List.append_assoc, List.nil_append, readMembers]
          rw [if_neg (by simp), scanBody_escaped k.toList f _ (by omega)]
          simp only
          rw [skip_cons (by decide)]
          simp only
          rw [if_neg (by simp), skip_write hj,
            read_write v f _ hj (by omega)]
          simp only
          rw [skip_cons (by decide)]
          simp [String.ofList_toList]
  | (k, v) :: m :: ms, fuel, rest, _, hj, hf => by
      have hj' : Textual v = true ∧ TextualMembers (m :: ms) = true := by
        simpa [TextualMembers] using hj
      have hq := quote_length k
      match fuel with
      | 0 => omega
      | f + 1 =>
          have hlen : (quote k).length + (write v).length
              + (writeMembers (m :: ms)).length + 3 ≤ f + 1 := by
            simp only [writeMembers, List.length_append,
              List.length_cons] at hf ⊢
            omega
          have ih := readMembers_write (m :: ms) f rest (by simp) hj'.2
            (by omega)
          obtain ⟨ds, hw⟩ := writeMembers_head m.1 m.2 ms
          have hstep : writeMembers ((k, v) :: m :: ms)
              = quote k ++ ':' :: write v
                ++ ',' :: writeMembers (m :: ms) := rfl
          rw [hstep]
          simp only [quote, List.cons_append, List.append_assoc,
            List.nil_append, readMembers]
          rw [if_neg (by simp), scanBody_escaped k.toList f _ (by omega)]
          simp only
          rw [skip_cons (by decide)]
          simp only
          rw [if_neg (by simp), skip_write hj'.1,
            read_write v f _ hj'.1 (by omega)]
          simp only
          rw [skip_cons (by decide)]
          simp only
          rw [if_neg (by decide), if_pos trivial, hw, List.cons_append,
            skip_cons (by decide)]
          rw [hw, List.cons_append] at ih
          rw [ih]
          simp [String.ofList_toList]

end

/-- The text of a textual value reads back as the value. -/
theorem loads_dumps {j : Json} (hj : Textual j = true) :
    loads (dumps j) = some j := by
  have hskip := skip_write hj []
  have hread := read_write j ((write j).length + 1) [] hj (by omega)
  rw [List.append_nil] at hskip hread
  simp only [loads, dumps, String.toList_ofList, hskip, hread]
  rfl

end MarketPlatform.Lib.Json
