/-
Reading back a record: an object of strings and integers.

# Integers

An integer is written with no leading zero, so the reader takes it whole
and finds its value (`scanNumber_int`), provided that what follows is no
part of a number (`Ends`); inside an object a comma or a brace follows.
The proof goes through the literal: its characters are those of a number
(`takeWhile_int`), it has the shape of one (`validNumber_write_int`),
and it parses to the integer (`parse_write_int`), the digits by the
inverse that the library has for them.

# Records

So an object whose members are strings and integers survives `dumps`
followed by `loads` (`loads_dumps_record`). The induction is on the
members; one member and the character after it are `readMembers_step`.
-/
import MarketPlatform.Lib.JsonText

namespace MarketPlatform.Lib.Json

open Numeral

-- ================================================================= integers

/-- What no number goes on with. -/
def Ends (rest : List Char) : Prop :=
  ∀ c, rest.head? = some c → isNumeralChar c = false

/-- The value of a digit. -/
theorem digit?_of_isDigit {c : Char} (h : c.isDigit = true) :
    digit? c = some (c.toNat - 48) := if_pos h

/-- A run of digits, and what follows it. -/
theorem spanDigits_append {cs rest : List Char}
    (hcs : ∀ c ∈ cs, c.isDigit = true)
    (hrest : ∀ c, rest.head? = some c → c.isDigit = false) :
    spanDigits (cs ++ rest) = (cs.map fun c => c.toNat - 48, rest) := by
  induction cs with
  | nil =>
      cases rest with
      | nil => rfl
      | cons c cs =>
          have hc : digit? c = none := if_neg (by simp [hrest c rfl])
          simp only [List.nil_append, spanDigits, hc, List.map_nil]
  | cons c cs ih =>
      obtain ⟨hc, hcs⟩ := List.forall_mem_cons.mp hcs
      simp only [List.cons_append, spanDigits, digit?_of_isDigit hc, ih hcs,
        List.map_cons]

/-- The digits of a number are digits. -/
theorem isDigit_toDigits (n : Nat) :
    ∀ c ∈ Nat.toDigits 10 n, c.isDigit = true :=
  fun _ hc => Nat.isDigit_of_mem_toDigits (by decide) (by decide) hc

/-- The reader takes the digits of a number whole. -/
theorem spanDigits_toDigits (n : Nat) :
    spanDigits (Nat.toDigits 10 n)
      = ((Nat.toDigits 10 n).map fun c => c.toNat - 48, []) := by
  have h := spanDigits_append (isDigit_toDigits n)
    (fun (c : Char) (hc : [].head? = some c) => nomatch hc)
  rwa [List.append_nil] at h

/-- And finds the number. -/
theorem ofDigits_toDigits (n : Nat) :
    ofDigits ((Nat.toDigits 10 n).map fun c => c.toNat - 48) = n := by
  have h := Nat.ofDigitChars_ten_toDigits (n := n)
  rw [Nat.ofDigitChars_eq_foldl] at h
  rw [ofDigits, List.foldl_map]
  exact h

/-- No leading zero. -/
theorem toDigits_head (n : Nat) :
    (Nat.toDigits 10 n).length = 1
      ∨ ∃ c cs, Nat.toDigits 10 n = c :: cs ∧ c.toNat - 48 ≠ 0 := by
  induction n using Nat.strongRecOn with
  | ind n ih =>
      rcases Nat.lt_or_ge n 10 with hlt | hge
      · rw [Nat.toDigits_of_lt_base hlt]
        exact Or.inl rfl
      · rw [Nat.toDigits_of_base_le (by decide) hge]
        refine Or.inr ?_
        rcases Nat.lt_or_ge (n / 10) 10 with hlt' | hge'
        · rw [Nat.toDigits_of_lt_base hlt']
          refine ⟨_, _, rfl, ?_⟩
          rw [Nat.toNat_digitChar_sub_48_of_lt_ten hlt']
          omega
        · rcases ih (n / 10) (by omega) with hone | ⟨c, cs, heq, hc⟩
          · rw [Nat.toDigits_of_base_le (by decide) hge'] at hone
            have hpos := Nat.length_toDigits_pos (b := 10) (n := n / 10 / 10)
            simp only [List.length_append, List.length_singleton] at hone
            omega
          · exact ⟨c, cs ++ [(n % 10).digitChar], by rw [heq]; rfl, hc⟩

/-- The text of an integer: a sign, if any, and the digits. -/
theorem write_int (n : Int) :
    write (.int n)
      = (if 0 ≤ n then [] else ['-']) ++ Nat.toDigits 10 n.natAbs := by
  rw [write, Int.toString_eq_repr, Int.repr_eq_if]
  by_cases hn : 0 ≤ n
  · obtain ⟨k, rfl⟩ := Int.eq_ofNat_of_zero_le hn
    simp
  · have habs : (-n).toNat = n.natAbs := by omega
    simp [hn, habs]

/-- A digit may stand in a number. -/
theorem numeral_of_isDigit {c : Char} (h : c.isDigit = true) :
    isNumeralChar c = true := by
  simp [isNumeralChar, h]

/-- The literal of an integer is taken whole. -/
theorem takeWhile_int (n : Int) {rest : List Char} (hrest : Ends rest) :
    (write (.int n) ++ rest).takeWhile isNumeralChar = write (.int n)
      ∧ (write (.int n) ++ rest).dropWhile isNumeralChar = rest := by
  have hall : ∀ c ∈ write (.int n), isNumeralChar c = true := by
    intro c hc
    rw [write_int] at hc
    rcases List.mem_append.mp hc with hc | hc
    · split at hc
      · cases hc
      · rw [List.mem_singleton.mp hc]
        rfl
    · exact numeral_of_isDigit (isDigit_toDigits _ c hc)
  rw [List.takeWhile_append_of_pos hall, List.dropWhile_append_of_pos hall]
  cases rest with
  | nil => simp
  | cons c cs => simp [hrest c rfl]

/-- The digits have no sign and no exponent. -/
theorem parseUnsigned_toDigits (n : Nat) :
    parseUnsigned (Nat.toDigits 10 n) = some (n : ℚ) := by
  have hne : (Nat.toDigits 10 n).map (fun c => c.toNat - 48) ++ [] ≠ [] := by
    simp
  unfold parseUnsigned
  simp only [spanDigits_toDigits, spanFraction, if_neg hne]
  simp [parseExponent, scale, ofDigits_toDigits]

/-- The digits of a number have no sign. -/
theorem spanSign_toDigits (n : Nat) :
    spanSign (Nat.toDigits 10 n) = (1, Nat.toDigits 10 n) := by
  have hdigit := isDigit_toDigits n
  cases hcs : Nat.toDigits 10 n with
  | nil => exact absurd hcs Nat.toDigits_ne_nil
  | cons c cs =>
      rw [hcs] at hdigit
      have hc := hdigit c List.mem_cons_self
      unfold spanSign
      split
      · next heq =>
          rw [(List.cons.inj heq).1] at hc
          cases hc
      · next heq =>
          rw [(List.cons.inj heq).1] at hc
          cases hc
      · rfl

/-- The literal of an integer says the integer. -/
theorem parse_write_int (n : Int) :
    parse (write (.int n)) = some (n : ℚ) := by
  rw [write_int]
  by_cases hn : 0 ≤ n
  · obtain ⟨k, rfl⟩ := Int.eq_ofNat_of_zero_le hn
    rw [if_pos hn, List.nil_append, Int.natAbs_natCast, parse,
      spanSign_toDigits, parseUnsigned_toDigits]
    simp
  · have hcast : ((-1 : Int) : ℚ) * (n.natAbs : ℚ) = n := by
      have habs : (n.natAbs : Int) = -n := by omega
      have hcast : ((n.natAbs : Nat) : ℚ) = ((n.natAbs : Int) : ℚ) := by
        simp
      rw [hcast, habs]
      push_cast
      ring
    rw [if_neg hn, List.singleton_append, parse]
    simp only [spanSign, parseUnsigned_toDigits, Option.map_some]
    rw [hcast]

/-- The literal of an integer has the shape of a number. -/
theorem validNumber_write_int (n : Int) :
    validNumber (write (.int n)) = true := by
  have hbody : (if (write (.int n)).head? = some '-' then
      (write (.int n)).tail else write (.int n))
      = Nat.toDigits 10 n.natAbs := by
    rw [write_int]
    by_cases hn : 0 ≤ n
    · have hhead : (Nat.toDigits 10 n.natAbs).head? ≠ some '-' := by
        intro hhead
        have hmem := List.mem_of_mem_head? hhead
        cases isDigit_toDigits n.natAbs '-' hmem
      rw [if_pos hn, List.nil_append, if_neg hhead]
    · rw [if_neg hn]
      rfl
  unfold validNumber
  simp only [hbody, spanDigits_toDigits]
  rcases toDigits_head n.natAbs with hone | ⟨c, cs, heq, hc⟩
  · simp [hone]
  · simp [heq, hc]

/-- The reader takes an integer whole and finds its value. -/
theorem scanNumber_int (n : Int) {rest : List Char} (hrest : Ends rest) :
    scanNumber (write (.int n) ++ rest) = some (.int n, rest) := by
  have hpoint : ((write (.int n)).any
      fun c => c = '.' || c = 'e' || c = 'E') = false := by
    rw [List.any_eq_false, write_int]
    intro c hc
    rcases List.mem_append.mp hc with hc | hc
    · split at hc
      · cases hc
      · rw [List.mem_singleton.mp hc]
        decide
    · have hdigit := isDigit_toDigits _ c hc
      intro hsome
      simp only [Bool.or_eq_true, decide_eq_true_eq] at hsome
      rcases hsome with (rfl | rfl) | rfl <;> cases hdigit
  obtain ⟨htake, hdrop⟩ := takeWhile_int n hrest
  unfold scanNumber
  simp only [htake, hdrop, validNumber_write_int, parse_write_int, hpoint]
  simp

-- ================================================================= records

/-- A string or an integer. -/
def Scalar : Json → Bool
  | .str _ => true
  | .int _ => true
  | _ => false

/-- The text of an integer opens with a digit or a minus sign. -/
theorem write_int_head (n : Int) :
    ∃ d ds, write (.int n) = d :: ds ∧ (d = '-' ∨ d.isDigit = true) := by
  rw [write_int]
  by_cases hn : 0 ≤ n
  · cases hcs : Nat.toDigits 10 n.natAbs with
    | nil => exact absurd hcs Nat.toDigits_ne_nil
    | cons d ds =>
        refine ⟨d, ds, by rw [if_pos hn]; rfl, Or.inr ?_⟩
        exact isDigit_toDigits n.natAbs d (hcs ▸ List.mem_cons_self)
  · exact ⟨'-', _, by rw [if_neg hn]; rfl, Or.inl rfl⟩

/-- What opens an integer opens nothing else. -/
theorem of_int_head {d : Char} (h : d = '-' ∨ d.isDigit = true) :
    isSpace d = false ∧ d ≠ '"' ∧ d ≠ '[' ∧ d ≠ '{' ∧ d ≠ 'n' ∧ d ≠ 't'
      ∧ d ≠ 'f' := by
  have hne : ∀ c : Char, c ≠ '-' → c.isDigit = false → d ≠ c := by
    rintro c hminus hdigit rfl
    rcases h with h | h
    · exact hminus h
    · rw [hdigit] at h
      cases h
  refine ⟨?_, ?_, ?_, ?_, ?_, ?_, ?_⟩
  · simp only [isSpace, Bool.or_eq_false_iff, decide_eq_false_iff_not]
    exact ⟨⟨⟨hne _ (by decide) (by decide), hne _ (by decide) (by decide)⟩,
      hne _ (by decide) (by decide)⟩, hne _ (by decide) (by decide)⟩
  all_goals exact hne _ (by decide) (by decide)

/-- A scalar is read back, when no number goes on after it. -/
theorem read_scalar {j : Json} (hj : Scalar j = true) {fuel : Nat}
    {rest : List Char} (hf : (write j).length ≤ fuel) (hrest : Ends rest) :
    read fuel (write j ++ rest) = some (j, rest) := by
  cases j with
  | str s => exact read_write (.str s) fuel rest rfl hf
  | int n =>
      have hscan := scanNumber_int n hrest
      obtain ⟨d, ds, hw, hd⟩ := write_int_head n
      obtain ⟨-, hquote, hbracket, hbrace, hn, ht, hf'⟩ := of_int_head hd
      rw [hw] at hscan hf ⊢
      cases fuel with
      | zero => simp at hf
      | succ f =>
          rw [List.cons_append] at hscan ⊢
          rw [read, if_neg hquote, if_neg hbracket, if_neg hbrace]
          simp only [List.isPrefixOf, hn.symm, ht.symm, hf'.symm,
            beq_iff_eq, Bool.and_eq_true, false_and, if_false]
          exact hscan
  | _ => cases hj

/-- No white space stands before a scalar. -/
theorem skip_scalar {j : Json} (hj : Scalar j = true) (rest : List Char) :
    skip (write j ++ rest) = write j ++ rest := by
  cases j with
  | str s => exact skip_cons rfl
  | int n =>
      obtain ⟨d, ds, hw, hd⟩ := write_int_head n
      rw [hw, List.cons_append]
      exact skip_cons (of_int_head hd).1
  | _ => cases hj

/-- A character that is no part of a number ends it. -/
theorem ends_cons {c : Char} (rest : List Char)
    (hc : isNumeralChar c = false) : Ends (c :: rest) := by
  intro d hd
  rw [← Option.some.inj hd]
  exact hc

/-- One member, and what follows it, is read. -/
theorem readMembers_step {k : String} {v : Json} (hv : Scalar v = true)
    {f : Nat} {d : Char} {ds : List Char}
    (hf : (quote k).length + (write v).length ≤ f)
    (hd : isNumeralChar d = false) (hspace : isSpace d = false) :
    readMembers (f + 1) (quote k ++ ':' :: (write v ++ d :: ds))
      = if d = '}' then some ([(k, v)], ds)
        else if d = ',' then
          (readMembers f (skip ds)).map fun r => ((k, v) :: r.1, r.2)
        else none := by
  have hq := quote_length k
  simp only [quote, List.cons_append, List.append_assoc, List.nil_append,
    readMembers]
  rw [if_neg (by simp), scanBody_escaped k.toList f _ (by omega)]
  simp only
  rw [skip_cons (by decide)]
  simp only
  rw [if_neg (by simp), skip_scalar hv,
    read_scalar hv (by omega) (ends_cons ds hd)]
  simp only
  rw [skip_cons hspace]
  simp only [String.ofList_toList]

/-- The members of a record are read back up to the closing brace. By
induction on the members: after the last comes the brace, and after any
other a comma. -/
theorem readMembers_record (ms : List (String × Json)) (hne : ms ≠ [])
    (hms : ∀ m ∈ ms, Scalar m.2 = true) (fuel : Nat)
    (hf : (writeMembers ms).length + 1 ≤ fuel) (rest : List Char) :
    readMembers fuel (writeMembers ms ++ '}' :: rest) = some (ms, rest) := by
  induction ms generalizing fuel with
  | nil => exact absurd rfl hne
  | cons m ms ih =>
      obtain ⟨k, v⟩ := m
      obtain ⟨hv, hms⟩ := List.forall_mem_cons.mp hms
      have hv : Scalar v = true := hv
      cases fuel with
      | zero => omega
      | succ f =>
          cases ms with
          | nil =>
              simp only [writeMembers, List.length_append,
                List.length_cons] at hf
              simp only [writeMembers, List.append_assoc, List.cons_append]
              rw [readMembers_step hv (by omega) (by decide) (by decide),
                if_pos rfl]
          | cons m ms =>
              have hw : writeMembers ((k, v) :: m :: ms)
                  = quote k ++ ':' :: write v
                    ++ ',' :: writeMembers (m :: ms) := rfl
              rw [hw, List.length_append, List.length_append,
                List.length_cons, List.length_cons] at hf
              have hrest := ih (by simp) hms f (by omega)
              obtain ⟨ds, hds⟩ := writeMembers_head m.1 m.2 ms
              rw [hw, List.append_assoc, List.append_assoc, List.cons_append,
                List.cons_append,
                readMembers_step hv (by omega) (by decide) (by decide),
                if_neg (by decide), if_pos rfl]
              rw [hds, List.cons_append] at hrest ⊢
              rw [skip_cons (by decide), hrest]
              rfl

/-- The text of a record reads back as the record. Its members are
scalars, so the reader never recurs, and the fuel is needed for one
level. -/
theorem loads_dumps_record {ms : List (String × Json)}
    (hms : ∀ m ∈ ms, Scalar m.2 = true) :
    loads (dumps (.obj ms)) = some (.obj ms) := by
  have hread : read ((write (.obj ms)).length + 1) (write (.obj ms))
      = some (.obj ms, []) := by
    cases ms with
    | nil => simp [write, writeMembers, read, skip_cons (d := '}') rfl]
    | cons m ms =>
        obtain ⟨ds, hds⟩ := writeMembers_head m.1 m.2 ms
        have hmembers := readMembers_record (m :: ms) (by simp) hms
          ((writeMembers (m :: ms)).length + 2) (by omega) []
        rw [write, List.length_append, List.length_cons,
          List.length_singleton, List.cons_append, read,
          if_neg (by decide), if_neg (by decide), if_pos rfl]
        rw [hds, List.cons_append] at hmembers ⊢
        rw [skip_cons (by decide)]
        simp only
        rw [if_neg (by decide), hmembers]
        rfl
  have hskip : skip (write (.obj ms)) = write (.obj ms) := by
    rw [write, List.cons_append]
    exact skip_cons (by decide)
  simp only [loads, dumps, String.toList_ofList, hskip, hread]
  rfl

end MarketPlatform.Lib.Json
