/-
Logs in which the last write about a key wins.

A log is a list of entries in the order they are made; `lastOf` is what
it says about a key. It is computed from either end: an entry put at the
end hides what the log said about its key (`lastOf_concat`), one put
before the log counts only where the log says nothing (`lastOf_cons`),
and of two logs the later is asked first (`lastOf_append`).

A reader that does not know the order of the log can still find that
entry when every entry carries a stamp, and later entries about a key
carry greater ones (`InOrder`): it is the entry with the greatest stamp
(`InOrder.lastOf_eq_some_iff`). Without this the two readings differ,
and how they differ is up to the stamps.
-/
import MarketPlatform.Lib.Relation

namespace MarketPlatform.Lib.LastWrite

open Lib.Relation

variable {α κ τ : Type} [DecidableEq κ] {key : α → κ} {log log' : List α}
  {k : κ} {a e : α}

/-- The last entry of a log about a key. -/
def lastOf (key : α → κ) (log : List α) (k : κ) : Option α :=
  (group key log k).getLast?

/-- Of two logs the later is asked first. -/
theorem lastOf_append :
    lastOf key (log ++ log') k
      = (lastOf key log' k).or (lastOf key log k) := by
  rw [lastOf, lastOf, lastOf, group, group, group, List.filter_append,
    List.getLast?_append]

/-- An entry at the end hides what the log said about its key. -/
theorem lastOf_concat :
    lastOf key (log ++ [e]) k
      = if key e = k then some e else lastOf key log k := by
  rw [lastOf_append]
  by_cases h : key e = k
  · simp [lastOf, group, h]
  · simp [lastOf, group, h]

/-- An entry before the log counts only where the log says nothing. -/
theorem lastOf_cons :
    lastOf key (e :: log) k
      = (lastOf key log k).or (if key e = k then some e else none) := by
  have h : lastOf key ([] ++ [e]) k = if key e = k then some e else none :=
    lastOf_concat
  rw [← h, ← lastOf_append]
  rfl

/-- Two logs that say the same, entry by entry, have related last
entries under keys that correspond. By induction on the pair of logs:
the last entry is the rest's if the rest has one, and otherwise the
head's if it has the key. -/
theorem lastOf_related {β κ' : Type} [DecidableEq κ'] {key' : β → κ'}
    {R : α → β → Prop} {log' : List β} {k' : κ'}
    (hkey : ∀ a b, R a b → (key a = k ↔ key' b = k'))
    (h : List.Forall₂ R log log') :
    Option.Rel R (lastOf key log k) (lastOf key' log' k') := by
  induction h with
  | nil => exact .none
  | @cons a b log log' hab _ ih =>
      rw [lastOf_cons, lastOf_cons]
      cases hl : lastOf key log k with
      | some c =>
          rw [hl] at ih
          cases hl' : lastOf key' log' k' with
          | some d =>
              rw [hl'] at ih
              exact ih
          | none => rw [hl'] at ih; cases ih
      | none =>
          rw [hl] at ih
          cases hl' : lastOf key' log' k' with
          | some d => rw [hl'] at ih; cases ih
          | none =>
              by_cases hk : key a = k
              · rw [if_pos hk, if_pos ((hkey a b hab).mp hk)]
                exact .some hab
              · rw [if_neg hk, if_neg (mt (hkey a b hab).mpr hk)]
                exact .none

/-- What is said about a key is an entry about it. -/
theorem of_lastOf (h : lastOf key log k = some e) : e ∈ log ∧ key e = k :=
  mem_group.mp (List.mem_of_getLast? h)

variable [LinearOrder τ] {stamp : α → τ}

/-- Later entries about a key carry greater stamps. -/
def InOrder (key : α → κ) (stamp : α → τ) (log : List α) : Prop :=
  log.Pairwise fun a b => key a = key b → stamp a < stamp b

omit [DecidableEq κ] in
/-- Leaving entries out keeps the order of the others. -/
theorem InOrder.filter (h : InOrder key stamp log) (keep : α → Bool) :
    InOrder key stamp (log.filter keep) :=
  List.Pairwise.filter keep h

/-- The last entry about a key is the one with the greatest stamp. By
induction from the end of the log: the entry there has a greater stamp
than any other about its key. -/
theorem InOrder.lastOf_eq_some_iff (h : InOrder key stamp log) :
    lastOf key log k = some e
      ↔ e ∈ log ∧ key e = k
        ∧ ∀ e' ∈ log, key e' = k → stamp e' ≤ stamp e := by
  induction log using List.reverseRecOn with
  | nil => simp [lastOf, group]
  | append_singleton log a ih =>
      obtain ⟨hlog, -, hlast⟩ := List.pairwise_append.mp h
      have hbefore : ∀ b ∈ log, key b = key a → stamp b < stamp a :=
        fun b hb => hlast b hb a (List.mem_singleton_self a)
      rw [lastOf_concat]
      by_cases hk : key a = k
      · rw [if_pos hk]
        constructor
        · intro hae
          obtain rfl := Option.some.inj hae
          refine ⟨by simp, hk, fun b hb hbk => ?_⟩
          rcases List.mem_append.mp hb with hb | hb
          · exact (hbefore b hb (hbk.trans hk.symm)).le
          · rw [List.mem_singleton.mp hb]
        · intro hx
          obtain ⟨he, hek, hmax⟩ := hx
          rcases List.mem_append.mp he with he | he
          · have hlt := hbefore e he (hek.trans hk.symm)
            exact absurd hlt (not_lt.mpr (hmax a (by simp) hk))
          · rw [List.mem_singleton.mp he]
      · rw [if_neg hk, ih hlog]
        constructor
        · intro hx
          obtain ⟨he, hek, hmax⟩ := hx
          refine ⟨List.mem_append_left _ he, hek, fun b hb hbk => ?_⟩
          rcases List.mem_append.mp hb with hb | hb
          · exact hmax b hb hbk
          · rw [List.mem_singleton.mp hb] at hbk
            exact absurd hbk hk
        · intro hx
          obtain ⟨he, hek, hmax⟩ := hx
          rcases List.mem_append.mp he with he | he
          · exact ⟨he, hek, fun b hb =>
              hmax b (List.mem_append_left _ hb)⟩
          · rw [List.mem_singleton.mp he] at hek
            exact absurd hek hk

end MarketPlatform.Lib.LastWrite
