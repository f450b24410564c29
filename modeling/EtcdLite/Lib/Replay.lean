import Mathlib.Logic.Function.Basic
import Mathlib.Data.List.Basic

/-!
# Replaying a log of changes

A map from keys to values, where there are any, and the changes that can be made to it:
setting the value of a key, and removing a key. `replay` makes the changes of a log in turn.
What a log leaves at a key depends only on its changes to that key (`replay_filter`), so a
log that has the changes to each key in order describes the map, whatever the order between
keys.
-/

universe u v

/-- A change to a map. -/
inductive Change (K : Type u) (V : Type v) where
  | set (k : K) (v : V)
  | unset (k : K)

namespace Change

variable {K : Type u} {V : Type v} [DecidableEq K]

/-- The key it is to. -/
def key : Change K V → K
  | .set k _ => k
  | .unset k => k

/-- Making it. -/
def apply (m : K → Option V) : Change K V → K → Option V
  | .set k v => Function.update m k (some v)
  | .unset k => Function.update m k none

/-- Making the changes of a log in turn. -/
def replay (m : K → Option V) (log : List (Change K V)) : K → Option V := log.foldl apply m

theorem apply_of_ne {m : K → Option V} {c : Change K V} {k : K} (h : c.key ≠ k) :
    c.apply m k = m k := by
  cases c with
  | set k' v => exact Function.update_of_ne (Ne.symm h) ..
  | unset k' => exact Function.update_of_ne (Ne.symm h) ..

theorem apply_congr {m m' : K → Option V} {k : K} (h : m k = m' k) (c : Change K V) :
    c.apply m k = c.apply m' k := by
  by_cases hc : c.key = k
  · cases c with
    | set k' v =>
      obtain rfl : k' = k := hc
      simp [apply]
    | unset k' =>
      obtain rfl : k' = k := hc
      simp [apply]
  · rw [apply_of_ne hc, apply_of_ne hc, h]

theorem replay_append (m : K → Option V) (log log' : List (Change K V)) :
    replay m (log ++ log') = replay (replay m log) log' := List.foldl_append

theorem replay_congr {m m' : K → Option V} {k : K} (h : m k = m' k) (log : List (Change K V)) :
    replay m log k = replay m' log k := by
  induction log generalizing m m' with
  | nil => exact h
  | cons c log ih => exact ih (apply_congr h c)

/-- What a log leaves at a key depends only on its changes to the key. -/
theorem replay_filter (m : K → Option V) (log : List (Change K V)) (k : K) :
    replay m log k = replay m (log.filter fun c => c.key = k) k := by
  induction log generalizing m with
  | nil => rfl
  | cons c log ih =>
    by_cases hc : c.key = k
    · rw [List.filter_cons_of_pos (by simpa using hc)]
      exact ih _
    · rw [List.filter_cons_of_neg (by simpa using hc), ← ih]
      exact replay_congr (apply_of_ne hc) log

/-- The log grows by some changes, of which those to the key are known. -/
theorem replay_step {m : K → Option V} {log new about : List (Change K V)} {k : K}
    (hnew : (new.filter fun c => c.key = k) = about) {m' : K → Option V}
    (hlog : replay m log k = m' k) : replay m (log ++ new) k = replay m' about k := by
  rw [replay_append, replay_filter, hnew]
  exact replay_congr hlog about

end Change
