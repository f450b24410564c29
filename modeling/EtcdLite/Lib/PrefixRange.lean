import Mathlib.Data.List.Lex
import Mathlib.Order.SuccPred.Basic

/-!
# Prefixes as ranges

In lexicographic order the words with a given prefix are next to each other: they are the
words from the prefix on, up to the least word above them all (`prefixEnd`). That word
is the prefix without its trailing greatest letters, its last letter then replaced by the
next one (`prefixEnd_eq`). When every letter of the prefix is the greatest there is no such
word, and the range has no end.
-/

universe u

section PrefixRange

variable {α : Type u} [LinearOrder α]

theorem cons_le_cons {a b : α} {p k : List α} : a :: p ≤ b :: k ↔ a < b ∨ a = b ∧ p ≤ k := by
  rw [← not_lt, List.cons_lt_cons_iff, ← not_lt]
  rcases lt_trichotomy a b with h | rfl | h
  · simp [h, h.not_gt, h.ne']
  · simp
  · simp [h, h.not_gt, h.ne']

/-- The word that has the least letter alone is the least but for the empty one. -/
theorem singleton_le_iff {a : α} (ha : IsBot a) {k : List α} : [a] ≤ k ↔ k ≠ [] := by
  cases k with
  | nil => simp [← not_lt]
  | cons b k =>
    rw [cons_le_cons]
    refine iff_of_true ?_ (List.cons_ne_nil b k)
    exact (ha b).lt_or_eq.imp_right fun hab => ⟨hab, not_lt.mp (List.not_lt_nil k)⟩

variable [SuccOrder α] [DecidablePred (IsMax : α → Prop)]

/-- The least word above all that have the prefix, if there is one. -/
def prefixEnd : List α → Option (List α)
  | [] => none
  | a :: p =>
    match prefixEnd p with
    | some e => some (a :: e)
    | none => if IsMax a then none else some [Order.succ a]

/-- **The words with a prefix are a range.** -/
theorem prefix_iff_range {p k : List α} :
    p <+: k ↔ p ≤ k ∧ ∀ e, prefixEnd p = some e → k < e := by
  induction p generalizing k with
  | nil => simp [prefixEnd, not_lt.mp (List.not_lt_nil k)]
  | cons a p ih =>
    cases k with
    | nil => simp
    | cons b k =>
      rw [List.cons_prefix_cons, ih, cons_le_cons, prefixEnd]
      cases prefixEnd p with
      | some e =>
        simp only [Option.some.injEq, forall_eq', List.cons_lt_cons_iff]
        constructor
        · rintro ⟨rfl, hle, hlt⟩
          exact ⟨.inr ⟨rfl, hle⟩, .inr ⟨rfl, hlt⟩⟩
        · rintro ⟨hab | ⟨rfl, hle⟩, hba | ⟨h, hlt⟩⟩
          · exact absurd hab hba.not_gt
          · exact absurd hab (h ▸ lt_irrefl b)
          · exact absurd hba (lt_irrefl a)
          · exact ⟨rfl, hle, hlt⟩
      | none =>
        -- What is left is that the first letters agree: no other letter is from `a` on and
        -- before the next one.
        dsimp only
        split_ifs with hmax
        · have hnot : ¬ a < b := hmax.not_lt
          simp [hnot]
        · have hsucc : b :: k < [Order.succ a] ↔ b ≤ a := by
            rw [List.cons_lt_cons_iff, Order.lt_succ_iff_of_not_isMax hmax]
            simp
          simp only [Option.some.injEq, forall_eq', hsucc, false_implies, implies_true, and_true]
          constructor
          · rintro ⟨rfl, hle⟩
            exact ⟨.inr ⟨rfl, hle⟩, le_rfl⟩
          · rintro ⟨hab | h, hba⟩
            · exact absurd hab hba.not_gt
            · exact h

/-- The end of a range of words that have a prefix, found from the back of the prefix. -/
theorem prefixEnd_eq (p : List α) : prefixEnd p =
    match p.reverse.dropWhile fun a => IsMax a with
    | [] => none
    | a :: rest => some (Order.succ a :: rest).reverse := by
  induction p with
  | nil => rfl
  | cons a p ih =>
    rw [prefixEnd, ih, List.reverse_cons, List.dropWhile_append]
    cases p.reverse.dropWhile fun a => IsMax a with
    | nil => by_cases hmax : IsMax a <;> simp [hmax]
    | cons b rest => simp

/-- The end is not below the prefix at the first letter. -/
theorem head_le_of_prefixEnd {a : α} {p e : List α} (h : prefixEnd (a :: p) = some e) :
    ∃ b rest, e = b :: rest ∧ a ≤ b := by
  rw [prefixEnd] at h
  cases hp : prefixEnd p with
  | some e' =>
    rw [hp] at h
    exact ⟨a, e', (Option.some.inj h).symm, le_rfl⟩
  | none =>
    simp only [hp] at h
    split_ifs at h with hmax
    exact ⟨Order.succ a, [], (Option.some.inj h).symm, Order.le_succ a⟩

end PrefixRange
