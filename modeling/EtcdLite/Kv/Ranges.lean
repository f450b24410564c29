import EtcdLite.Kv.Books
import EtcdLite.Kv.RangeQuery
import EtcdLite.Lib.PrefixRange

/-!
# The keys of a range

`KeyInRange` and `KeyMatchesWatcher` take an end of `"\0"` for no end at all, but look at its
first byte only: they do so for every end that begins with a zero byte. For a key, that makes
a difference exactly when it is at or above both bounds (`range_membership_iff`).

The keys with a given prefix are a range: its end is the prefix with its trailing `0xff` bytes
dropped and the last remaining byte incremented, or `"\0"` (`prefixSucc`). When the prefix
does not begin with a zero byte neither does that end, unless it is `"\0"`, and then a query,
a deletion and a watcher on the range have exactly the keys with the prefix (`prefix_exact`).
-/

namespace EtcdLite

open Server

/-! ### Membership -/

/-- The keys of a range, as the API has it: one key when the end is empty, all from the start
on when it is `"\0"`, and for every other end those from the start on that are below it. -/
def InRange (start endKey k : Bytes) : Prop :=
  if endKey = [] then k = start
  else if endKey = [0] then start ≤ k
  else start ≤ k ∧ k < endKey

instance (start endKey k : Bytes) : Decidable (InRange start endKey k) :=
  inferInstanceAs (Decidable (ite _ _ _))

/-- The end has a zero byte and then more. -/
def ZeroLed (endKey : Bytes) : Prop := endKey.head? = some 0 ∧ endKey ≠ [0]

theorem keyInRange_iff_of_not_zeroLed {start endKey : Bytes} (h : ¬ ZeroLed endKey) (k : Bytes) :
    keyInRange k start endKey = true ↔ InRange start endKey k := by
  cases endKey with
  | nil => simp [InRange]
  | cons b rest =>
    by_cases hk : k < start
    · have hle : ¬ start ≤ k := hk.not_ge
      simp [keyInRange, InRange, hk, hle]
    · have hle : start ≤ k := not_lt.mp hk
      by_cases hb : b = 0
      · have hnil : rest = [] := by
          by_contra hne
          exact h ⟨congrArg some hb, by simp [hne]⟩
        simp [keyInRange, InRange, hk, hle, hb, hnil]
      · simp [keyInRange, InRange, hk, hle, hb]

theorem keyInRange_of_zeroLed {start endKey : Bytes} (h : ZeroLed endKey) (k : Bytes) :
    keyInRange k start endKey = true ↔ start ≤ k := by
  cases endKey with
  | nil => simp [ZeroLed] at h
  | cons b rest =>
    have hb : b = 0 := Option.some.inj h.1
    by_cases hk : k < start
    · simp [keyInRange, hk, hk.not_ge]
    · simp [keyInRange, hk, hb, not_lt.mp hk]

/-- **Range membership.** The two predicates agree with the API on a key, except when the end
is a zero byte and more, and the key is at or above both bounds. -/
theorem range_membership_iff (k start endKey : Bytes) :
    ((keyInRange k start endKey = true ↔ InRange start endKey k) ∧
      ∀ w : Watcher, keyMatchesWatcher k { w with key := start, rangeEnd := endKey } = true ↔
        InRange start endKey k) ↔
    ¬ (ZeroLed endKey ∧ start ≤ k ∧ endKey ≤ k) := by
  have hboth : ((keyInRange k start endKey = true ↔ InRange start endKey k) ∧
      ∀ w : Watcher, keyMatchesWatcher k { w with key := start, rangeEnd := endKey } = true ↔
        InRange start endKey k) ↔ (keyInRange k start endKey = true ↔ InRange start endKey k) :=
    ⟨And.left, fun h => ⟨h, fun w => h⟩⟩
  rw [hboth]
  by_cases hz : ZeroLed endKey
  · have hne : endKey ≠ [] := by
      rintro rfl
      cases hz.1
    have hspec : InRange start endKey k ↔ start ≤ k ∧ k < endKey := by
      rw [InRange, if_neg hne, if_neg hz.2]
    rw [keyInRange_of_zeroLed hz, hspec]
    simp only [hz, true_and, not_and, not_le]
    exact iff_self_and
  · exact iff_of_true (keyInRange_iff_of_not_zeroLed hz k) fun h => hz h.1

/-- The key `"a"` is not below `"\0\x05"`, but a range that ends there has it. -/
theorem range_membership_fails :
    ¬ ∀ k start endKey, keyInRange k start endKey = true ↔ InRange start endKey k := by
  intro h
  exact absurd ((h [97] [0] [0, 5]).mp (by decide)) (by decide)

/-! ### Prefixes -/

theorem toNat_add_one {b : UInt8} (h : b ≠ 0xff) : (b + 1).toNat = b.toNat + 1 := by
  have hlt := b.toNat_lt
  have hne : b.toNat ≠ 255 := fun hb => h (UInt8.toNat_inj.mp hb)
  rw [UInt8.toNat_add, UInt8.toNat_one]
  omega

/-- The next byte; `0xff` has none. -/
instance UInt8.succOrder : SuccOrder UInt8 where
  succ b := if b = 0xff then 0xff else b + 1
  le_succ b := by
    split_ifs with h
    · exact h.le
    · rw [UInt8.le_iff_toNat_le, toNat_add_one h]
      omega
  max_of_succ_le {b} h := by
    split_ifs at h with hb
    · intro c _
      have hlt := c.toNat_lt
      rw [hb, UInt8.le_iff_toNat_le]
      show c.toNat ≤ 255
      omega
    · rw [UInt8.le_iff_toNat_le, toNat_add_one hb] at h
      omega
  succ_le_of_lt {b c} h := by
    rw [UInt8.lt_iff_toNat_lt] at h
    split_ifs with hb
    · have hlt := c.toNat_lt
      rw [hb] at h
      change 255 < c.toNat at h
      omega
    · rw [UInt8.le_iff_toNat_le, toNat_add_one hb]
      omega

theorem isMax_iff {b : UInt8} : IsMax b ↔ b = 0xff := by
  constructor
  · intro h
    by_contra hb
    have hle : b + 1 ≤ b := by
      refine h ?_
      rw [UInt8.le_iff_toNat_le, toNat_add_one hb]
      omega
    rw [UInt8.le_iff_toNat_le, toNat_add_one hb] at hle
    omega
  · rintro rfl c _
    have hlt := c.toNat_lt
    rw [UInt8.le_iff_toNat_le]
    show c.toNat ≤ 255
    omega

instance UInt8.decidableIsMax : DecidablePred (IsMax : UInt8 → Prop) := fun _ => decidable_of_iff _ isMax_iff.symm

/-- `succ(p)`: the prefix with its trailing `0xff` bytes dropped and the last remaining byte
incremented, or `"\0"` when no byte remains. -/
def prefixSucc (p : Bytes) : Bytes :=
  match p.reverse.dropWhile fun b => b = 0xff with
  | [] => [0]
  | b :: rest => ((b + 1) :: rest).reverse

theorem prefixSucc_eq (p : Bytes) : prefixSucc p = (prefixEnd p).getD [0] := by
  have hmax : (fun b : UInt8 => decide (IsMax b)) = fun b => decide (b = 0xff) := by
    funext b
    simp [isMax_iff]
  rw [prefixSucc, prefixEnd_eq, hmax]
  cases h : p.reverse.dropWhile fun b => b = 0xff with
  | nil => rfl
  | cons b rest =>
    have hb : b ≠ 0xff := by
      have hhead := List.head_dropWhile_not (fun b : UInt8 => decide (b = 0xff))
        (l := p.reverse) (by rw [h]; simp)
      simpa [h] using hhead
    show _ = ((if b = 0xff then 0xff else b + 1) :: rest).reverse
    rw [if_neg hb]

/-- The end of a prefix range does not begin with a zero byte, when there is an end. -/
theorem prefixEnd_head {p e : Bytes} (hne : p ≠ []) (h0 : p.head? ≠ some 0)
    (he : prefixEnd p = some e) : e ≠ [] ∧ e.head? ≠ some 0 := by
  obtain ⟨b, rest, rfl⟩ := List.exists_cons_of_ne_nil hne
  obtain ⟨c, rest', rfl, hle⟩ := head_le_of_prefixEnd he
  refine ⟨List.cons_ne_nil c rest', fun h => h0 (congrArg some ?_)⟩
  rw [Option.some.inj h, UInt8.le_iff_toNat_le] at hle
  exact UInt8.toNat_inj.mp (Nat.le_zero.mp hle)

/-- **The keys of a prefix range are those with the prefix.** -/
theorem keyInRange_prefix {p : Bytes} (hne : p ≠ []) (h0 : p.head? ≠ some 0) (k : Bytes) :
    keyInRange k p (prefixSucc p) = true ↔ p <+: k := by
  have hzero : ¬ ZeroLed (prefixSucc p) := by
    rw [prefixSucc_eq]
    cases he : prefixEnd p with
    | none => exact fun h => h.2 rfl
    | some e => exact fun h => (prefixEnd_head hne h0 he).2 h.1
  rw [keyInRange_iff_of_not_zeroLed hzero, prefix_iff_range, prefixSucc_eq, InRange]
  cases he : prefixEnd p with
  | none => simp
  | some e =>
    obtain ⟨hnil, hhead⟩ := prefixEnd_head hne h0 he
    have hend : e ≠ [0] := fun h => hhead (h ▸ rfl)
    simp [hnil, hend]

/-- **Prefix queries are exact.** Over the range of a prefix, a query answers the stored
entries whose key has the prefix, each once; a deletion removes those and leaves the others as
they are; and a watcher matches the keys that have it. -/
theorem prefix_exact (p : Bytes) (hne : p ≠ []) (h0 : p.head? ≠ some 0) (s : Server) :
    ((s.kvStore.range p (prefixSucc p) 0 false false).Perm
        ((s.kvStore.data.toList.filter fun e => p <+: e.1).map fun e => e.2.kv)) ∧
      (∀ prevKvs k, (s.delete p (prefixSucc p) prevKvs).2.kvStore.data.find? k =
        if p <+: k then none else s.kvStore.data.find? k) ∧
      ∀ (w : Watcher) k, keyMatchesWatcher k { w with key := p, rangeEnd := prefixSucc p } = true ↔
        p <+: k := by
  have hrange := keyInRange_prefix hne h0
  refine ⟨?_, ?_, fun w k => hrange k⟩
  · have hfilter : (fun e : Bytes × KeyInfo => keyInRange e.1 p (prefixSucc p)) =
        fun e => decide (p <+: e.1) := by
      funext e
      rw [Bool.eq_iff_iff, hrange, decide_eq_true_iff]
    rw [← hfilter]
    exact s.kvStore.range_perm p (prefixSucc p)
  · intro prevKvs k
    have hdelete := congrFun (delete_done s p (prefixSucc p) prevKvs).data_eq k
    simp only [Server.data, Write.onData, hrange] at hdelete
    exact hdelete

/-- The theorem at the prefix `"a\xff"`, whose range ends at `"b"`: of two keys one is deleted. -/
theorem prefix_exact_two :
    let s := (((Server.new .plain).put [97, 255, 1] [] 0 none).2.put [98] [] 0 none).2
    let t := (s.delete [97, 255] (prefixSucc [97, 255]) false).2
    t.kvStore.data.find? [97, 255, 1] = none ∧
      t.kvStore.data.find? [98] = s.kvStore.data.find? [98] := by
  intro s t
  have h := (prefix_exact [97, 255] (by decide) (by decide) s).2.1 false
  exact ⟨(h [97, 255, 1]).trans (if_pos (by decide)), (h [98]).trans (if_neg (by decide))⟩

end EtcdLite
