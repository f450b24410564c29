import EtcdLite.Kv.Effects
import EtcdLite.Kv.RangeQuery

/-!
# Pages and counts

A client that asks for a range with a limit is to be told how many keys the range has, and
whether there are more than it was given; it then asks again, from just after the last key
it has seen (`Reads`). `KVServiceImpl::Range` and the range branch of `Txn` both answer with the
number of elements they return for a count, and never with more (`Answers`). So a page is
right, and a client sees the whole range, exactly when the limit does not cut it short
(`page_right_iff`).

A request that only counts is to be answered with a count and no data. Both return
one empty element for each key up to the limit, which is right only for a range without keys
(`count_only_iff`).
-/

namespace EtcdLite

open Server

/-- The stored keys of a range. -/
def KVStore.keysIn (s : KVStore) (start endKey : Bytes) : List Bytes :=
  s.data.keys.filter fun k => keyInRange k start endKey

/-! ### What the handlers answer -/

/-- How both handlers build a response: the elements of `RangeInternal`, their number, and
that there are no more. -/
def Answers (s : KVStore) (answer : RangeRequest → RangeResponse) : Prop :=
  ∀ r, (answer r).kvs = s.rangeInternal r.key r.rangeEnd r.limit r.countOnly r.keysOnly ∧
    (answer r).count = (answer r).kvs.length ∧ (answer r).more = false

theorem range_answers (s : Server) : Answers s.kvStore (KVService.range s) :=
  fun _ => ⟨rfl, rfl, rfl⟩

theorem txnRange_answers (s : Server) : Answers s.kvStore s.txnRange := fun _ => ⟨rfl, rfl, rfl⟩

theorem length_sortedInfos (s : KVStore) (start endKey : Bytes) :
    (s.sortedInfos start endKey).length = (s.keysIn start endKey).length := by
  rw [(s.sortedInfos_perm start endKey).length_eq, KVStore.keysIn, UnorderedMap.keys,
    List.filter_map, List.length_map, List.length_map]
  rfl

/-- How many elements are returned. -/
theorem length_rangeInternal (s : KVStore) (start endKey : Bytes) (limit : Int)
    (countOnly keysOnly : Bool) :
    (s.rangeInternal start endKey limit countOnly keysOnly).length =
      if 0 < limit then min limit.toNat (s.keysIn start endKey).length
      else (s.keysIn start endKey).length := by
  rw [KVStore.rangeInternal_eq, List.length_map, ← length_sortedInfos]
  split_ifs
  · rw [List.length_take]
  · rfl

/-! ### Pages -/

/-- A response that tells the client where it is in the range. -/
structure RightPage (s : KVStore) (r : RangeRequest) (resp : RangeResponse) : Prop where
  /-- The first entries of the range in the order of their keys, up to the limit, or all when
  there is no limit. -/
  kvs : ∃ infos : List KeyInfo,
    infos.Perm ((s.data.toList.filter fun e => keyInRange e.1 r.key r.rangeEnd).map Prod.snd) ∧
    (infos.Pairwise fun a b => a.kv.key < b.kv.key) ∧
    resp.kvs = (if 0 < r.limit then infos.take r.limit.toNat else infos).map
      (KVStore.rangeElem false r.keysOnly)
  /-- The count is that of the whole range. -/
  count : resp.count = (s.keysIn r.key r.rangeEnd).length
  /-- There are more exactly when the limit has left some out. -/
  more : resp.more = true ↔ 0 < r.limit ∧ r.limit < (s.keysIn r.key r.rangeEnd).length

/-- What a client reads when it goes on from just after the last key it was given, for as long
as it is told that there are more. -/
inductive Reads (answer : RangeRequest → RangeResponse) : RangeRequest → List KeyValue → Prop
  /-- The last page. -/
  | last {r : RangeRequest} (h : (answer r).more = false) : Reads answer r (answer r).kvs
  /-- A page, and the rest. -/
  | next {r : RangeRequest} {kv : KeyValue} {rest : List KeyValue} (h : (answer r).more = true)
      (hlast : (answer r).kvs.getLast? = some kv)
      (hrest : Reads answer { r with key := kv.key ++ [0] } rest) :
      Reads answer r ((answer r).kvs ++ rest)

/-- The response is right, and the client reads every key of the range once. -/
def PagesRight (s : KVStore) (answer : RangeRequest → RangeResponse) (r : RangeRequest) : Prop :=
  RightPage s r (answer r) ∧
    ∃ kvs, Reads answer r kvs ∧ (kvs.map KeyValue.key).Perm (s.keysIn r.key r.rangeEnd)

/-- A handler that answers so pages right exactly when the limit leaves nothing out. -/
theorem Answers.pagesRight_iff {s : KVStore} (h : s.Keyed) {answer : RangeRequest → RangeResponse}
    (hanswer : Answers s answer) {r : RangeRequest} (hr : r.countOnly = false) :
    PagesRight s answer r ↔ r.limit ≤ 0 ∨ ((s.keysIn r.key r.rangeEnd).length : Int) ≤ r.limit := by
  obtain ⟨hkvs, hcount, hmore⟩ := hanswer r
  have hlength := length_rangeInternal s r.key r.rangeEnd r.limit r.countOnly r.keysOnly
  rw [← hkvs] at hlength
  rw [KVStore.rangeInternal_eq, hr] at hkvs
  constructor
  · rintro ⟨hpage, -⟩
    have hcut := hpage.count
    rw [hcount, hlength] at hcut
    by_contra hcond
    rw [if_pos (by omega)] at hcut
    omega
  · intro hcond
    have hall : (if 0 < r.limit then (s.sortedInfos r.key r.rangeEnd).take r.limit.toNat
        else s.sortedInfos r.key r.rangeEnd) = s.sortedInfos r.key r.rangeEnd := by
      split_ifs
      · refine List.take_of_length_le ?_
        rw [length_sortedInfos]
        omega
      · rfl
    have hkey : KeyValue.key ∘ KVStore.rangeElem false r.keysOnly = fun info => info.kv.key := by
      funext info
      cases r.keysOnly <;> rfl
    refine ⟨⟨⟨s.sortedInfos r.key r.rangeEnd, s.sortedInfos_perm r.key r.rangeEnd,
      KVStore.sortedInfos_pairwise r.key r.rangeEnd h, hkvs⟩, ?_, ?_⟩, _, .last hmore, ?_⟩
    · rw [hcount, hlength]
      split_ifs <;> omega
    · rw [hmore]
      refine iff_of_false Bool.false_ne_true ?_
      omega
    · rw [hkvs, hall, List.map_map, hkey]
      exact KVStore.map_key_sortedInfos r.key r.rangeEnd h

/-- **Paging.** Through either handler, a page is right and a client that goes on while it is
told that there are more reads every key of the range once, exactly when there is no limit or
the range has no more keys than it. -/
theorem page_right_iff (s : Server) (h : s.kvStore.Keyed) (r : RangeRequest)
    (hr : r.countOnly = false) :
    let whole := r.limit ≤ 0 ∨ ((s.kvStore.keysIn r.key r.rangeEnd).length : Int) ≤ r.limit
    (PagesRight s.kvStore (KVService.range s) r ↔ whole) ∧
      (PagesRight s.kvStore s.txnRange r ↔ whole) :=
  ⟨(range_answers s).pagesRight_iff h hr, (txnRange_answers s).pagesRight_iff h hr⟩

theorem keyed_new (env : Env) : (Server.new env).kvStore.Keyed := by
  intro k info hk
  cases hk

/-- A put stores its entry under the key of its key-value. -/
theorem keyed_put {s : Server} (h : s.kvStore.Keyed) (key value : Bytes) (lease : Int)
    (prevKv : Option KeyValue) : (s.put key value lease prevKv).2.kvStore.Keyed := by
  intro k info hk
  rw [put_kvStore, UnorderedMap.find?_insert] at hk
  split_ifs at hk with hkey
  · rw [hkey, ← Option.some.inj hk]
    rfl
  · exact h k info hk

/-- A new server where two keys have been put. -/
def twoKeys : Server := (((Server.new .plain).put [97] [] 0 none).2.put [98] [] 0 none).2

theorem twoKeys_keyed : twoKeys.kvStore.Keyed :=
  keyed_put (keyed_put (keyed_new .plain) [97] [] 0 none) [98] [] 0 none

/-- The theorem at two keys and the limit 2. -/
theorem page_right_two : PagesRight twoKeys.kvStore (KVService.range twoKeys)
    { key := [97], rangeEnd := [0], limit := 2 } :=
  (page_right_iff twoKeys twoKeys_keyed { key := [97], rangeEnd := [0], limit := 2 } rfl).1.mpr
    (.inr (by decide))

/-- With the limit 1 the count is 1, and there are said to be no more. -/
theorem page_cut_short : ¬ ∀ (s : Server) (r : RangeRequest), s.kvStore.Keyed →
    r.countOnly = false → RightPage s.kvStore r (KVService.range s r) := by
  intro h
  have hmore := (h twoKeys { key := [97], rangeEnd := [0], limit := 1 } twoKeys_keyed rfl).more
  exact absurd (hmore.mpr (by decide)) (by decide)

/-! ### Counts -/

/-- A count and no data. -/
def CountRight (s : KVStore) (r : RangeRequest) (resp : RangeResponse) : Prop :=
  resp.kvs = [] ∧ resp.count = (s.keysIn r.key r.rangeEnd).length

theorem Answers.countRight_iff {s : KVStore} {answer : RangeRequest → RangeResponse}
    (hanswer : Answers s answer) (r : RangeRequest) :
    CountRight s r (answer r) ↔ s.keysIn r.key r.rangeEnd = [] := by
  obtain ⟨hkvs, hcount, -⟩ := hanswer r
  have hlength := length_rangeInternal s r.key r.rangeEnd r.limit r.countOnly r.keysOnly
  rw [← hkvs] at hlength
  rw [← List.length_eq_zero_iff]
  constructor
  · rintro ⟨hnil, hright⟩
    rw [hnil] at hcount
    rw [hcount] at hright
    simpa using hright.symm
  · intro hzero
    have hnil : (answer r).kvs.length = 0 := by
      rw [hlength, hzero]
      split_ifs <;> simp
    exact ⟨List.length_eq_zero_iff.mp hnil, by rw [hcount, hnil, hzero]⟩

/-- **Count-only queries.** Through either handler, whatever the limit and with or without
`keysOnly`, the response has a count and no data exactly when there is nothing to count. -/
theorem count_only_iff (s : Server) (r : RangeRequest) :
    let r := { r with countOnly := true }
    (CountRight s.kvStore r (KVService.range s r) ↔ s.kvStore.keysIn r.key r.rangeEnd = []) ∧
      (CountRight s.kvStore r (s.txnRange r) ↔ s.kvStore.keysIn r.key r.rangeEnd = []) :=
  ⟨(range_answers s).countRight_iff _, (txnRange_answers s).countRight_iff _⟩

/-- Counting two keys returns two empty elements. -/
theorem count_only_fails : ¬ ∀ (s : Server) (r : RangeRequest), r.countOnly = true →
    CountRight s.kvStore r (KVService.range s r) := by
  intro h
  exact absurd (h twoKeys { key := [97], rangeEnd := [0], countOnly := true } rfl).1 (by decide)

end EtcdLite
