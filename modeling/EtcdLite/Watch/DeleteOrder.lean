import EtcdLite.Kv.Paging
import EtcdLite.Watch.Notifications

/-!
# Deletions and the order of the table

A range query sorts what it answers. `Delete` and the delete branch of `Txn` do not: they
return the removed key-values, and notify of them, in the order in which the table of the store
has them. So what a client gets is the same for every order of the table only when there
is nothing to order (`order_free_iff`): one removed key at most, if the removed key-values are
asked for; and on each stream, notifications of one removed key at most.
-/

namespace EtcdLite

open Server WatchManager

/-! ### The two ends of a list -/

/-- A list of more than one element, all different, has two different ends. -/
theorem exists_ends {α : Type*} {l : List α} (hn : l.Nodup) (h : 1 < l.length) :
    ∃ a mid b, a ≠ b ∧ l = a :: (mid ++ [b]) := by
  cases l with
  | nil => simp at h
  | cons a rest =>
    have hne : rest ≠ [] := by
      rintro rfl
      simp at h
    obtain ⟨hmem, -⟩ := List.nodup_cons.mp hn
    refine ⟨a, rest.dropLast, rest.getLast hne, ?_, ?_⟩
    · rintro rfl
      exact hmem (List.getLast_mem hne)
    · rw [List.dropLast_append_getLast hne]

/-- What does not contribute can be left out. -/
theorem flatMap_filter_nonempty {α β : Type*} (l : List α) (f : α → List β) :
    (l.filter fun a => !(f a).isEmpty).flatMap f = l.flatMap f := by
  rw [UnorderedMap.flatMap_filter]
  refine List.flatMap_congr fun a _ => ?_
  cases h : f a <;> simp

/-- The order does not matter when one element at most contributes. -/
theorem flatMap_perm {α β : Type*} {l l' : List α} {f : α → List β} (h : l'.Perm l)
    (hn : l.Nodup) (hone : ∀ a ∈ l, ∀ b ∈ l, f a ≠ [] → f b ≠ [] → a = b) :
    l'.flatMap f = l.flatMap f := by
  rw [← flatMap_filter_nonempty l', ← flatMap_filter_nonempty l]
  have hperm := h.filter fun a => !(f a).isEmpty
  have hmem : ∀ a ∈ l.filter fun a => !(f a).isEmpty, a ∈ l ∧ f a ≠ [] := by
    intro a ha
    obtain ⟨hl, hf⟩ := List.mem_filter.mp ha
    exact ⟨hl, by simpa using hf⟩
  have hlen : (l.filter fun a => !(f a).isEmpty).length ≤ 1 := by
    by_contra hlt
    obtain ⟨a, mid, b, hab, hl⟩ := exists_ends (hn.filter _) (not_le.mp hlt)
    obtain ⟨ha, hfa⟩ := hmem a (by rw [hl]; simp)
    obtain ⟨hb, hfb⟩ := hmem b (by rw [hl]; simp)
    exact hab (hone a ha b hb hfa hfb)
  generalize (l.filter fun a => !(f a).isEmpty) = small at hperm hlen
  match small, hlen with
  | [], _ => rw [hperm.eq_nil]
  | [a], _ => rw [List.perm_singleton.mp hperm]

/-- When two elements contribute, the first contribution of the list and that of the list
reversed are of different elements. -/
theorem flatMap_ends {α β : Type*} {l : List α} {f : α → List β} (hn : l.Nodup) {a b : α}
    (ha : a ∈ l) (hb : b ∈ l) (hab : a ≠ b) (hfa : f a ≠ []) (hfb : f b ≠ []) :
    ∃ e ∈ l, ∃ e' ∈ l, e ≠ e' ∧ (∃ x ∈ f e, ∃ xs, l.flatMap f = x :: xs) ∧
      ∃ x' ∈ f e', ∃ xs', l.reverse.flatMap f = x' :: xs' := by
  have hmem : ∀ e, e ∈ (l.filter fun a => !(f a).isEmpty) ↔ e ∈ l ∧ f e ≠ [] := by
    intro e
    simp
  have hlt : 1 < (l.filter fun a => !(f a).isEmpty).length := by
    have hsub : [a, b].Subperm (l.filter fun a => !(f a).isEmpty) := by
      refine List.subperm_of_subset (by simp [hab]) ?_
      simp only [List.cons_subset, List.nil_subset, and_true]
      exact ⟨(hmem a).mpr ⟨ha, hfa⟩, (hmem b).mpr ⟨hb, hfb⟩⟩
    exact hsub.length_le
  obtain ⟨e, mid, e', hne, hends⟩ := exists_ends (hn.filter _) hlt
  obtain ⟨he, hfe⟩ := (hmem e).mp (by rw [hends]; simp)
  obtain ⟨he', hfe'⟩ := (hmem e').mp (by rw [hends]; simp)
  obtain ⟨x, xs, hx⟩ := List.exists_cons_of_ne_nil hfe
  obtain ⟨x', xs', hx'⟩ := List.exists_cons_of_ne_nil hfe'
  refine ⟨e, he, e', he', hne, ⟨x, by simp [hx], ?_⟩, x', by simp [hx'], ?_⟩
  · rw [← flatMap_filter_nonempty l, hends, List.flatMap_cons, hx]
    exact ⟨_, rfl⟩
  · rw [← flatMap_filter_nonempty l.reverse, List.filter_reverse, hends, List.reverse_cons,
      List.reverse_append, List.reverse_singleton, List.singleton_append, List.cons_append,
      List.flatMap_cons, hx']
    exact ⟨_, rfl⟩

/-! ### Streams -/

/-- The responses are written to a stream, in turn. -/
def Stream.writeEach (st : Stream) (rs : List WatchResponse) : Stream :=
  rs.foldl (fun st r => (st.write r).2) st

/-- What becomes of a stream depends on what is written to it alone. -/
theorem writeAll_apply (streams : Streams) (ws : List (StreamId × WatchResponse))
    (sid : StreamId) : writeAll streams ws sid = (streams sid).writeEach (writtenTo ws sid) := by
  induction ws generalizing streams with
  | nil => rfl
  | cons e ws ih =>
    rw [writeAll_cons, ih]
    by_cases hsid : e.1 = sid
    · subst hsid
      simp [writeAll, writtenTo, Stream.writeEach]
    · simp [writeAll, writtenTo, Stream.writeEach, hsid, Function.update_of_ne (Ne.symm hsid)]

/-- A stream that takes one write more takes the first. -/
theorem written_writeEach_first (r : WatchResponse) (rs : List WatchResponse) :
    ((⟨fun n => n = 0, []⟩ : Stream).writeEach (r :: rs)).written = [r] := by
  have hdead : ∀ (rs : List WatchResponse) (st : Stream), (∀ n, st.outcomes n = false) →
      (st.writeEach rs).written = st.written := by
    intro rs
    induction rs with
    | nil => exact fun st _ => rfl
    | cons r rs ih =>
      intro st hst
      rw [Stream.writeEach, List.foldl_cons]
      refine (ih _ fun n => hst (n + 1)).trans ?_
      simp [Stream.write, hst 0]
  exact hdead rs _ fun n => by simp [Stream.write]

theorem writtenTo_toWrites (sends : List (Watcher × WatchResponse)) (sid : StreamId) :
    writtenTo (toWrites sends) sid =
      (sends.filter fun e => e.1.stream = some sid).map Prod.snd := by
  induction sends with
  | nil => rfl
  | cons e sends ih =>
    have hsplit : writtenTo (toWrites (e :: sends)) sid =
        writtenTo (e.1.stream.toList.map fun sid => (sid, e.2)) sid ++
          writtenTo (toWrites sends) sid := by
      rw [toWrites, List.flatMap_cons, writtenTo, List.filter_append, List.map_append]
      rfl
    rw [hsplit, ih]
    cases hs : e.1.stream with
    | none => simp [writtenTo, hs]
    | some sid' => by_cases hsid : sid' = sid <;> simp [writtenTo, hs, hsid]

/-- What a notification writes to a stream is its response to each active watcher of the key that
has the stream. -/
theorem mem_writtenTo_notices {s : Server} {key : Bytes} {response : Watcher → WatchResponse}
    {sid : StreamId} {r : WatchResponse} :
    r ∈ writtenTo (toWrites (s.watchManager.notices key response)) sid ↔
      ∃ i w, Watches s key i w sid ∧ r = response w := by
  rw [writtenTo_toWrites]
  simp only [notices, List.mem_map, List.mem_filter, Prod.exists, UnorderedMap.mem_toList,
    Bool.and_eq_true, decide_eq_true_eq]
  constructor
  · rintro ⟨w, _, ⟨⟨i, w', ⟨hfind, hactive, hmatch⟩, heq⟩, hsid⟩, rfl⟩
    obtain ⟨rfl, rfl⟩ := Prod.mk.inj heq
    exact ⟨i, w', ⟨hfind, hactive, hsid, hmatch⟩, rfl⟩
  · rintro ⟨i, w, hw, rfl⟩
    exact ⟨w, _, ⟨⟨i, w, ⟨hw.registered, hw.active, hw.inRange⟩, rfl⟩, hw.stream⟩, rfl⟩

/-! ### Two orders of one table -/

/-- The server with its entries in another table. -/
def Server.withTable (s : Server) (table : UnorderedMap Bytes KeyInfo) : Server :=
  { s with kvStore := { s.kvStore with data := table } }

/-- A deletion gives the same results from both servers: the removed key-values that the handler
and the operation of a transaction return, and the events that each watcher is delivered,
whatever becomes of the writes to the streams. -/
structure SameResults (s t : Server) (r : DeleteRangeRequest) : Prop where
  deleteRange : (KVService.deleteRange t r).1.prevKvs = (KVService.deleteRange s r).1.prevKvs
  txn : (t.txnDeleteRange r).1.prevKvs = (s.txnDeleteRange r).1.prevKvs
  events : ∀ streams sid i,
    delivered (KVService.deleteRange { t with streams := streams } r).2.streams sid i =
      delivered (KVService.deleteRange { s with streams := streams } r).2.streams sid i

/-- The results are the same for every order of the table, that of the keys among them. -/
def OrderFree (s : Server) (r : DeleteRangeRequest) : Prop :=
  ∀ table : UnorderedMap Bytes KeyInfo, table.find? = s.kvStore.data.find? →
    SameResults s (s.withTable table) r

/-- There is nothing to order: one key at most is removed, if its key-value is asked for, and
no stream has watchers of two removed keys. -/
structure NothingToOrder (s : Server) (r : DeleteRangeRequest) : Prop where
  returned : r.prevKv = true → (s.kvStore.keysIn r.key r.rangeEnd).length ≤ 1
  notified : ∀ sid, ∀ k ∈ s.kvStore.keysIn r.key r.rangeEnd,
    ∀ k' ∈ s.kvStore.keysIn r.key r.rangeEnd,
      (∃ i w, Watches s k i w sid) → (∃ i w, Watches s k' i w sid) → k = k'

section Results

variable (s : Server) (r : DeleteRangeRequest)

theorem deleteRange_prevKvs : (KVService.deleteRange s r).1.prevKvs =
    if r.prevKv then (s.matched r.key r.rangeEnd).map fun e => e.2.kv else [] := by
  rw [KVService.deleteRange]
  dsimp only
  rw [delete_fst, if_pos rfl]
  rfl

theorem txnDeleteRange_prevKvs : (s.txnDeleteRange r).1.prevKvs =
    if r.prevKv then (s.matched r.key r.rangeEnd).map fun e => e.2.kv else [] := by
  rw [txnDeleteRange]
  cases r.prevKv <;> rfl

/-- What is written to a stream of the deletion of an entry. -/
def Server.sentOn (sid : StreamId) (e : Bytes × KeyInfo) : List WatchResponse :=
  writtenTo (toWrites (s.watchManager.notices e.2.kv.key fun w =>
    deleteResponse w e.2.kv (s.kvStore.revision + 1))) sid

variable {s}

theorem mem_sentOn {sid : StreamId} {e : Bytes × KeyInfo} {resp : WatchResponse} :
    resp ∈ s.sentOn sid e ↔ ∃ i w, Watches s e.2.kv.key i w sid ∧
      resp = deleteResponse w e.2.kv (s.kvStore.revision + 1) := mem_writtenTo_notices

theorem sentOn_ne_nil {sid : StreamId} {e : Bytes × KeyInfo} :
    s.sentOn sid e ≠ [] ↔ ∃ i w, Watches s e.2.kv.key i w sid := by
  constructor
  · intro hne
    obtain ⟨resp, hresp⟩ := List.exists_mem_of_ne_nil _ hne
    obtain ⟨i, w, hw, -⟩ := mem_sentOn.mp hresp
    exact ⟨i, w, hw⟩
  · rintro ⟨i, w, hw⟩
    exact List.ne_nil_of_mem (mem_sentOn.mpr ⟨i, w, hw, rfl⟩)

/-- What a stream becomes: it is written what is sent of each entry, in the order of the table. -/
theorem deleteRange_stream (hdel : s.kvStore.deleteCallback = true) (streams : Streams)
    (sid : StreamId) :
    (KVService.deleteRange { s with streams := streams } r).2.streams sid =
      (streams sid).writeEach ((s.matched r.key r.rangeEnd).flatMap (s.sentOn sid)) := by
  have hstreams := deleteRange_streams { s with streams := streams } hdel r
  rw [hstreams, sendAll_eq_writeAll, writeAll_apply]
  congr 1
  rw [WatchAct.sends, toWrites, List.flatMap_assoc, writtenTo, List.filter_flatMap,
    List.map_flatMap]
  rfl

end Results

/-! ### The removed keys -/

section Removed

variable {s : Server}

theorem nodup_matched (s : Server) (key rangeEnd : Bytes) : (s.matched key rangeEnd).Nodup :=
  s.kvStore.data.nodup_toList.filter _

theorem length_matched (s : Server) (key rangeEnd : Bytes) :
    (s.matched key rangeEnd).length = (s.kvStore.keysIn key rangeEnd).length := by
  rw [KVStore.keysIn, UnorderedMap.keys, List.filter_map, List.length_map]
  rfl

/-- An entry that is removed is found under the key of its key-value. -/
theorem find?_of_matched (h : s.kvStore.Keyed) {key rangeEnd : Bytes} {e : Bytes × KeyInfo}
    (he : e ∈ s.matched key rangeEnd) : s.kvStore.data.find? e.2.kv.key = some e.2 ∧
      e.2.kv.key ∈ s.kvStore.keysIn key rangeEnd := by
  obtain ⟨hfind, hr⟩ := mem_matched.mp he
  have hkey := h e.1 e.2 hfind
  rw [hkey, KVStore.keysIn, List.mem_filter, UnorderedMap.mem_keys]
  exact ⟨hfind, ⟨e.2, hfind⟩, hr⟩

/-- Entries that are removed differ in the keys of their key-values. -/
theorem matched_inj (h : s.kvStore.Keyed) {key rangeEnd : Bytes} {e e' : Bytes × KeyInfo}
    (he : e ∈ s.matched key rangeEnd) (he' : e' ∈ s.matched key rangeEnd)
    (hkey : e.2.kv.key = e'.2.kv.key) : e = e' := by
  have hfind := (mem_matched.mp he).1
  have hfind' := (mem_matched.mp he').1
  have hfst : e.1 = e'.1 := by rw [← h e.1 e.2 hfind, hkey, h e'.1 e'.2 hfind']
  rw [hfst, hfind'] at hfind
  exact Prod.ext hfst (Option.some.inj hfind).symm

/-- Every stored key of the range is the key of an entry that is removed. -/
theorem exists_matched (h : s.kvStore.Keyed) {key rangeEnd k : Bytes}
    (hk : k ∈ s.kvStore.keysIn key rangeEnd) :
    ∃ e ∈ s.matched key rangeEnd, e.2.kv.key = k := by
  obtain ⟨hmem, hr⟩ := List.mem_filter.mp hk
  obtain ⟨info, hfind⟩ := UnorderedMap.mem_keys.mp hmem
  exact ⟨(k, info), mem_matched.mpr ⟨hfind, hr⟩, h k info hfind⟩

theorem matched_withTable_perm {table : UnorderedMap Bytes KeyInfo}
    (h : table.find? = s.kvStore.data.find?) (key rangeEnd : Bytes) :
    ((s.withTable table).matched key rangeEnd).Perm (s.matched key rangeEnd) :=
  (UnorderedMap.toList_perm h).filter _

theorem matched_withTable_reverse (s : Server) (key rangeEnd : Bytes) :
    (s.withTable s.kvStore.data.reverse).matched key rangeEnd =
      (s.matched key rangeEnd).reverse := by
  show (s.kvStore.data.reverse.toList.filter _) = _
  rw [UnorderedMap.toList_reverse, List.filter_reverse]
  rfl

end Removed

/-! ### When the order shows -/

theorem NothingToOrder.orderFree {s : Server} (hkeyed : s.kvStore.Keyed)
    (hdel : s.kvStore.deleteCallback = true) {r : DeleteRangeRequest} (h : NothingToOrder s r) :
    OrderFree s r := by
  intro table htable
  have hperm := matched_withTable_perm htable r.key r.rangeEnd
  have hone : ∀ sid, ∀ e ∈ s.matched r.key r.rangeEnd, ∀ e' ∈ s.matched r.key r.rangeEnd,
      s.sentOn sid e ≠ [] → s.sentOn sid e' ≠ [] → e = e' := by
    intro sid e he e' he' hsent hsent'
    refine matched_inj hkeyed he he' ?_
    exact h.notified sid _ (find?_of_matched hkeyed he).2 _ (find?_of_matched hkeyed he').2
      (sentOn_ne_nil.mp hsent) (sentOn_ne_nil.mp hsent')
  have hreturned : ∀ kvs kvs' : List (Bytes × KeyInfo), kvs = s.matched r.key r.rangeEnd →
      kvs'.Perm kvs → r.prevKv = true → kvs' = kvs := by
    rintro kvs kvs' rfl hperm hprev
    have hlen := h.returned hprev
    rw [← length_matched] at hlen
    generalize s.matched r.key r.rangeEnd = small at hperm hlen
    match small, hlen with
    | [], _ => exact hperm.eq_nil
    | [e], _ => exact List.perm_singleton.mp hperm
  refine ⟨?_, ?_, fun streams sid i => ?_⟩
  · rw [deleteRange_prevKvs, deleteRange_prevKvs]
    split_ifs with hprev
    · rw [hreturned _ _ rfl hperm hprev]
    · rfl
  · rw [txnDeleteRange_prevKvs, txnDeleteRange_prevKvs]
    split_ifs with hprev
    · rw [hreturned _ _ rfl hperm hprev]
    · rfl
  · have hsent := flatMap_perm hperm (nodup_matched s r.key r.rangeEnd) (hone sid)
    have hleft := deleteRange_stream r (s := s.withTable table) hdel streams sid
    have hright := deleteRange_stream r hdel streams sid
    rw [delivered, delivered, hleft, hright, ← hsent]
    rfl

/-- The order shows in the key-values that are returned when there are two of them. -/
theorem OrderFree.returned {s : Server} (hkeyed : s.kvStore.Keyed) {r : DeleteRangeRequest}
    (h : OrderFree s r) (hprev : r.prevKv = true) :
    (s.kvStore.keysIn r.key r.rangeEnd).length ≤ 1 := by
  by_contra hlt
  rw [← length_matched, not_le] at hlt
  obtain ⟨e, mid, e', hne, hm⟩ := exists_ends (nodup_matched s r.key r.rangeEnd) hlt
  have hsame := (h s.kvStore.data.reverse (UnorderedMap.find?_reverse _)).deleteRange
  rw [deleteRange_prevKvs, deleteRange_prevKvs, if_pos hprev, if_pos hprev,
    matched_withTable_reverse, hm] at hsame
  have hkv : e'.2.kv = e.2.kv := by
    simp only [List.reverse_cons, List.reverse_append, List.reverse_nil, List.nil_append,
      List.cons_append, List.map_cons, List.cons.injEq] at hsame
    exact hsame.1
  have hmem : ∀ x ∈ e :: (mid ++ [e']), x ∈ s.matched r.key r.rangeEnd := fun x hx => hm ▸ hx
  exact hne (matched_inj hkeyed (hmem e (by simp)) (hmem e' (by simp)) (by rw [hkv]))

/-- It shows in what is delivered when two removed keys are watched over one stream: of a
stream that takes one write more, the first notification arrives. -/
theorem OrderFree.notified {s : Server} (hkeyed : s.kvStore.Keyed)
    (hdel : s.kvStore.deleteCallback = true) {r : DeleteRangeRequest} (h : OrderFree s r)
    {sid : StreamId} {k k' : Bytes} (hk : k ∈ s.kvStore.keysIn r.key r.rangeEnd)
    (hk' : k' ∈ s.kvStore.keysIn r.key r.rangeEnd) (hw : ∃ i w, Watches s k i w sid)
    (hw' : ∃ i w, Watches s k' i w sid) : k = k' := by
  by_contra hne
  obtain ⟨a, ha, rfl⟩ := exists_matched hkeyed hk
  obtain ⟨b, hb, rfl⟩ := exists_matched hkeyed hk'
  obtain ⟨e, he, e', he', hee, ⟨resp, hresp, rest, hfirst⟩, resp', hresp', rest', hlast⟩ :=
    flatMap_ends (nodup_matched s r.key r.rangeEnd) ha hb (fun hab => hne (by rw [hab]))
      (sentOn_ne_nil.mpr hw) (sentOn_ne_nil.mpr hw')
  obtain ⟨i, w, -, rfl⟩ := mem_sentOn.mp hresp
  obtain ⟨i', w', -, rfl⟩ := mem_sentOn.mp hresp'
  have hsame := (h s.kvStore.data.reverse (UnorderedMap.find?_reverse _)).events
    (fun _ => ⟨fun n => n = 0, []⟩) sid w.watchId
  have hleft := deleteRange_stream r (s := s.withTable s.kvStore.data.reverse) hdel
    (fun _ => ⟨fun n => n = 0, []⟩) sid
  have hlast' : ((s.withTable s.kvStore.data.reverse).matched r.key r.rangeEnd).flatMap
      ((s.withTable s.kvStore.data.reverse).sentOn sid) = _ :=
    (congrArg _ (matched_withTable_reverse s r.key r.rangeEnd)).trans hlast
  rw [hlast'] at hleft
  rw [delivered, delivered, hleft, deleteRange_stream r hdel, hfirst, written_writeEach_first,
    written_writeEach_first] at hsame
  -- The one order delivers the deletion of `e`, the other that of `e'` or nothing.
  refine hee (matched_inj hkeyed he he' ?_)
  by_cases hid : w'.watchId = w.watchId
  · simp only [deleteResponse, hid, decide_true, List.filter_cons_of_pos, List.filter_nil,
      List.flatMap_cons, List.flatMap_nil, List.append_nil, List.cons.injEq, and_true,
      Event.mk.injEq, true_and] at hsame
    rw [hsame]
  · simp [deleteResponse, hid] at hsame

/-- **When deletions do not depend on the order of the table**: exactly when there is nothing
to order. -/
theorem order_free_iff (s : Server) (hkeyed : s.kvStore.Keyed)
    (hdel : s.kvStore.deleteCallback = true) (r : DeleteRangeRequest) :
    OrderFree s r ↔ NothingToOrder s r :=
  ⟨fun h => ⟨h.returned hkeyed, fun _ _ hk _ hk' hw hw' => h.notified hkeyed hdel hk hk' hw hw'⟩,
    fun h => h.orderFree hkeyed hdel⟩

/-- The theorem at a store with one key. -/
theorem order_free_one : OrderFree ((Server.new .plain).put [97] [] 0 none).2
    { key := [97], rangeEnd := [0], prevKv := true } := by
  refine (order_free_iff _ (keyed_put (keyed_new .plain) [97] [] 0 none) rfl _).mpr
    ⟨fun _ => by decide, fun sid k hk k' hk' _ _ => ?_⟩
  have hkeys : ((Server.new .plain).put [97] [] 0 none).2.kvStore.keysIn [97] [0] = [[97]] := by
    decide
  rw [hkeys, List.mem_singleton] at hk hk'
  rw [hk, hk']

/-- The two removed key-values come back in the order of the table. -/
theorem order_shows : ¬ ∀ (s : Server) (r : DeleteRangeRequest), s.kvStore.Keyed →
    s.kvStore.deleteCallback = true → OrderFree s r := by
  intro h
  have hsame := (h twoKeys { key := [97], rangeEnd := [0], prevKv := true } twoKeys_keyed rfl
    twoKeys.kvStore.data.reverse (UnorderedMap.find?_reverse _)).deleteRange
  exact absurd hsame (by decide)

end EtcdLite
