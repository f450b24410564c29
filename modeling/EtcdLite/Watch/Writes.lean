import EtcdLite.Watch.Delivery
import EtcdLite.Watch.Operations

/-!
# Writes to streams

Everything the server sends is a list of writes, each of a response to a stream
(`writeAll`). A write may fail, so of the responses that are written to a stream only some
arrive; `carried` is those that carry a given watch id. Writing extends it by a part of the
responses written, in order (`carried_writeAll`), by all of them when the stream takes every
write, and by none when it takes no more.

The writes of an operation of the store are its notifications (`exec_streams_eq`); those that
carry a given id are meant for one watcher (`addressed_notices`).
-/

namespace EtcdLite

open Server WatchManager

/-! ### Streams -/

/-- No write to the stream succeeds any more. -/
def Dead (streams : Streams) (sid : StreamId) : Prop := ∀ n, (streams sid).outcomes n = false

/-- Once a write to the stream fails, every later one does. -/
def Sticky (streams : Streams) (sid : StreamId) : Prop :=
  ∀ n, (streams sid).outcomes n = false → (streams sid).outcomes (n + 1) = false

/-- The responses are written, in turn, each to its stream. -/
def writeAll (streams : Streams) (ws : List (StreamId × WatchResponse)) : Streams :=
  ws.foldl (fun streams e => Function.update streams e.1 ((streams e.1).write e.2).2) streams

/-- The writes that sending to watchers comes to. -/
def toWrites (sends : List (Watcher × WatchResponse)) : List (StreamId × WatchResponse) :=
  sends.flatMap fun e => e.1.stream.toList.map fun sid => (sid, e.2)

/-- The responses a stream has taken that carry a watch id. -/
def carried (streams : Streams) (sid : StreamId) (watchId : Int) : List WatchResponse :=
  (streams sid).written.filter fun r => r.watchId = watchId

/-- The writes of responses that carry a watch id. -/
def addressed (ws : List (StreamId × WatchResponse)) (watchId : Int) :
    List (StreamId × WatchResponse) :=
  ws.filter fun e => e.2.watchId = watchId

/-- The responses that are written to a stream. -/
def writtenTo (ws : List (StreamId × WatchResponse)) (sid : StreamId) : List WatchResponse :=
  (ws.filter fun e => e.1 = sid).map Prod.snd

theorem writeAll_cons (streams : Streams) (e : StreamId × WatchResponse)
    (ws : List (StreamId × WatchResponse)) :
    writeAll streams (e :: ws) = writeAll (writeAll streams [e]) ws := rfl

theorem writeAll_append (streams : Streams) (ws ws' : List (StreamId × WatchResponse)) :
    writeAll streams (ws ++ ws') = writeAll (writeAll streams ws) ws' := List.foldl_append

theorem sendAll_eq_writeAll (streams : Streams) (sends : List (Watcher × WatchResponse)) :
    sendAll streams sends = writeAll streams (toWrites sends) := by
  induction sends generalizing streams with
  | nil => rfl
  | cons e sends ih =>
    have hone : (sendWatchResponse e.1 e.2 streams).2 =
        writeAll streams (e.1.stream.toList.map fun sid => (sid, e.2)) := by
      rw [sendWatchResponse]
      cases e.1.stream <;> rfl
    rw [toWrites, List.flatMap_cons, writeAll_append, ← hone]
    exact ih _

/-- What is written to a stream is what is sent to a watcher of the stream. -/
theorem mem_toWrites {sends : List (Watcher × WatchResponse)} {e : StreamId × WatchResponse}
    (h : e ∈ toWrites sends) : ∃ w, (w, e.2) ∈ sends ∧ w.stream = some e.1 := by
  obtain ⟨⟨w, r⟩, hmem, he⟩ := List.mem_flatMap.mp h
  obtain ⟨sid, hsid, rfl⟩ := List.mem_map.mp he
  exact ⟨w, hmem, Option.mem_toList.mp hsid⟩

theorem eq_of_mem_toWrites {w : Watcher} {r : WatchResponse} {e : StreamId × WatchResponse}
    (h : e ∈ toWrites [(w, r)]) : e.2 = r := by
  obtain ⟨w', hmem, -⟩ := mem_toWrites h
  exact congrArg Prod.snd (List.mem_singleton.mp hmem)

/-- A stream has taken nothing but what was written. -/
theorem written_writeAll {streams : Streams} {ws : List (StreamId × WatchResponse)}
    {sid : StreamId} {r : WatchResponse} (h : r ∈ (writeAll streams ws sid).written) :
    r ∈ (streams sid).written ∨ ∃ e ∈ ws, e.2 = r := by
  induction ws generalizing streams with
  | nil => exact .inl h
  | cons e ws ih =>
    rw [writeAll_cons] at h
    rcases ih h with h | ⟨e', he', rfl⟩
    · by_cases hsid : sid = e.1
      · subst hsid
        simp only [writeAll, List.foldl_cons, List.foldl_nil, Function.update_self,
          Stream.write] at h
        split_ifs at h
        · rcases List.mem_append.mp h with h | h
          · exact .inl h
          · exact .inr ⟨e, List.mem_cons_self, (List.mem_singleton.mp h).symm⟩
        · exact .inl h
      · rw [writeAll, List.foldl_cons, List.foldl_nil, Function.update_of_ne hsid] at h
        exact .inl h
    · exact .inr ⟨e', List.mem_cons_of_mem _ he', rfl⟩

theorem delivered_eq (streams : Streams) (sid : StreamId) (i : Int) :
    delivered streams sid i = (carried streams sid i).flatMap WatchResponse.events := rfl

section WriteAll

variable {streams : Streams} {sid : StreamId}

/-- Writing uses up outcomes. -/
theorem outcomes_writeAll (streams : Streams) (sid : StreamId)
    (ws : List (StreamId × WatchResponse)) :
    ∃ k, ∀ n, (writeAll streams ws sid).outcomes n = (streams sid).outcomes (n + k) := by
  induction ws generalizing streams with
  | nil => exact ⟨0, fun n => rfl⟩
  | cons e ws ih =>
    obtain ⟨k, hk⟩ := ih (Function.update streams e.1 ((streams e.1).write e.2).2)
    by_cases hsid : sid = e.1
    · subst hsid
      refine ⟨k + 1, fun n => ?_⟩
      refine (hk n).trans ?_
      rw [Function.update_self]
      rfl
    · refine ⟨k, fun n => ?_⟩
      refine (hk n).trans ?_
      rw [Function.update_of_ne hsid]

theorem Writable.writeAll (h : Writable streams sid) (ws : List (StreamId × WatchResponse)) :
    Writable (writeAll streams ws) sid := by
  obtain ⟨k, hk⟩ := outcomes_writeAll streams sid ws
  intro n
  rw [hk]
  exact h (n + k)

theorem Dead.writeAll (h : Dead streams sid) (ws : List (StreamId × WatchResponse)) :
    Dead (writeAll streams ws) sid := by
  obtain ⟨k, hk⟩ := outcomes_writeAll streams sid ws
  intro n
  rw [hk]
  exact h (n + k)

theorem Sticky.writeAll (h : Sticky streams sid) (ws : List (StreamId × WatchResponse)) :
    Sticky (writeAll streams ws) sid := by
  obtain ⟨k, hk⟩ := outcomes_writeAll streams sid ws
  intro n hn
  rw [hk] at hn ⊢
  have hnext := h (n + k) hn
  rwa [show n + k + 1 = n + 1 + k by omega] at hnext

/-- A stream that has not taken a write takes no more. -/
theorem Sticky.dead (h : Sticky streams sid) (hfail : (streams sid).outcomes 0 = false)
    (r : WatchResponse) : Dead (EtcdLite.writeAll streams [(sid, r)]) sid := by
  have hall : ∀ n, (streams sid).outcomes n = false := by
    intro n
    induction n with
    | zero => exact hfail
    | succ n ih => exact h n ih
  exact Dead.writeAll hall [(sid, r)]

/-- What one write does to the responses that carry an id. -/
theorem carried_write (streams : Streams) (sid : StreamId) (i : Int)
    (e : StreamId × WatchResponse) :
    carried (writeAll streams [e]) sid i = carried streams sid i ++
      if e.1 = sid ∧ e.2.watchId = i ∧ (streams sid).outcomes 0 = true then [e.2] else [] := by
  unfold carried writeAll
  rw [List.foldl_cons, List.foldl_nil]
  by_cases hsid : sid = e.1
  · subst hsid
    cases hok : (streams e.1).outcomes 0 with
    | false => simp [Stream.write, hok]
    | true => by_cases hid : e.2.watchId = i <;> simp [Stream.write, hok, hid]
  · simp [Function.update_of_ne hsid, Ne.symm hsid]

theorem writtenTo_addressed_cons (e : StreamId × WatchResponse)
    (ws : List (StreamId × WatchResponse)) (sid : StreamId) (i : Int) :
    writtenTo (addressed (e :: ws) i) sid =
      (if e.1 = sid ∧ e.2.watchId = i then [e.2] else []) ++ writtenTo (addressed ws i) sid := by
  unfold writtenTo addressed
  by_cases hid : e.2.watchId = i <;> by_cases hsid : e.1 = sid <;> simp [hid, hsid]

/-- **Writing extends what a stream carries for an id** by a part of what is written to it for
the id, in order. -/
theorem carried_writeAll (streams : Streams) (ws : List (StreamId × WatchResponse))
    (sid : StreamId) (i : Int) : ∃ l, l.Sublist (writtenTo (addressed ws i) sid) ∧
      carried (writeAll streams ws) sid i = carried streams sid i ++ l := by
  induction ws generalizing streams with
  | nil => exact ⟨[], .slnil, (List.append_nil _).symm⟩
  | cons e ws ih =>
    obtain ⟨l, hl, hcarried⟩ := ih (writeAll streams [e])
    rw [carried_write, List.append_assoc] at hcarried
    refine ⟨_, ?_, hcarried⟩
    · rw [writtenTo_addressed_cons]
      refine List.Sublist.append ?_ hl
      split_ifs with h₁ h₂ h₂
      · exact .refl _
      · exact absurd ⟨h₁.1, h₁.2.1⟩ h₂
      · exact List.nil_sublist _
      · exact .refl _

/-- A stream that takes every write carries all of it. -/
theorem carried_writeAll_of_writable (h : Writable streams sid)
    (ws : List (StreamId × WatchResponse)) (i : Int) :
    carried (writeAll streams ws) sid i =
      carried streams sid i ++ writtenTo (addressed ws i) sid := by
  induction ws generalizing streams with
  | nil => exact (List.append_nil _).symm
  | cons e ws ih =>
    rw [writeAll_cons, ih (h.writeAll [e]), carried_write, List.append_assoc,
      writtenTo_addressed_cons]
    simp only [h 0, and_true]

/-- A dead stream carries nothing new. -/
theorem carried_writeAll_of_dead (h : Dead streams sid) (ws : List (StreamId × WatchResponse))
    (i : Int) : carried (writeAll streams ws) sid i = carried streams sid i := by
  induction ws generalizing streams with
  | nil => rfl
  | cons e ws ih =>
    rw [writeAll_cons, ih (h.writeAll [e]), carried_write]
    simp [h 0]

end WriteAll

section Addressed

variable {streams : Streams} {all : List (StreamId × WatchResponse)} {i : Int}

/-- Writes that do not carry the id. -/
theorem carried_of_addressed_nil (h : addressed all i = []) (sid : StreamId) :
    carried (writeAll streams all) sid i = carried streams sid i := by
  obtain ⟨l, hl, hcarried⟩ := carried_writeAll streams all sid i
  rw [h] at hl
  rw [hcarried, List.sublist_nil.mp hl, List.append_nil]

/-- Writes that carry the id to one stream are not on another. -/
theorem carried_of_other {sid sid' : StreamId} (hne : sid' ≠ sid) {rs : List WatchResponse}
    (hrs : addressed all i = rs.map fun r => (sid, r)) :
    carried (writeAll streams all) sid' i = carried streams sid' i := by
  obtain ⟨l, hl, hcarried⟩ := carried_writeAll streams all sid' i
  have hnil : writtenTo (addressed all i) sid' = [] := by
    rw [hrs, writtenTo, List.map_eq_nil_iff, List.filter_eq_nil_iff]
    intro e he
    obtain ⟨r, -, rfl⟩ := List.mem_map.mp he
    simpa using hne.symm
  rw [hnil] at hl
  rw [hcarried, List.sublist_nil.mp hl, List.append_nil]

/-- On that stream, some of them arrive. -/
theorem carried_writeAll_sublist (streams : Streams) {sid : StreamId} {rs : List WatchResponse}
    (hrs : addressed all i = rs.map fun r => (sid, r)) :
    ∃ l, l.Sublist rs ∧ carried (writeAll streams all) sid i = carried streams sid i ++ l := by
  obtain ⟨l, hl, hcarried⟩ := carried_writeAll streams all sid i
  refine ⟨l, ?_, hcarried⟩
  have hall : writtenTo (addressed all i) sid = rs := by
    rw [hrs, writtenTo, List.filter_eq_self.mpr, List.map_map]
    · exact List.map_id _
    · intro e he
      obtain ⟨r, -, rfl⟩ := List.mem_map.mp he
      simp
  rwa [hall] at hl

end Addressed

/-! ### Notifications -/

/-- The responses an operation of the store sends: a put notifies of the key-value it stores, a
deletion of those it collects for its output, and a transaction of nothing. -/
def KvOp.sends (s : Server) : KvOp → List (Watcher × WatchResponse)
  | .put key value lease prevKv => (WatchAct.put key value lease prevKv).sends s
  | .delete key rangeEnd prevKvs =>
    if prevKvs then (WatchAct.deleteRange { key := key, rangeEnd := rangeEnd }).sends s else []
  | .txn _ _ _ => []

/-- A deletion whose caller does not ask for the deleted key-values notifies of nothing. -/
theorem delete_streams_false (s : Server) (key rangeEnd : Bytes) :
    (s.delete key rangeEnd false).2.streams = s.streams := by
  have hkvs : ((s.setRevision (s.kvStore.revision + 1)).deleteMany key rangeEnd false).1 = [] := rfl
  rw [delete_eq]
  dsimp only
  rw [hkvs]
  split_ifs <;> rfl

/-- The streams after an operation of the store are those before, and its notifications. -/
theorem exec_streams_eq {s : Server} (hput : s.kvStore.putCallback = true)
    (hdel : s.kvStore.deleteCallback = true) (op : KvOp) :
    (op.exec s).streams = writeAll s.streams (toWrites (op.sends s)) := by
  rw [← sendAll_eq_writeAll]
  cases op with
  | put key value lease prevKv => exact put_streams s hput key value lease prevKv
  | delete key rangeEnd prevKvs =>
    cases prevKvs with
    | true => exact deleteRange_streams s hdel { key := key, rangeEnd := rangeEnd }
    | false => exact delete_streams_false s key rangeEnd
  | txn compares success failure =>
    rw [KvOp.exec, txn_snd]
    exact (txnOps_rest _ _ _).2.2

/-- Of the writes of a notification, those that carry an id go to the watcher that has it. -/
theorem addressed_notices {wm : WatchManager} (h : wm.InOrder) (i : Int) (key : Bytes)
    {response : Watcher → WatchResponse} (hresponse : ∀ w, (response w).watchId = w.watchId) :
    addressed (toWrites (wm.notices key response)) i =
      (wm.watchers.find? i).toList.flatMap fun w =>
        if keyMatchesWatcher key w then w.stream.toList.map fun sid => (sid, response w)
        else [] := by
  have hflat : addressed (toWrites (wm.notices key response)) i =
      wm.watchers.toList.flatMap fun e =>
        if e.2.active && keyMatchesWatcher key e.2 then
          addressed (e.2.stream.toList.map fun sid => (sid, response e.2)) i
        else [] := by
    rw [notices, toWrites, List.flatMap_map, UnorderedMap.flatMap_filter, addressed,
      List.filter_flatMap]
    refine List.flatMap_congr fun e _ => ?_
    split_ifs <;> rfl
  rw [hflat, UnorderedMap.flatMap_toList wm.watchers i]
  · refine List.flatMap_congr fun w hw => ?_
    have hfind := Option.mem_toList.mp hw
    have hid : (response w).watchId = i := (hresponse w).trans (h.id_eq i w hfind)
    rw [h.active i w hfind, Bool.true_and]
    split_ifs
    · cases w.stream <;> simp [addressed, hid]
    · rfl
  · rintro ⟨i', w⟩ hmem hne
    have hid := (hresponse w).trans (h.id_eq i' w (UnorderedMap.mem_toList.mp hmem))
    split_ifs
    · cases w.stream with
      | none => rfl
      | some sid => simpa [addressed, hid] using hne
    · rfl

end EtcdLite
