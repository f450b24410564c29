import EtcdLite.Kv.TxnSequential
import EtcdLite.Lease.Leased
import EtcdLite.Watch.Life

/-!
# Which writes are notified of

A function of the server fires a list of notifications (`Fires`): whatever watchers there are,
and whatever becomes of the writes to their streams, what it sends is what `NotifyPut` and
`NotifyDelete` send when they are called with the list, in order. There is one such list
(`Fires.unique`).

`Put` fires one notification, and `Delete` one for each key it removes when its caller asks for
the removed key-values, as `DeleteRange` does. A revocation does not ask for them, so it fires
none (`revocation_told_iff`). `Txn` fires none either, for any of its operations
(`txn_fires_iff`).
-/

namespace EtcdLite

open Server WatchManager

/-! ### Notifications -/

/-- A call of one of the watch callbacks, at a revision. -/
inductive Notification where
  | put (kv : KeyValue) (prevKv : Option KeyValue) (revision : Int)
  | delete (kv : KeyValue) (revision : Int)
  deriving DecidableEq, Repr

namespace Notification

/-- The call: `NotifyPut` or `NotifyDelete`. -/
def fire (wm : WatchManager) (streams : Streams) : Notification → Streams
  | .put kv prevKv revision => wm.notifyPut kv.key kv prevKv revision streams
  | .delete kv revision => wm.notifyDelete kv.key kv revision streams

/-- The key it is about. -/
def key : Notification → Bytes
  | .put kv _ _ | .delete kv _ => kv.key

/-- What it sends to a watcher. -/
def response (w : Watcher) : Notification → WatchResponse
  | .put kv prevKv revision => putResponse w kv prevKv revision
  | .delete kv revision => deleteResponse w kv revision

theorem fire_eq (wm : WatchManager) (streams : Streams) (n : Notification) :
    n.fire wm streams = sendAll streams (wm.notices n.key fun w => n.response w) := by
  cases n with
  | put kv prevKv revision =>
    exact wm.notify_eq kv.key (fun w => putResponse w kv prevKv revision) streams
  | delete kv revision => exact wm.notify_eq kv.key (fun w => deleteResponse w kv revision) streams

/-- A watcher that asks for the previous key-values is told all there is to a notification. -/
theorem response_injective {w : Watcher} (hw : w.prevKv = true) {n n' : Notification}
    (h : n.response w = n'.response w) : n = n' := by
  cases n <;> cases n' <;>
    simp_all [response, putResponse, deleteResponse, eventHeader]

end Notification

/-- The calls, one after another. -/
def fireAll (wm : WatchManager) (streams : Streams) (ns : List Notification) : Streams :=
  ns.foldl (fun streams n => n.fire wm streams) streams

/-- The server with these watchers, on these streams. -/
def Server.observedBy (s : Server) (wm : WatchManager) (streams : Streams) : Server :=
  { s with watchManager := wm, streams := streams }

/-- The function, called in this state, fires these notifications. -/
def Fires (f : Server → Server) (s : Server) (ns : List Notification) : Prop :=
  ∀ wm streams, (f (s.observedBy wm streams)).streams = fireAll wm streams ns

/-! ### There is one list -/

/-- A watcher of every key. -/
def everyKey : Watcher :=
  { watchId := 1, key := [], rangeEnd := [0], startRevision := 0, prevKv := true, stream := some 0,
    clusterId := 1, memberId := 1 }

/-- A registry with that watcher. -/
def everyKeyManager : WatchManager :=
  { watchers := (UnorderedMap.empty (.front Int Watcher)).insert 1 everyKey, nextWatchId := 2,
    clusterId := 1, memberId := 1 }

theorem notices_everyKey (key : Bytes) (response : Watcher → WatchResponse) :
    everyKeyManager.notices key response = [(everyKey, response everyKey)] := by
  have hmatch : keyMatchesWatcher key everyKey = true := by
    simp only [keyMatchesWatcher, everyKey, List.not_lt_nil, if_false, if_true]
    exact decide_eq_true (not_lt.mp (List.not_lt_nil key))
  have hlist : everyKeyManager.watchers.toList = [(1, everyKey)] := rfl
  have hactive : everyKey.active = true := rfl
  simp [notices, hlist, hmatch, hactive]

/-- The watcher of every key receives each notification. -/
theorem written_everyKey (ns : List Notification) {streams : Streams}
    (h : Writable streams 0) : (fireAll everyKeyManager streams ns 0).written =
      (streams 0).written ++ ns.map fun n => n.response everyKey := by
  induction ns generalizing streams with
  | nil => simp [fireAll]
  | cons n ns ih =>
    have hfire : n.fire everyKeyManager streams =
        Function.update streams 0 ((streams 0).write (n.response everyKey)).2 := by
      rw [n.fire_eq, notices_everyKey]
      rfl
    have hwr : Writable (n.fire everyKeyManager streams) 0 := by
      intro m
      rw [hfire, Function.update_self]
      exact h (m + 1)
    have hone : (n.fire everyKeyManager streams 0).written =
        (streams 0).written ++ [n.response everyKey] := by
      rw [hfire, Function.update_self]
      simp [Stream.write, h 0]
    rw [show fireAll everyKeyManager streams (n :: ns) =
      fireAll everyKeyManager (n.fire everyKeyManager streams) ns from rfl, ih hwr, hone]
    simp

/-- **A function fires one list of notifications.** -/
theorem Fires.unique {f : Server → Server} {s : Server} {ns ns' : List Notification}
    (h : Fires f s ns) (h' : Fires f s ns') : ns = ns' := by
  have hwr : Writable (fun _ => ⟨fun _ => true, []⟩) 0 := fun _ => rfl
  have hresponses := congrArg (fun streams : Streams => (streams 0).written)
    ((h everyKeyManager _).symm.trans (h' everyKeyManager fun _ => ⟨fun _ => true, []⟩))
  rw [written_everyKey ns hwr, written_everyKey ns' hwr, List.append_cancel_left_eq] at hresponses
  exact List.map_injective_iff.mpr (fun n n' => Notification.response_injective rfl) hresponses

/-! ### What the operations fire -/

theorem sendAll_flatMap {α : Type} (streams : Streams) (l : List α)
    (f : α → List (Watcher × WatchResponse)) :
    sendAll streams (l.flatMap f) = l.foldl (fun streams a => sendAll streams (f a)) streams := by
  induction l generalizing streams with
  | nil => rfl
  | cons a l ih =>
    rw [List.flatMap_cons, sendAll, List.foldl_append]
    exact ih _

/-- The notification of a put. -/
def Server.putNotification (s : Server) (key value : Bytes) (lease revision : Int) : Notification :=
  .put (putInfo (s.data key) key value lease revision).kv ((s.data key).map KeyInfo.kv) revision

/-- A notification for each key of a range, in the order of the table. -/
def Server.deleteNotifications (s : Server) (key rangeEnd : Bytes) (revision : Int) :
    List Notification :=
  (s.matched key rangeEnd).map fun e => .delete e.2.kv revision

theorem fires_put {s : Server} (h : s.kvStore.putCallback = true) (key value : Bytes) (lease : Int)
    (prevKv : Option KeyValue) : Fires (fun s => (s.put key value lease prevKv).2) s
      [s.putNotification key value lease (s.kvStore.revision + 1)] := by
  intro wm streams
  rw [put_streams (s.observedBy wm streams) h]
  exact (Notification.fire_eq wm streams (s.putNotification key value lease
    (s.kvStore.revision + 1))).symm

theorem fires_delete {s : Server} (h : s.kvStore.deleteCallback = true) (key rangeEnd : Bytes)
    (prevKvs : Bool) : Fires (fun s => (s.delete key rangeEnd prevKvs).2) s
      (if prevKvs then s.deleteNotifications key rangeEnd (s.kvStore.revision + 1) else []) := by
  intro wm streams
  cases prevKvs with
  | false => exact delete_streams_false (s.observedBy wm streams) key rangeEnd
  | true =>
    have hstreams := deleteRange_streams (s.observedBy wm streams) h
      { key := key, rangeEnd := rangeEnd }
    rw [WatchAct.sends, sendAll_flatMap] at hstreams
    rw [if_pos rfl, fireAll, deleteNotifications, List.foldl_map]
    refine hstreams.trans ?_
    congr 1
    funext streams e
    exact (Notification.fire_eq wm streams (.delete e.2.kv (s.kvStore.revision + 1))).symm

theorem fires_txn (s : Server) (compares : List Compare) (success failure : List RequestOp) :
    Fires (fun s => (s.txn compares success failure).2) s [] := by
  intro wm streams
  dsimp only
  rw [txn_snd]
  exact (txnOps_rest _ _ _).2.2

/-! ### Revocations -/

/-- An active watcher of a key, with its id and its stream. -/
structure Watches (s : Server) (k : Bytes) (i : Int) (w : Watcher) (sid : StreamId) : Prop where
  registered : s.watchManager.watchers.find? i = some w
  active : w.active = true
  stream : w.stream = some sid
  inRange : keyMatchesWatcher k w = true

/-- No active watcher's range has the key. -/
def Unwatched (s : Server) (k : Bytes) : Prop := ∀ i w sid, ¬ Watches s k i w sid

/-- For each key that the function removes, each active watcher of the key is delivered, on a
stream that takes every write, exactly one `DELETE` event of the key, with what is removed. -/
def Tells (f : Server → Server) (s : Server) : Prop :=
  ∀ k info, s.data k = some info → (f s).data k = none →
    ∀ i w sid, Watches s k i w sid → ∀ streams, Writable streams sid →
      ∃ new, delivered (f (s.observedBy s.watchManager streams)).streams sid i =
          delivered streams sid i ++ new ∧
        (new.filter fun e => e.type = .DELETE ∧ e.kv.key = k) = [{ type := .DELETE, kv := info.kv }]

/-- No key of the lease that is in the store is watched. -/
def RevokesUnwatched (s : Server) (L : Int) : Prop :=
  ∀ ks, s.leaseManager.getLeaseKeys L = .ok ks → ∀ k ∈ ks, (s.data k).isSome → Unwatched s k

theorem revoke_streams (s : Server) (L : Int) : (s.revoke L).2.streams = s.streams := by
  have hkeys : ∀ (ks : List Bytes) (s : Server),
      (ks.foldl deleteKeyCallback s).streams = s.streams := by
    intro ks
    induction ks with
    | nil => exact fun s => rfl
    | cons k ks ih => exact fun s => (ih _).trans (delete_streams_false s k [])
  rw [Server.revoke]
  cases s.leaseManager.getLeaseKeys L with
  | error rc => rfl
  | ok ks =>
    dsimp only
    split_ifs
    · exact hkeys ks s
    · rfl

/-- What a revocation does to the data. -/
theorem data_revoke {s : Server} (h : s.leaseManager.deleteKeyCallback = true) {L : Int}
    {ks : List Bytes} (hks : s.leaseManager.getLeaseKeys L = .ok ks) (k : Bytes) :
    (s.revoke L).2.data k = if k ∈ ks then none else s.data k := by
  have hdata : (s.revoke L).2.data k = (ks.foldl deleteKeyCallback s).data k := by
    rw [Server.revoke, hks]
    simp only [h, if_true]
    rfl
  rw [hdata, data_deleteKeys]

/-- **A revocation tells its watchers only when it has none.** -/
theorem tells_revoke_iff {s : Server} (h : s.leaseManager.deleteKeyCallback = true) (L : Int) :
    Tells (fun s => (s.revoke L).2) s ↔ RevokesUnwatched s L := by
  constructor
  · intro htells ks hks k hk hsome i w sid hw
    obtain ⟨info, hinfo⟩ := Option.isSome_iff_exists.mp hsome
    have hremoved : (s.revoke L).2.data k = none := by
      rw [data_revoke h hks, if_pos hk]
    obtain ⟨new, hnew, hone⟩ := htells k info hinfo hremoved i w sid hw
      (fun _ => ⟨fun _ => true, []⟩) fun _ => rfl
    rw [revoke_streams] at hnew
    obtain rfl : new = [] := List.self_eq_append_right.mp hnew
    cases hone
  · intro hunwatched k info hinfo hremoved i w sid hw
    have hremoved : (s.revoke L).2.data k = none := hremoved
    cases hks : s.leaseManager.getLeaseKeys L with
    | error rc =>
      have hsame : (s.revoke L).2 = s := by rw [Server.revoke, hks]
      rw [hsame, hinfo] at hremoved
      cases hremoved
    | ok ks =>
      rw [data_revoke h hks, hinfo] at hremoved
      split_ifs at hremoved with hk
      exact absurd hw (hunwatched ks hks k hk (by rw [hinfo]; rfl) i w sid)

/-- A deletion fires one notification for each key it removes exactly when its caller asks for
the removed key-values, or there are none. -/
theorem fires_delete_iff {s : Server} (h : s.kvStore.deleteCallback = true) (key rangeEnd : Bytes)
    (prevKvs : Bool) : Fires (fun s => (s.delete key rangeEnd prevKvs).2) s
        (s.deleteNotifications key rangeEnd (s.kvStore.revision + 1)) ↔
      prevKvs = true ∨ s.matched key rangeEnd = [] := by
  have hfires := fires_delete h key rangeEnd prevKvs
  have hnil : s.deleteNotifications key rangeEnd (s.kvStore.revision + 1) = [] ↔
      s.matched key rangeEnd = [] := List.map_eq_nil_iff
  cases prevKvs with
  | true => exact iff_of_true hfires (.inl rfl)
  | false =>
    rw [if_neg Bool.false_ne_true] at hfires
    constructor
    · exact fun hone => .inr (hnil.mp (hone.unique hfires))
    · rintro (hfalse | hmatched)
      · cases hfalse
      · rwa [hnil.mpr hmatched]

namespace WatchSystem

/-- The store and the lease manager stay indexed, whatever the handlers do. -/
theorem indexed_step {y : WatchSystem} (h : Indexed y.server) (a : Action) :
    Indexed (y.step a).server := by
  rcases step_cases y a with ⟨atom, -, hz⟩ | ⟨sid, hm⟩ | ⟨-, -, hz⟩
  · rw [hz]
    exact h.exec atom
  · generalize y.step a = z at hm
    cases hm <;> exact h.congr rfl rfl
  · rw [hz]
    exact h

theorem indexed_run (env : Env) (acts : List Action) : Indexed ((start env).run acts).server :=
  Run.invariant WatchSystem.step (I := fun y => Indexed y.server) (fun _ a h => indexed_step h a)
    ⟨_, sound_new env⟩ acts

/-- **Expiry is visible to watchers only when nobody watches.** In any state that can be
reached, and after any revocations in it, as `CheckExpiration` makes them: the revocation of a
lease gives every active watcher of each key it removes exactly one `DELETE` event if and only
if no active watcher's range has a key of the lease that is in the store. The deletion it goes
through fires one notification for each key it removes if and only if its caller asks for
the removed key-values, or no key is removed. -/
theorem revocation_told_iff (env : Env) (acts : List Action) :
    let s := ((start env).run acts).server
    (∀ Ls L, let t := Run.final (fun s L => (s.revoke L).2) s Ls
      Tells (fun s => (s.revoke L).2) t ↔ RevokesUnwatched t L) ∧
    ∀ key rangeEnd prevKvs, Fires (fun s => (s.delete key rangeEnd prevKvs).2) s
        (s.deleteNotifications key rangeEnd (s.kvStore.revision + 1)) ↔
      prevKvs = true ∨ s.matched key rangeEnd = [] := by
  intro s
  refine ⟨fun Ls L => ?_, fun key rangeEnd prevKvs => ?_⟩
  · have ht : Indexed (Run.final (fun s L => (s.revoke L).2) s Ls) :=
      Run.invariant (fun s L => (s.revoke L).2) (fun _ L hs => hs.revoke L) (indexed_run env acts) Ls
    obtain ⟨tag, hsound⟩ := ht
    exact tells_revoke_iff hsound.callback L
  · exact fires_delete_iff (orderly_run env acts).watched.deleteCallback key rangeEnd prevKvs

/-- **A key of a revoked lease goes without an event.** -/
theorem revocation_untold :
    let s := ((start .plain).run [.connect 0, .request 0 (.createRequest { key := [107] }),
      .resume 0, .resume 0, .resume 0, .resume 0, .atom (.grant 0 5),
      .atom (.kv (.put [107] [118] 1 none))]).server
    (s.watchManager.watchers.find? 1).map (fun w => (w.key, w.active, w.stream)) =
        some ([107], true, some 0) ∧
      (s.data [107]).map (fun info => info.kv.lease) = some 1 ∧
      (s.revoke 1).2.data [107] = none ∧
      delivered (s.revoke 1).2.streams 0 1 = delivered s.streams 0 1 := by
  decide

end WatchSystem

/-! ### Transactions -/

namespace Server

/-- The notifications of an operation of a transaction, at the transaction's revision. -/
def opNotifications (s : Server) (revision : Int) : RequestOp → List Notification
  | .requestPut r => [s.putNotification r.key r.value r.lease revision]
  | .requestDeleteRange r => s.deleteNotifications r.key r.rangeEnd revision
  | .requestRange _ | .requestTxn _ _ _ | .notSet => []

/-- The notifications of the operations, each in the state the ones before it leave. -/
def opsNotifications (s : Server) (revision : Int) : List RequestOp → List Notification
  | [] => []
  | op :: ops => s.opNotifications revision op ++ (s.txnOp revision op).2.opsNotifications revision ops

/-- The operation puts nothing, and removes nothing that is in the store. -/
def Quiet (s : Server) : RequestOp → Prop
  | .requestPut _ => False
  | .requestDeleteRange r => s.matched r.key r.rangeEnd = []
  | .requestRange _ | .requestTxn _ _ _ | .notSet => True

end Server

theorem opNotifications_eq_nil_iff (s : Server) (revision : Int) (op : RequestOp) :
    s.opNotifications revision op = [] ↔ s.Quiet op := by
  cases op <;> simp [opNotifications, deleteNotifications, Quiet]

/-- A quiet operation leaves the data alone. -/
theorem Server.Quiet.data {s : Server} {op : RequestOp} (h : s.Quiet op) (revision : Int) :
    (s.txnOp revision op).2.kvStore.data = s.kvStore.data := by
  cases op with
  | requestPut r => exact h.elim
  | requestDeleteRange r =>
    have hmatched : (s.kvStore.data.toList.filter fun e => keyInRange e.1 r.key r.rangeEnd) = [] := h
    simp [txnOp, txnDeleteRange, hmatched, detachAndErase]
  | requestRange r => rfl
  | requestTxn c p q => rfl
  | notSet => rfl

theorem opsNotifications_eq_nil_iff (s : Server) (revision : Int) (ops : List RequestOp) :
    s.opsNotifications revision ops = [] ↔ ∀ op ∈ ops, s.Quiet op := by
  induction ops generalizing s with
  | nil => simp [opsNotifications]
  | cons op ops ih =>
    rw [opsNotifications, List.append_eq_nil_iff, opNotifications_eq_nil_iff, ih,
      List.forall_mem_cons]
    refine and_congr_right fun hquiet => ?_
    have hsame : ∀ op', (s.txnOp revision op).2.Quiet op' ↔ s.Quiet op' := by
      intro op'
      cases op' <;> simp only [Quiet, matched, hquiet.data revision]
    simp only [hsame]

/-- What an operation fires through its handler. -/
theorem runAt_streams {s t : Server} (h : SameData s t) (hput : t.kvStore.putCallback = true)
    (hdel : t.kvStore.deleteCallback = true) (revision : Int) (op : PlainOp) :
    (op.runAt revision t).2.streams = fireAll t.watchManager t.streams
        (s.opNotifications revision op.toRequestOp) ∧
      (op.runAt revision t).2.watchManager = t.watchManager ∧
      (op.runAt revision t).2.kvStore.putCallback = true ∧
      (op.runAt revision t).2.kvStore.deleteCallback = true := by
  have hrev : (t.setRevision (revision - 1)).kvStore.revision + 1 = revision :=
    Int.sub_add_cancel revision 1
  have hdata : (t.setRevision (revision - 1)).data = s.data := by
    rw [Server.data, Server.data, ← h.data]
    rfl
  cases op with
  | range r => exact ⟨rfl, rfl, hput, hdel⟩
  | put r =>
    have hfires := fires_put (s := t.setRevision (revision - 1)) hput r.key r.value r.lease
      (if r.prevKv then some {} else none) t.watchManager t.streams
    rw [hrev, putNotification, hdata] at hfires
    have hwm := exec_watchManager (t.setRevision (revision - 1))
      (.put r.key r.value r.lease (if r.prevKv then some {} else none))
    obtain ⟨data, hstore⟩ := exec_kvStore (t.setRevision (revision - 1))
      (.put r.key r.value r.lease (if r.prevKv then some {} else none))
    refine ⟨hfires, hwm, ?_, ?_⟩
    · exact (congrArg KVStore.putCallback hstore).trans hput
    · exact (congrArg KVStore.deleteCallback hstore).trans hdel
  | deleteRange r =>
    have hfires := fires_delete (s := t.setRevision (revision - 1)) hdel r.key r.rangeEnd true
      t.watchManager t.streams
    have hmatched : (t.setRevision (revision - 1)).matched r.key r.rangeEnd =
        s.matched r.key r.rangeEnd := by
      rw [matched, matched, ← h.data]
      rfl
    rw [if_pos rfl, hrev, deleteNotifications, hmatched] at hfires
    have hwm := exec_watchManager (t.setRevision (revision - 1)) (.delete r.key r.rangeEnd true)
    obtain ⟨data, hstore⟩ := exec_kvStore (t.setRevision (revision - 1))
      (.delete r.key r.rangeEnd true)
    refine ⟨hfires, hwm, ?_, ?_⟩
    · exact (congrArg KVStore.putCallback hstore).trans hput
    · exact (congrArg KVStore.deleteCallback hstore).trans hdel

/-- **The operations of a transaction, through their handlers, fire their notifications.** -/
theorem runAllAt_streams (revision : Int) (ops : List PlainOp) {s t : Server} (h : SameData s t)
    (hput : t.kvStore.putCallback = true) (hdel : t.kvStore.deleteCallback = true) :
    (runAllAt revision t ops).2.streams = fireAll t.watchManager t.streams
      (s.opsNotifications revision (ops.map PlainOp.toRequestOp)) := by
  induction ops generalizing s t with
  | nil => rfl
  | cons op ops ih =>
    obtain ⟨hstreams, hwm, hput', hdel'⟩ := runAt_streams h hput hdel revision op
    have hrest := ih (txnOp_agrees h revision op).2 hput' hdel'
    rw [List.map_cons, opsNotifications, fireAll, List.foldl_append, ← fireAll, ← fireAll,
      ← hstreams, ← hwm]
    exact hrest

namespace WatchSystem

/-- **Transactional writes are visible to watchers only when there are none.** In any state that
can be reached, the operations of a transaction, each through its handler at the transaction's
revision, fire one notification for each put and each key removed, in order. The transaction
fires these notifications if and only if the operations it chooses put nothing and remove
nothing that is in the store. -/
theorem txn_fires_iff (env : Env) (acts : List Action) :
    let s := ((start env).run acts).server
    let R := s.kvStore.revision + 1
    (∀ ops : List PlainOp, Fires (fun s => (runAllAt R s ops).2) s
      (s.opsNotifications R (ops.map PlainOp.toRequestOp))) ∧
    ∀ compares success failure, Fires (fun s => (s.txn compares success failure).2) s
        (s.opsNotifications R (s.chosenOps compares success failure)) ↔
      ∀ op ∈ s.chosenOps compares success failure, s.Quiet op := by
  intro s R
  have hs : Watched s := (orderly_run env acts).watched
  refine ⟨fun ops wm streams => ?_, fun compares success failure => ?_⟩
  · exact runAllAt_streams R ops (s := s) (t := s.observedBy wm streams) ⟨rfl, rfl, rfl⟩
      hs.putCallback hs.deleteCallback
  · rw [← opsNotifications_eq_nil_iff s R]
    have hnone := fires_txn s compares success failure
    constructor
    · exact fun hfires => hfires.unique hnone
    · intro hnil
      rwa [hnil]

/-- **A put of a transaction goes without an event.** -/
theorem txn_untold :
    let s := ((start .plain).run [.connect 0, .request 0 (.createRequest { key := [107] }),
      .resume 0, .resume 0, .resume 0, .resume 0]).server
    let t := (s.txn [] [.requestPut { key := [107], value := [118] }] []).2
    (s.watchManager.watchers.find? 1).map (fun w => (w.key, w.active, w.stream)) =
        some ([107], true, some 0) ∧
      (t.data [107]).map (fun info => info.modRevision) = some 2 ∧
      delivered t.streams 0 1 = [] := by
  decide

end WatchSystem

end EtcdLite
