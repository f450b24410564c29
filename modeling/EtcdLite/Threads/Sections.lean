import EtcdLite.Lib.Sections
import EtcdLite.Threads.Alone

/-!
# Under the locks of the components

Which lock each action is done under (`Act.owner`), and the parts of programs that have nothing to
do with a given lock, for any contract that what is done under the other locks does not break.
-/

namespace EtcdLite.Threads

open Server WatchManager WatchSystem Locks

/-- It writes a live event. -/
def Writer.live (response : WatchResponse) : Writer → Bool
  | .notice _ => !response.events.isEmpty
  | .created _ _ | .historical _ | .refusal => false

namespace Act

/-- The lock that it is done under, if it is done under one: that of the component whose tables it
reads or changes. -/
def owner : Act → Option Mutex
  | .put _ _ _ | .insert _ _ | .delete _ _ _ | .erase _ | .txn _ _ _ | .txnOp _ _ | .readHistory _ =>
    some .store
  | .read r => some r.mutex
  | .grant _ _ | .keepAlive _ _ | .attachKey _ _ | .detachKey _ _ | .getLeaseKeys _ | .eraseLease _
  | .expiredLeases _ => some .lease
  | .notifyPut _ _ _ _ | .notifyDelete _ _ _ | .cancelWatcher _ | .eraseWatcher _
  | .insertWatcher _ => some .watch
  | .answer _ | .putCallback _ _ _ | .deleteCallback _ | .takeId _ _ _ | .readRevision _ _
  | .write _ _ _ | .writing _ _ _ | .refuse _ _ => none

/-- It changes the key set of a lease. -/
def relinks : Act → Bool
  | .attachKey _ _ | .detachKey _ _ => true
  | _ => false

/-- It writes a live event to a stream. -/
def live : Act → Bool
  | .write _ response writer | .writing _ response writer => writer.live response
  | _ => false

/-- It only reads. -/
def peeks : Act → Bool
  | .read _ | .getLeaseKeys _ | .expiredLeases _ | .readHistory _ => true
  | _ => false

/-- With what it puts in front of the rest, it is all that is done under its lock. -/
def whole : Act → Bool
  | .put _ _ _ | .delete _ _ _ | .txn _ _ _ | .grant _ _ | .keepAlive _ _ | .attachKey _ _
  | .detachKey _ _ | .eraseLease _ | .notifyPut _ _ _ _ | .notifyDelete _ _ _ | .cancelWatcher _
  | .insertWatcher _ => true
  | _ => false

end Act

/-- A client of the lease manager itself calls it. -/
def Op.relinks : Op → Bool
  | .attachKey _ _ | .detachKey _ _ => true
  | _ => false

/-- A client of the watch manager itself calls it, to notify. -/
def Op.notifies : Op → Bool
  | .notifyPut _ _ _ _ | .notifyDelete _ _ _ => true
  | _ => false

/-! ### What the actions change -/

/-- The keys that `Delete` collects. -/
theorem delete_run (s : Server) (key rangeEnd : Bytes) (prevKvs : Bool) :
    (Act.delete key rangeEnd prevKvs).run s = (s.setRevision (s.kvStore.revision + 1),
      detachAndEraseCalls s.kvStore.leaseManager
          ((s.matched key rangeEnd).map fun e => (e.1, e.2.kv.lease)) ++
        deleteCallbackCalls s.kvStore.deleteCallback
          (if prevKvs then (s.matched key rangeEnd).map fun e => e.2.kv else [])) := by
  have hmatched : (if rangeEnd.isEmpty then
        (s.kvStore.data.find? key).toList.map fun info => (key, info)
      else s.kvStore.data.toList.filter fun e => keyInRange e.1 key rangeEnd) =
        s.matched key rangeEnd := by
    cases rangeEnd with
    | nil => exact (s.matched_nil key).symm
    | cons b bs => rfl
  simp only [Act.run, hmatched]

/-- What is not done under the lock of the store leaves the store alone. -/
theorem kvStore_run {a : Act} (ha : a.owner ≠ some .store) (s : Server) :
    (a.run s).1.kvStore = s.kvStore := by
  cases a with
  | put key value lease => exact absurd rfl ha
  | insert key info => exact absurd rfl ha
  | delete key rangeEnd prevKvs => exact absurd rfl ha
  | erase key => exact absurd rfl ha
  | txn compares success failure => exact absurd rfl ha
  | txnOp revision op => exact absurd rfl ha
  | readHistory w => exact absurd rfl ha
  | keepAlive now leaseId =>
    obtain ⟨lm, hlm⟩ := keepAlive_rest s now leaseId
    show (s.keepAlive now leaseId).kvStore = s.kvStore
    rw [hlm]
  | cancelWatcher watchId =>
    rw [Act.run]
    cases s.watchManager.watchers.find? watchId <;> rfl
  | _ => rfl

/-- What is not done under the lock of the lease manager leaves the leases alone. -/
theorem leaseManager_run {a : Act} (ha : a.owner ≠ some .lease) (s : Server) :
    (a.run s).1.leaseManager = s.leaseManager := by
  cases a with
  | grant now ttl => exact absurd rfl ha
  | keepAlive now leaseId => exact absurd rfl ha
  | attachKey leaseId key => exact absurd rfl ha
  | detachKey leaseId key => exact absurd rfl ha
  | getLeaseKeys leaseId => exact absurd rfl ha
  | eraseLease leaseId => exact absurd rfl ha
  | expiredLeases now => exact absurd rfl ha
  | txnOp revision op => cases op <;> rfl
  | cancelWatcher watchId =>
    rw [Act.run]
    cases s.watchManager.watchers.find? watchId <;> rfl
  | _ => rfl

/-- What is not done under the lock of the watch manager leaves the registry alone. -/
theorem watchers_run {a : Act} (ha : a.owner ≠ some .watch) (s : Server) :
    (a.run s).1.watchManager.watchers = s.watchManager.watchers := by
  cases a with
  | notifyPut key kv prevKv revision => exact absurd rfl ha
  | notifyDelete key kv revision => exact absurd rfl ha
  | cancelWatcher watchId => exact absurd rfl ha
  | eraseWatcher watchId => exact absurd rfl ha
  | insertWatcher w => exact absurd rfl ha
  | txnOp revision op => cases op <;> rfl
  | keepAlive now leaseId =>
    obtain ⟨lm, hlm⟩ := keepAlive_rest s now leaseId
    show (s.keepAlive now leaseId).watchManager.watchers = s.watchManager.watchers
    rw [hlm]
  | _ => rfl

/-- A live event is written under no lock of its own. -/
theorem owner_of_live {a : Act} (ha : a.live = true) : a.owner = none := by
  cases a with
  | write sid response writer => rfl
  | writing sid response writer => rfl
  | _ => cases ha

theorem owner_ne {a : Act} (ha : a.owner = none) {m : Mutex} : a.owner ≠ some m := by simp [ha]

variable {L : Type} {C : Contract Mutex Act Server L} {m : Mutex}

/-! ### Parts of programs, for the contract of a lock -/

theorem apart_quiet {a : Act} (ha : Harmless system C a) (hq : ∀ s, (a.run s).2 = []) :
    Apart system C m [.act a] := by
  refine apart_act ha fun s _ => ?_
  rw [show (system.run a s).2 = [] from hq s]
  exact apart_nil

theorem apart_locked {a : Act} {m' : Mutex} (hm : m' ≠ m) (h : Apart system C m [.act a]) :
    Apart system C m (locked m' a) :=
  .lock hm (h.append (.unlock hm apart_nil))

/-- A part of a program that does not hold the lock as it begins, nor as it ends. -/
abbrev Whole (C : Contract Mutex Act Server L) (m : Mutex) (q : List Instr) : Prop :=
  Part system C m none none q

/-- The response may be written to a stream here. -/
def Sendable (C : Contract Mutex Act Server L) (m : Mutex) (c : Option (Section Server))
    (response : WatchResponse) (writer : Writer) : Prop :=
  ∀ sid, Allows system C m c (.write sid response writer) ∧
    Allows system C m c (.writing sid response writer)

/-- The actions under other locks are harmless, but for changes of key sets and live events. -/
structure Lenient (C : Contract Mutex Act Server L) (m : Mutex) : Prop where
  mutex : ∀ i, m ≠ .stream i
  other : ∀ a : Act, a.owner ≠ some m → a.relinks = false → a.live = false → Harmless system C a
  must : ∀ a : Act, a.live = false → ∀ s, C.Must a s

/-- What a contract has to say about the actions, for all programs to keep it: each section under
the lock is right, too. -/
structure Enforced (C : Contract Mutex Act Server L) (m : Mutex) : Prop extends Lenient C m where
  stable : ∀ h, C.Stable (C.Inv h)
  peek : ∀ a : Act, a.peeks = true → ∀ p, C.begins (.act a :: p) = []
  own : ∀ a : Act, a.owner = some m → a.whole = true → Whole C m (locked m a)
  relink : m ≠ .store → ∀ a : Act, a.relinks = true → Whole C m (locked .lease a)
  live : m ≠ .store → ∀ a : Act, a.live = true → Harmless system C a

namespace Lenient

variable (h : Lenient C m)

include h

/-! Writes to streams. -/

theorem sendable {c : Option (Section Server)} (hc : C.Steady c) {response : WatchResponse}
    {writer : Writer}
    (hlive : writer.live response = true → ∀ a : Act, a.live = true → Harmless system C a) :
    Sendable C m c response writer := by
  refine fun sid => ⟨Harmless.allows ?_ hc, Harmless.allows ?_ hc⟩
  · by_cases hw : writer.live response = true
    · exact hlive hw _ hw
    · exact h.other _ (owner_ne rfl) rfl (Bool.eq_false_iff.mpr hw)
  · by_cases hw : writer.live response = true
    · exact hlive hw _ hw
    · exact h.other _ (owner_ne rfl) rfl (Bool.eq_false_iff.mpr hw)

theorem part_sendCall {c : Option (Section Server)} (w : Watcher) {response : WatchResponse}
    {writer : Writer} (hwrite : Sendable C m c response writer)
    (hrelease : writer.release = [.unlock (.stream w.watchId)])
    (hnext : ∀ ok, Part system C m c c (writer.next ok)) :
    Part system C m c c (sendCall w response writer) := by
  rw [sendCall]
  cases w.stream with
  | none => exact hnext true
  | some sid =>
    obtain ⟨hstart, hend⟩ := hwrite sid
    refine .lock (h.mutex w.watchId).symm (hstart c fun _ _ _ => hend c fun s _ _ => ?_)
    change Part system C m c c (writer.release ++ writer.next _)
    rw [hrelease]
    exact .unlock (h.mutex w.watchId).symm (hnext _)

theorem part_notifyCalls {c : Option (Section Server)} (wm : WatchManager) (key : Bytes)
    {response : Watcher → WatchResponse} (hwrite : ∀ w, Sendable C m c (response w) (.notice w)) :
    Part system C m c c (notifyCalls wm key response) :=
  part_flatMap fun e he => by
    obtain ⟨e', -, rfl⟩ := List.mem_map.mp he
    exact h.part_sendCall _ (hwrite _) rfl fun _ => part_nil

theorem whole_refuse (sid : StreamId) (i : Int) : Whole C m [.act (.refuse sid i)] := by
  refine .outside (h.other _ (owner_ne rfl) rfl rfl) fun _ _ => ?_
  refine .outside (h.other _ (owner_ne rfl) rfl rfl) fun _ _ => ?_
  exact .outside (h.other _ (owner_ne rfl) rfl rfl) fun _ _ => part_nil

/-! The callbacks, for a lock that they do not take. -/

/-- A notification, if what it sends may be written here. -/
theorem part_notify {c : Option (Section Server)} (hc : C.Steady c) (hm : m ≠ .watch) {a : Act}
    (howner : a.owner = some .watch) (hlink : a.relinks = false) (hlive : a.live = false)
    (hq : ∀ s, Part system C m c c (a.run s).2) : Part system C m c c (locked .watch a) := by
  refine .lock (Ne.symm hm) (Part.append (q := [_]) ?_ (.unlock (Ne.symm hm) part_nil))
  refine (h.other a ?_ hlink hlive).allows hc c fun s _ _ => hq s
  rw [howner]
  exact fun heq => hm (Option.some.inj heq).symm

theorem part_putCallbackCall {c : Option (Section Server)} (hc : C.Steady c) (hm : m ≠ .watch)
    (b : Bool) (key : Bytes) {kv : KeyValue} {prevKv : Option KeyValue}
    (hwrite : ∀ s : Server, (∀ x ∈ c, x.now s) → ∀ w,
      Sendable C m c (putResponse w kv prevKv s.kvStore.currentRevision) (.notice w)) :
    Part system C m c c (putCallbackCall b key kv prevKv) := by
  rw [putCallbackCall]
  split_ifs
  · refine (h.other (.putCallback key kv prevKv) (owner_ne rfl) rfl rfl).allows hc c
      fun s hs _ => ?_
    exact h.part_notify hc hm rfl rfl rfl fun _ => h.part_notifyCalls _ _ (hwrite s hs)
  · exact part_nil

theorem part_deleteCallbackCalls {c : Option (Section Server)} (hc : C.Steady c) (hm : m ≠ .watch)
    (b : Bool) {kvs : List KeyValue} (hwrite : ∀ kv ∈ kvs, ∀ s : Server, (∀ x ∈ c, x.now s) → ∀ w,
      Sendable C m c (deleteResponse w kv s.kvStore.currentRevision) (.notice w)) :
    Part system C m c c (deleteCallbackCalls b kvs) := by
  rw [deleteCallbackCalls, List.map_eq_flatMap]
  split_ifs
  · refine part_flatMap fun kv hkv => ?_
    refine (h.other (.deleteCallback kv) (owner_ne rfl) rfl rfl).allows hc c fun s hs _ => ?_
    exact h.part_notify hc hm rfl rfl rfl fun _ => h.part_notifyCalls _ _ (hwrite kv hkv s hs)
  · exact part_nil

end Lenient

namespace Enforced

variable (h : Enforced C m)

include h

/-! Sections under any lock. -/

theorem whole_read (r : Read) : Whole C m (locked r.mutex (.read r)) := by
  obtain rfl | hm := eq_or_ne r.mutex m
  · intro p hp
    refine .acquire fun hist => ?_
    have hnil : C.begins (.act (.read r) :: .unlock r.mutex :: p) = [] := h.peek _ rfl _
    rw [show C.begins ([Locks.Instr.act (.read r), .unlock r.mutex].append p) = [] from hnil,
      List.append_nil]
    refine .inside (fun _ => C.Inv hist) (fun _ => h.stable hist) (fun s hs _ => hs)
      (fun s _ _ => h.must _ rfl s) fun s _ _ => ?_
    refine .inside (fun _ => C.Inv hist) (fun _ => h.stable hist) (fun s hs _ => hs)
      (fun s _ _ => h.must _ rfl s) fun s _ _ => ?_
    exact .release (fun _ hs => hs) hp
  · refine .lock hm (Part.append (q := [_]) ?_ (.unlock hm part_nil))
    refine .outside (h.other _ (fun heq => hm (Option.some.inj heq)) rfl rfl) fun s _ => ?_
    exact .outside (h.other _ (owner_ne rfl) rfl rfl) fun _ _ => part_nil

/-- A read under a lock, and what follows its release. -/
theorem whole_peek {m' : Mutex} {a : Act} (ha : a.peeks = true) (howner : a.owner = some m')
    {q : Server → List Instr} (hrun : ∀ s, a.run s = (s, .unlock m' :: q s))
    (hq : ∀ s, Whole C m (q s)) : Whole C m [.lock m', .act a] := by
  have hcalls : ∀ s, (system.run a s).2 = .unlock m' :: q s := fun s => congrArg Prod.snd (hrun s)
  have hlink : a.relinks = false ∧ a.live = false := by
    cases a with
    | getLeaseKeys leaseId => exact ⟨rfl, rfl⟩
    | expiredLeases now => exact ⟨rfl, rfl⟩
    | readHistory w => exact ⟨rfl, rfl⟩
    | read r => exact ⟨rfl, rfl⟩
    | _ => cases ha
  by_cases hm : m' = m
  · subst hm
    intro p hp
    refine .acquire fun hist => ?_
    have hnil : C.begins ([.act a] ++ p) = [] := h.peek a ha p
    rw [show C.begins ([Locks.Instr.act a].append p) = [] from hnil, List.append_nil]
    refine .inside (fun _ => C.Inv hist) (fun _ => h.stable hist) (fun s hs _ => ?_)
      (fun s _ _ => h.must a hlink.2 s) fun s hs _ => ?_
    · rw [show (system.run a s).1 = s from congrArg Prod.fst (hrun s)]
      exact hs
    · rw [hcalls]
      exact .release (fun _ hd => hd) (hq s p hp)
  · refine .lock hm (.outside (h.other a ?_ hlink.1 hlink.2) fun s _ => ?_)
    · rw [howner]
      exact fun heq => hm (Option.some.inj heq)
    · rw [hcalls]
      exact .unlock hm (hq s)

/-- A section is right under its own lock, and under another lock if what it calls is. -/
theorem whole_locked {m' : Mutex} {a : Act} (howner : a.owner = some m') (ha : a.whole = true)
    (hlink : a.relinks = false) (hq : m ≠ m' → ∀ s, Whole C m (a.run s).2) :
    Whole C m (locked m' a) := by
  by_cases hm : m' = m
  · subst hm
    exact h.own a howner ha
  · refine .lock hm (Part.append (q := [.act a]) ?_ (.unlock hm part_nil))
    refine .outside (h.other a ?_ hlink ?_) fun s _ => hq (Ne.symm hm) s
    · rw [howner]
      exact fun heq => hm (Option.some.inj heq)
    · cases a with
      | write sid response writer => cases ha
      | writing sid response writer => cases ha
      | _ => rfl

theorem whole_quiet {m' : Mutex} {a : Act} (howner : a.owner = some m') (ha : a.whole = true)
    (hlink : a.relinks = false) (hq : ∀ s, (a.run s).2 = []) : Whole C m (locked m' a) := by
  refine h.whole_locked howner ha hlink fun _ s => ?_
  rw [hq]
  exact part_nil

/-! The store's calls. -/

theorem whole_relinkCalls (hm : m ≠ .store) (b : Bool) (old : Option KeyInfo) (key : Bytes)
    (lease : Int) : Whole C m (relinkCalls b old key lease) := by
  rw [relinkCalls]
  split_ifs
  · exact (h.relink hm _ rfl).append (h.relink hm _ rfl)
  · exact h.relink hm _ rfl
  · exact h.relink hm _ rfl
  · exact part_nil

theorem whole_act (hm : m ≠ .store) {a : Act} (howner : a.owner = some .store)
    (hlink : a.relinks = false) (hlive : a.live = false) (hq : ∀ s, Whole C m (a.run s).2) :
    Whole C m [.act a] := by
  refine .outside (h.other a ?_ hlink hlive) fun s _ => hq s
  rw [howner]
  exact fun heq => hm (Option.some.inj heq).symm

theorem whole_detachAndEraseCalls (hm : m ≠ .store) (b : Bool) (pairs : List (Bytes × Int)) :
    Whole C m (detachAndEraseCalls b pairs) := by
  refine part_flatMap fun e _ => Part.append ?_ (h.whole_act hm rfl rfl rfl fun _ => part_nil)
  split_ifs
  · exact h.relink hm _ rfl
  · exact part_nil

/-- A notification, where any thread may write live events. -/
theorem whole_notify (hlive : ∀ a : Act, a.live = true → Harmless system C a) (wm : WatchManager)
    (key : Bytes) (response : Watcher → WatchResponse) :
    Whole C m (notifyCalls wm key response) :=
  h.part_notifyCalls wm key fun _ => h.sendable steady_none fun _ => hlive

theorem whole_notifyPut (hlive : ∀ a : Act, a.live = true → Harmless system C a) (key : Bytes)
    (kv : KeyValue) (prevKv : Option KeyValue) (revision : Int) :
    Whole C m (locked .watch (.notifyPut key kv prevKv revision)) :=
  h.whole_locked rfl rfl rfl fun _ _ => h.whole_notify hlive _ _ _

theorem whole_notifyDelete (hlive : ∀ a : Act, a.live = true → Harmless system C a) (key : Bytes)
    (kv : KeyValue) (revision : Int) :
    Whole C m (locked .watch (.notifyDelete key kv revision)) :=
  h.whole_locked rfl rfl rfl fun _ _ => h.whole_notify hlive _ _ _

theorem whole_putCallbackCall (hm : m ≠ .store) (b : Bool) (key : Bytes) (kv : KeyValue)
    (prevKv : Option KeyValue) : Whole C m (putCallbackCall b key kv prevKv) := by
  rw [putCallbackCall]
  split_ifs
  · exact .outside (h.other _ (owner_ne rfl) rfl rfl) fun _ _ =>
      h.whole_notifyPut (h.live hm) _ _ _ _
  · exact part_nil

theorem whole_deleteCallbackCalls (hm : m ≠ .store) (b : Bool) (kvs : List KeyValue) :
    Whole C m (deleteCallbackCalls b kvs) := by
  rw [deleteCallbackCalls, List.map_eq_flatMap]
  split_ifs
  · exact part_flatMap fun kv _ =>
      .outside (h.other _ (owner_ne rfl) rfl rfl) fun _ _ => h.whole_notifyDelete (h.live hm) _ _ _
  · exact part_nil

/-! The operations. -/

theorem whole_put (key value : Bytes) (lease : Int) :
    Whole C m (locked .store (.put key value lease)) := by
  refine h.whole_locked rfl rfl rfl fun hm s => (h.whole_relinkCalls hm _ _ _ _).append ?_
  exact Part.append (q := [_]) (h.whole_act hm rfl rfl rfl fun _ => part_nil)
    (h.whole_putCallbackCall hm _ _ _ _)

theorem whole_delete (key rangeEnd : Bytes) (prevKvs : Bool) :
    Whole C m (locked .store (.delete key rangeEnd prevKvs)) := by
  refine h.whole_locked rfl rfl rfl fun hm s => ?_
  rw [delete_run]
  exact (h.whole_detachAndEraseCalls hm _ _).append (h.whole_deleteCallbackCalls hm _ _)

theorem whole_txn (compares : List Compare) (success failure : List RequestOp) :
    Whole C m (locked .store (.txn compares success failure)) := by
  refine h.whole_locked rfl rfl rfl fun hm s => ?_
  dsimp only [Act.run]
  rw [List.map_eq_flatMap]
  refine part_flatMap fun op _ => h.whole_act hm rfl rfl rfl fun t => ?_
  cases op with
  | requestPut r =>
    exact (h.whole_relinkCalls hm _ _ _ _).append (h.whole_act hm rfl rfl rfl fun _ => part_nil)
  | requestDeleteRange r => exact h.whole_detachAndEraseCalls hm _ _
  | requestRange r =>
    exact .outside (h.other _ (owner_ne rfl) rfl rfl) fun _ _ => part_nil
  | requestTxn compares success failure => exact part_nil
  | notSet => exact part_nil

theorem whole_revoke (leaseId : Int) : Whole C m [.lock .lease, .act (.getLeaseKeys leaseId)] := by
  refine h.whole_peek rfl rfl (fun s => rfl) fun s => ?_
  cases s.leaseManager.getLeaseKeys leaseId with
  | error rc => exact part_nil
  | ok keys =>
    dsimp only
    refine Part.append ?_ (h.whole_quiet rfl rfl rfl fun s => rfl)
    split_ifs
    · exact part_flatMap fun key _ => h.whole_delete key [] false
    · exact part_nil

theorem whole_checkExpiration (now : Int) :
    Whole C m [.lock .lease, .act (.expiredLeases now)] :=
  h.whole_peek rfl rfl (fun _ => rfl) fun _ => part_flatMap fun leaseId _ => h.whole_revoke leaseId

theorem whole_cancelWatcher (watchId : Int) :
    Whole C m (locked .watch (.cancelWatcher watchId)) := by
  by_cases hm : m = .watch
  · subst hm
    exact h.own _ rfl rfl
  refine h.whole_locked rfl rfl rfl fun _ s => ?_
  rw [Act.run]
  cases s.watchManager.watchers.find? watchId with
  | none => exact part_nil
  | some w =>
    have hquiet : (Writer.notice w).live (canceledResponse s watchId) ≠ true := Bool.false_ne_true
    refine (h.part_sendCall w (h.sendable steady_none fun heq => absurd heq hquiet) rfl
      fun _ => part_nil).append ?_
    refine .outside (h.other _ ?_ rfl rfl) fun _ _ => part_nil
    exact fun heq => hm (Option.some.inj heq).symm

theorem whole_insertCall (w : Watcher) : Whole C m (insertCall w) :=
  h.whole_quiet rfl rfl rfl fun _ => rfl

theorem whole_historyCall (w : Watcher) : Whole C m (Writer.historyCall w) := by
  rw [Writer.historyCall]
  split_ifs
  · refine h.whole_peek rfl rfl (fun s => rfl) fun s => Part.append ?_ (h.whole_insertCall w)
    exact part_flatMap fun kv _ =>
      h.part_sendCall w (h.sendable steady_none fun heq => absurd heq Bool.false_ne_true) rfl
        fun _ => part_nil
  · exact h.whole_insertCall w

theorem whole_takeId (req : WatchCreateRequest) (stream : Option StreamId) (handler : Bool) :
    Whole C m [.act (.takeId req stream handler)] := by
  refine .outside (h.other _ (owner_ne rfl) rfl rfl) fun _ _ => ?_
  refine .outside (h.other _ (owner_ne rfl) rfl rfl) fun _ _ => ?_
  refine h.part_sendCall _ (h.sendable steady_none fun heq => absurd heq Bool.false_ne_true) rfl
    fun ok => ?_
  rw [Writer.next]
  split_ifs
  · exact h.whole_historyCall _
  · rw [List.map_eq_flatMap]
    exact part_flatMap fun sid _ => h.whole_refuse sid _
  · exact part_nil

/-- **Every operation keeps the contract**, if the calls of clients of the lease manager and of the
watch manager do. -/
theorem keeps_program (op : Op)
    (hlink : op.relinks = true → ∀ a : Act, a.relinks = true → Whole C m (locked .lease a))
    (hlive : op.notifies = true → ∀ a : Act, a.live = true → Harmless system C a) :
    Keeps system C m none op.program := by
  refine Part.keeps ?_
  cases op with
  | put key value lease => exact h.whole_put key value lease
  | delete key rangeEnd prevKvs => exact h.whole_delete key rangeEnd prevKvs
  | txn compares success failure => exact h.whole_txn compares success failure
  | read r => exact h.whole_read r
  | grant now ttl => exact h.whole_quiet rfl rfl rfl fun s => rfl
  | revoke leaseId => exact h.whole_revoke leaseId
  | keepAlive now leaseId => exact h.whole_quiet rfl rfl rfl fun s => rfl
  | attachKey leaseId key => exact hlink rfl _ rfl
  | detachKey leaseId key => exact hlink rfl _ rfl
  | checkExpiration now => exact h.whole_checkExpiration now
  | registerWatcher req stream => exact h.whole_takeId req stream false
  | cancelWatcher watchId => exact h.whole_cancelWatcher watchId
  | notifyPut key kv prevKv revision => exact h.whole_notifyPut (hlive rfl) key kv prevKv revision
  | notifyDelete key kv revision => exact h.whole_notifyDelete (hlive rfl) key kv revision
  | serve sid req =>
    cases req with
    | createRequest req => exact h.whole_takeId req (some sid) true
    | cancelRequest watchId => exact h.whole_cancelWatcher watchId
    | progressRequest => exact part_nil
    | notSet => exact part_nil

end Enforced

end EtcdLite.Threads
