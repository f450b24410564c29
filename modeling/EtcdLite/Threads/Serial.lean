import EtcdLite.Threads.Sections

/-!
# Each component is serial

The store, the table of leases and the registry of watchers each have a lock, and what a thread
does under it takes many steps, with steps of other threads in between. Still, whenever the lock
is free, the component is what its operations make of it, run to completion one after another in
the order in which their threads took the lock (`store_serial`, `leases_serial`,
`registry_serial`). So these operations may be taken for atomic steps of their component.
-/

namespace EtcdLite.Threads

open Server WatchManager WatchSystem Locks

/-- The operations of a lease manager's table. -/
inductive LeaseOp where
  | grant (now ttl : Int)
  | keepAlive (now leaseId : Int)
  | attachKey (leaseId : Int) (key : Bytes)
  | detachKey (leaseId : Int) (key : Bytes)
  | erase (leaseId : Int)

/-- Run to completion. -/
def LeaseOp.exec (s : Server) : LeaseOp → Server
  | .grant now ttl => s.grant now ttl
  | .keepAlive now leaseId => s.keepAlive now leaseId
  | .attachKey leaseId key => { s with leaseManager := (s.leaseManager.attachKey leaseId key).2 }
  | .detachKey leaseId key => { s with leaseManager := (s.leaseManager.detachKey leaseId key).2 }
  | .erase leaseId => { s with leaseManager := s.leaseManager.erase leaseId }

/-- The operations of a registry. -/
inductive RegistryOp where
  | insert (w : Watcher)
  | cancel (watchId : Int)

/-- Run to completion. -/
def RegistryOp.exec (s : Server) : RegistryOp → Server
  | .insert w => insertWatcher s w
  | .cancel watchId => (s.cancelWatcher watchId).2

/-- The operation of a thread that has taken the lock of the store. -/
def storeOp : List Instr → List KvOp
  | .act (.put key value lease) :: _ => [.put key value lease none]
  | .act (.delete key rangeEnd prevKvs) :: _ => [.delete key rangeEnd prevKvs]
  | .act (.txn compares success failure) :: _ => [.txn compares success failure]
  | _ => []

/-- The operation of a thread that has taken the lock of the lease manager. -/
def leaseOp : List Instr → List LeaseOp
  | .act (.grant now ttl) :: _ => [.grant now ttl]
  | .act (.keepAlive now leaseId) :: _ => [.keepAlive now leaseId]
  | .act (.attachKey leaseId key) :: _ => [.attachKey leaseId key]
  | .act (.detachKey leaseId key) :: _ => [.detachKey leaseId key]
  | .act (.eraseLease leaseId) :: _ => [.erase leaseId]
  | _ => []

/-- The operation of a thread that has taken the lock of the watch manager. -/
def registryOp : List Instr → List RegistryOp
  | .act (.insertWatcher w) :: _ => [.insert w]
  | .act (.cancelWatcher watchId) :: _ => [.cancel watchId]
  | _ => []

section Store

variable {C : Contract Mutex Act Server KvOp} {s₀ : Server} {goal : Server → Prop} {x : KVStore}

/-- The contract of the lock of the store. -/
abbrev storeContract (s₀ : Server) : Contract Mutex Act Server KvOp :=
  serial kvStore KvOp.exec (fun a => a.owner ≠ some .store) storeOp s₀

/-- The response has the revision of the store, and its events say what the store has under their
keys: a key-value that has just been put, or nothing. -/
def Tells (x : KVStore) (response : WatchResponse) : Prop :=
  response.header.revision = x.revision ∧ ∀ ev ∈ response.events,
    match ev.type with
    | .PUT => ∃ info, x.data.find? ev.kv.key = some info ∧ info.kv = ev.kv ∧
        ev.kv.modRevision = x.revision
    | .DELETE => x.data.find? ev.kv.key = none

/-- What an action writes tells of the store. -/
def Act.Tells (x : KVStore) : Act → Prop
  | .write _ response _ | .writing _ response _ => Threads.Tells x response
  | _ => True

/-- A contract of the lock of the store that may ask, beside that the store be serial, that live
events are written under the lock, and tell of it. -/
structure OnStore (s₀ : Server) (C : Contract Mutex Act Server KvOp) : Prop where
  inv : C.Inv = (storeContract s₀).Inv
  rely : C.Rely = (storeContract s₀).Rely
  begins : C.begins = storeOp
  opened : ∀ a : Act, a.owner ≠ some .store → a.live = false → C.Open a
  must : ∀ (a : Act) s, (a.live = true → a.Tells s.kvStore) → C.Must a s

namespace OnStore

variable (hC : OnStore s₀ C)

include hC

theorem stable (x : KVStore) : C.Stable fun s => s.kvStore = x := by
  intro s t hs hrely
  rw [hC.rely] at hrely
  exact hrely.trans hs

theorem relies {a : Act} (ha : a.owner ≠ some .store) (s : Server) : C.Rely s (a.run s).1 := by
  rw [hC.rely]
  exact kvStore_run ha s

theorem quiet (a : Act) (ha : a.live = false) (s : Server) : C.Must a s :=
  hC.must a s fun hlive => absurd hlive (Bool.eq_false_iff.mp ha)

theorem harmless {a : Act} (ha : a.owner ≠ some .store) (hlive : a.live = false) :
    Harmless system C a :=
  ⟨hC.opened a ha hlive, fun s _ => hC.relies ha s, fun s _ => hC.quiet a hlive s⟩

theorem lenient : Lenient C .store where
  mutex := nofun
  other := fun _ ha _ => hC.harmless ha
  must := hC.quiet

/-- What tells of the store may be written under the lock. -/
theorem sendable {response : WatchResponse} (h : Tells x response) (writer : Writer) :
    Sendable C .store (some ⟨goal, fun s => s.kvStore = x⟩) response writer := by
  have hallows : ∀ a : Act, a.owner ≠ some .store → a.Tells x →
      Allows system C .store (some ⟨goal, fun s => s.kvStore = x⟩) a := by
    intro a ha htells
    refine allows_some (hC.stable x) (fun s _ => hC.relies ha s) fun s hs _ => hC.must a s fun _ => ?_
    rwa [show s.kvStore = x from hs]
  exact fun sid => ⟨hallows _ nofun h, hallows _ nofun h⟩

end OnStore

/-- A part of a program under the lock, from one state of the store to another. -/
abbrev StoreTakes (C : Contract Mutex Act Server KvOp) (goal : Server → Prop) (x x' : KVStore)
    (q : List Instr) : Prop :=
  Takes system C .store kvStore goal x x' q

namespace OnStore

variable (hC : OnStore s₀ C)

include hC

theorem storeTakes_apart {q : List Instr} (h : Apart system C .store q) : StoreTakes C goal x x q :=
  h _ (steady_some (hC.stable x))

/-- An action, by what it makes of the store, and what follows it. -/
theorem storeTakes_act {a : Act} {f : KVStore → KVStore} {x' : KVStore} (hlive : a.live = false)
    (ha : ∀ s, (a.run s).1.kvStore = f s.kvStore)
    (hq : ∀ s, s.kvStore = x → StoreTakes C goal (f x) x' (a.run s).2) :
    StoreTakes C goal x x' [.act a] := by
  refine .inside (fun _ s => s.kvStore = f x) (fun _ => hC.stable _) (fun s hs _ => ?_)
    (fun s _ _ => hC.quiet a hlive s) fun s hs _ => hq s hs
  rw [← hs]
  exact ha s

theorem storeTakes_quiet {a : Act} {f : KVStore → KVStore} (hlive : a.live = false)
    (ha : ∀ s, (a.run s).1.kvStore = f s.kvStore) (hq : ∀ s, (a.run s).2 = []) :
    StoreTakes C goal x (f x) [.act a] := by
  refine hC.storeTakes_act hlive ha fun s _ => ?_
  rw [hq]
  exact part_nil

/-! Calls. -/

theorem apart_quiet {a : Act} (ha : a.owner ≠ some .store) (hlive : a.live = false)
    (hq : ∀ s, (a.run s).2 = []) : Apart system C .store [.act a] :=
  Threads.apart_quiet (hC.harmless ha hlive) hq

theorem apart_relinkCalls (b : Bool) (old : Option KeyInfo) (key : Bytes) (lease : Int) :
    Apart system C .store (relinkCalls b old key lease) := by
  have hattach : Apart system C .store (locked .lease (.attachKey lease key)) :=
    apart_locked nofun (hC.apart_quiet nofun rfl fun s => rfl)
  have hdetach : ∀ L, Apart system C .store (locked .lease (.detachKey L key)) :=
    fun L => apart_locked nofun (hC.apart_quiet nofun rfl fun s => rfl)
  rw [relinkCalls]
  split_ifs
  · exact (hdetach _).append hattach
  · exact hattach
  · exact hdetach _
  · exact apart_nil

/-- The watchers are told of a put. -/
theorem storeTakes_putCallbackCall (b : Bool) {key : Bytes} {info : KeyInfo} {prevKv : Option KeyValue}
    (hkey : x.data.find? info.kv.key = some info) (hmod : info.kv.modRevision = x.revision) :
    StoreTakes C goal x x (putCallbackCall b key info.kv prevKv) := by
  refine hC.lenient.part_putCallbackCall (steady_some (hC.stable x)) nofun b key fun s hs w => ?_
  have hx : s.kvStore = x := hs _ rfl
  rw [hx]
  refine hC.sendable ⟨rfl, fun ev hev => ?_⟩ _
  rw [List.mem_singleton.mp hev]
  exact ⟨info, hkey, rfl, hmod⟩

/-- And of deletions. -/
theorem storeTakes_deleteCallbackCalls (b : Bool) {kvs : List KeyValue}
    (hkvs : ∀ kv ∈ kvs, x.data.find? kv.key = none) :
    StoreTakes C goal x x (deleteCallbackCalls b kvs) := by
  refine hC.lenient.part_deleteCallbackCalls (steady_some (hC.stable x)) nofun b fun kv hkv s hs w => ?_
  have hx : s.kvStore = x := hs _ rfl
  rw [hx]
  refine hC.sendable ⟨rfl, fun ev hev => ?_⟩ _
  rw [List.mem_singleton.mp hev]
  exact hkvs kv hkv

/-! Under the lock. -/

/-- The loop that detaches and erases the collected keys. -/
theorem storeTakes_detachAndEraseCalls (b : Bool) (pairs : List (Bytes × Int)) (x : KVStore) :
    StoreTakes C goal x { x with data := pairs.foldl (fun data p => data.erase p.1) x.data }
      (detachAndEraseCalls b pairs) := by
  unfold detachAndEraseCalls
  induction pairs generalizing x with
  | nil => exact part_nil
  | cons e pairs ih =>
    obtain ⟨k, lease⟩ := e
    rw [List.flatMap_cons, List.foldl_cons]
    have hdetach : Apart system C .store
        (if lease > 0 ∧ b then locked .lease (.detachKey lease k) else []) := by
      split_ifs
      · exact apart_locked nofun (hC.apart_quiet nofun rfl fun s => rfl)
      · exact apart_nil
    have herase : StoreTakes C goal x { x with data := x.data.erase k } [.act (.erase k)] :=
      hC.storeTakes_quiet (f := fun x => { x with data := x.data.erase k }) rfl (fun s => rfl)
        fun s => rfl
    exact ((hC.storeTakes_apart hdetach).append herase).append (ih _)

theorem storeTakes_insert (x : KVStore) (key : Bytes) (info : KeyInfo) :
    StoreTakes C goal x { x with data := x.data.insert key info } [.act (.insert key info)] :=
  hC.storeTakes_quiet (f := fun x => { x with data := x.data.insert key info }) rfl (fun _ => rfl)
    fun _ => rfl

theorem storeTakes_put (s : Server) (key value : Bytes) (lease : Int) :
    StoreTakes C goal s.kvStore (s.put key value lease none).2.kvStore
      [.act (.put key value lease)] := by
  refine hC.storeTakes_act (f := fun x => { x with revision := x.revision + 1 }) rfl (fun t => rfl)
    fun t ht => ?_
  rw [put_kvStore, ← ht]
  refine (hC.storeTakes_apart (hC.apart_relinkCalls _ _ _ _)).append ?_
  refine Part.append (q := [_]) (hC.storeTakes_insert _ _ _) ?_
  refine hC.storeTakes_putCallbackCall _ ?_ rfl
  exact (UnorderedMap.find?_insert ..).trans (if_pos rfl)

/-- The watchers are told of keys that are in the store no more, as each is under its own key. -/
theorem storeTakes_delete {s : Server} (hs : s.kvStore.Keyed) (key rangeEnd : Bytes) (prevKvs : Bool) :
    StoreTakes C goal s.kvStore (s.delete key rangeEnd prevKvs).2.kvStore
      [.act (.delete key rangeEnd prevKvs)] := by
  refine hC.storeTakes_act (f := fun x => { x with revision := x.revision + 1 }) rfl
    (fun t => congrArg (fun r => r.1.kvStore) (delete_run t key rangeEnd prevKvs)) fun t ht => ?_
  rw [delete_run, delete_kvStore, eraseMatched, detachAndErase_fst,
    show s.matched key rangeEnd = t.matched key rangeEnd by rw [matched, matched, ht], ← ht]
  rw [← ht] at hs
  refine (hC.storeTakes_detachAndEraseCalls _ _ _).append
    (hC.storeTakes_deleteCallbackCalls _ fun kv hkv => ?_)
  have hmem : kv ∈ (t.matched key rangeEnd).map fun e => e.2.kv := by
    split_ifs at hkv
    · exact hkv
    · cases hkv
  obtain ⟨⟨k, info⟩, hmatched, rfl⟩ := List.mem_map.mp hmem
  have hkey : info.kv.key = k := hs k info (mem_matched.mp hmatched).1
  dsimp only
  rw [hkey, UnorderedMap.find?_foldl_erase, if_pos]
  exact List.mem_map.mpr ⟨_, List.mem_map.mpr ⟨_, hmatched, rfl⟩, rfl⟩

theorem storeTakes_txnOp (s : Server) (revision : Int) (op : RequestOp) :
    StoreTakes C goal s.kvStore (s.txnOp revision op).2.kvStore [.act (.txnOp revision op)] := by
  refine hC.storeTakes_act (f := fun x => x) rfl (fun t => by cases op <;> rfl) fun t ht => ?_
  cases op with
  | requestPut r =>
    refine (hC.storeTakes_apart (hC.apart_relinkCalls _ _ _ _)).append ?_
    rw [ht]
    exact hC.storeTakes_insert _ _ _
  | requestDeleteRange r =>
    have hdelete : (s.txnOp revision (.requestDeleteRange r)).2.kvStore =
        { s.kvStore with data := (s.eraseMatched r.key r.rangeEnd).1 } := rfl
    rw [hdelete, eraseMatched, detachAndErase_fst, matched, ← ht]
    exact hC.storeTakes_detachAndEraseCalls _ _ _
  | requestRange r =>
    exact hC.storeTakes_act (f := fun x => x) rfl (fun _ => rfl) fun _ _ => part_nil
  | requestTxn compares success failure => exact part_nil
  | notSet => exact part_nil

theorem storeTakes_txn (s : Server) (compares : List Compare) (success failure : List RequestOp) :
    StoreTakes C goal s.kvStore (s.txn compares success failure).2.kvStore
      [.act (.txn compares success failure)] := by
  refine hC.storeTakes_act (f := fun x => { x with revision := x.revision + 1 }) rfl (fun t => rfl)
    fun t ht => ?_
  rw [txn_snd]
  dsimp only [Act.run]
  rw [show t.chosenOps compares success failure = s.chosenOps compares success failure by
    rw [chosenOps, chosenOps, ht], ht]
  generalize s.chosenOps compares success failure = ops
  have hset : { s.kvStore with revision := s.kvStore.revision + 1 } =
    (s.setRevision (s.kvStore.revision + 1)).kvStore := rfl
  rw [hset]
  generalize s.setRevision (s.kvStore.revision + 1) = s'
  induction ops generalizing s' with
  | nil => exact part_nil
  | cons op ops ih =>
    exact (hC.storeTakes_txnOp s' _ op).append (ih _)

/-! Programs. -/

/-- What a thread does under the lock is one of the operations. -/
theorem locked_store (hs₀ : s₀.Dated) {a : Act} {op : KvOp} (hop : ∀ p, storeOp (.act a :: p) = [op])
    (ha : ∀ (goal : Server → Prop) (s : Server), s.kvStore.Keyed →
      StoreTakes C goal s.kvStore (op.exec s).kvStore [.act a]) :
    Whole C .store (locked .store a) := by
  refine part_section (q := [.act a]) fun h p => ?_
  have hbegins : C.begins ([.act a] ++ .unlock .store :: p) = [op] := by
    rw [hC.begins]
    exact hop _
  have hgoal : (storeContract s₀).Inv (h ++ [op]) =
      fun s => s.kvStore = (op.exec (Run.final KvOp.exec s₀ h)).kvStore := by
    funext s
    show (s.kvStore = (Run.final KvOp.exec s₀ (h ++ [op])).kvStore) = _
    rw [Run.final_concat]
  have hdated : (Run.final KvOp.exec s₀ h).Dated :=
    Run.invariant KvOp.exec (fun s op (hs : s.Dated) => hs.exec op) hs₀ h
  rw [hbegins, hC.inv, hgoal]
  exact ha _ _ fun k info hk => (hdated.data k info hk).key

theorem enforced (hs₀ : s₀.Dated) : Enforced C .store where
  toLenient := hC.lenient
  stable := by
    intro h
    rw [hC.inv]
    exact hC.stable _
  peek := by
    intro a ha p
    rw [hC.begins]
    cases a with
    | getLeaseKeys leaseId => rfl
    | expiredLeases now => rfl
    | readHistory w => rfl
    | read r => rfl
    | _ => cases ha
  own := by
    intro a howner ha
    cases a with
    | put key value lease =>
      exact hC.locked_store hs₀ (fun _ => rfl) fun _ s _ => hC.storeTakes_put s _ _ _
    | delete key rangeEnd prevKvs =>
      exact hC.locked_store hs₀ (fun _ => rfl) fun _ s hs => hC.storeTakes_delete hs _ _ _
    | txn compares success failure =>
      exact hC.locked_store hs₀ (fun _ => rfl) fun _ s _ => hC.storeTakes_txn s _ _ _
    | insert key info => cases ha
    | erase key => cases ha
    | txnOp revision op => cases ha
    | readHistory w => cases ha
    | read r => cases ha
    | _ => cases howner
  relink := fun hm => absurd rfl hm
  live := fun hm => absurd rfl hm

/-- Every operation keeps the contract, if live events that clients of the watch manager have it write
do. -/
theorem keeps (hs₀ : s₀.Dated) (op : Op)
    (hlive : op.notifies = true → ∀ a : Act, a.live = true → Harmless system C a) :
    Keeps system C .store none op.program := by
  refine (hC.enforced hs₀).keeps_program op (fun _ a ha => ?_) hlive
  have hlink : Apart system C .store [.act a] := by
    cases a with
    | attachKey leaseId key => exact hC.apart_quiet nofun rfl fun s => rfl
    | detachKey leaseId key => exact hC.apart_quiet nofun rfl fun s => rfl
    | _ => cases ha
  exact apart_locked (by simp) hlink none steady_none

end OnStore

theorem onStore_store : OnStore s₀ (storeContract s₀) where
  inv := rfl
  rely := rfl
  begins := rfl
  opened := fun _ ha _ => ha
  must := fun _ _ _ => trivial

theorem store_settled {T : Type} [DecidableEq T] (env : Env) (evs : List (Locks.Event T Op)) :
    Settled system (storeContract (.new env)) .store (Locks.run system (start T env) evs)
      (Run.log (Locks.step system) (begun (storeContract (.new env)) .store) (start T env) evs) := by
  refine serial_run (fun op => onStore_store.keeps (dated_new env) op fun _ a ha => ?_) evs
  have howner : a.owner ≠ some .store := owner_ne (owner_of_live ha)
  exact ⟨howner, fun s _ => kvStore_run howner s, fun _ _ => trivial⟩

/-- **The store is serial.** In any interleaving of any operations of any number of threads, when
the lock of the store is free, the store is what its operations make of a new one, run to
completion one after another in the order in which their threads took the lock. -/
theorem store_serial {T : Type} [DecidableEq T] (env : Env) (evs : List (Locks.Event T Op)) :
    let y := Locks.run system (start T env) evs
    let ops := Run.log (Locks.step system) (begun (storeContract (.new env)) .store) (start T env) evs
    y.holder .store = none → y.data.kvStore = (Run.final KvOp.exec (.new env) ops).kvStore := by
  intro y ops hfree
  exact (store_settled env evs).free hfree

/-- A put and a deletion that starts before the put is done. -/
theorem store_serial_delete :
    let evs : List (Locks.Event ℕ Op) :=
      [.call 0 (.put [107] [118] 0), .call 1 (.delete [107] [] true), .resume 0, .resume 1, .resume 0,
        .resume 0, .resume 0, .resume 0, .resume 0, .resume 0, .resume 0]
    (Locks.run system (start ℕ .plain) evs).data.kvStore = (Run.final KvOp.exec (.new .plain)
      (Run.log (Locks.step system) (begun (storeContract (.new .plain)) .store) (start ℕ .plain)
        evs)).kvStore :=
  store_serial .plain _ rfl

end Store

/-! ### The leases -/

section Leases

variable {s₀ : Server}

/-- The contract of the lock of the lease manager. -/
abbrev leaseContract (s₀ : Server) : Contract Mutex Act Server LeaseOp :=
  serial leaseManager LeaseOp.exec (fun a => a.owner ≠ some .lease) leaseOp s₀

/-- What an operation does to the leases depends on the leases alone. -/
theorem LeaseOp.exec_congr {s t : Server} (h : s.leaseManager = t.leaseManager) (op : LeaseOp) :
    (op.exec s).leaseManager = (op.exec t).leaseManager := by
  cases op with
  | keepAlive now leaseId =>
    simp only [exec, Server.keepAlive, h]
    cases t.leaseManager.keepAlive now leaseId with
    | error rc => exact h
    | ok r => rfl
  | _ => simp only [exec, Server.grant, h]

/-- An action that is one of the operations. -/
theorem lease_locked {a : Act} {op : LeaseOp} (hop : ∀ p, leaseOp (.act a :: p) = [op])
    (ha : ∀ s, a.run s = (op.exec s, [])) :
    Whole (leaseContract s₀) .lease (locked .lease a) := by
  refine part_section (q := [.act a]) fun h p => ?_
  have hbegins : (leaseContract s₀).begins ([.act a] ++ .unlock .lease :: p) = [op] := hop _
  rw [hbegins]
  refine .inside (fun _ => (leaseContract s₀).Inv (h ++ [op])) (fun _ => serial_stable _)
    (fun s hs _ => ?_) (fun _ _ _ => trivial) fun s _ _ => ?_
  · show (a.run s).1.leaseManager = (Run.final LeaseOp.exec s₀ (h ++ [op])).leaseManager
    rw [ha, Run.final_concat]
    exact LeaseOp.exec_congr hs op
  · rw [show (system.run a s).2 = [] from congrArg Prod.snd (ha s)]
    exact part_nil

theorem enforced_lease : Enforced (leaseContract s₀) .lease where
  mutex := nofun
  other := fun _ ha _ _ => ⟨ha, fun s _ => leaseManager_run ha s, fun _ _ => trivial⟩
  must := fun _ _ _ => trivial
  stable := fun _ => serial_stable _
  peek := by
    intro a ha p
    cases a with
    | getLeaseKeys leaseId => rfl
    | expiredLeases now => rfl
    | readHistory w => rfl
    | read r => rfl
    | _ => cases ha
  own := by
    intro a howner ha
    cases a with
    | grant now ttl => exact lease_locked (fun _ => rfl) fun _ => rfl
    | keepAlive now leaseId => exact lease_locked (fun _ => rfl) fun _ => rfl
    | attachKey leaseId key => exact lease_locked (fun _ => rfl) fun _ => rfl
    | detachKey leaseId key => exact lease_locked (fun _ => rfl) fun _ => rfl
    | eraseLease leaseId => exact lease_locked (fun _ => rfl) fun _ => rfl
    | getLeaseKeys leaseId => cases ha
    | expiredLeases now => cases ha
    | read r => cases ha
    | _ => cases howner
  relink := by
    intro _ a ha
    cases a with
    | attachKey leaseId key => exact lease_locked (fun _ => rfl) fun _ => rfl
    | detachKey leaseId key => exact lease_locked (fun _ => rfl) fun _ => rfl
    | _ => cases ha
  live := by
    intro _ a ha
    have howner : a.owner ≠ some .lease := owner_ne (owner_of_live ha)
    exact ⟨howner, fun s _ => leaseManager_run howner s, fun _ _ => trivial⟩

theorem leases_settled {T : Type} [DecidableEq T] (env : Env) (evs : List (Locks.Event T Op)) :
    Settled system (leaseContract (.new env)) .lease (Locks.run system (start T env) evs)
      (Run.log (Locks.step system) (begun (leaseContract (.new env)) .lease) (start T env) evs) :=
  serial_run (fun op => enforced_lease.keeps_program op (fun _ => enforced_lease.relink nofun)
    fun _ => enforced_lease.live nofun) evs

/-- **The table of leases is serial**: the calls of `Put`, `Delete` and `Txn` to attach and detach
keys are operations of their own here. -/
theorem leases_serial {T : Type} [DecidableEq T] (env : Env) (evs : List (Locks.Event T Op)) :
    let y := Locks.run system (start T env) evs
    let ops := Run.log (Locks.step system) (begun (leaseContract (.new env)) .lease) (start T env) evs
    y.holder .lease = none →
      y.data.leaseManager = (Run.final LeaseOp.exec (.new env) ops).leaseManager := by
  intro y ops hfree
  exact (leases_settled env evs).free hfree

/-- A put attaches its key before the lease it names is granted. -/
theorem leases_serial_put :
    let evs : List (Locks.Event ℕ Op) :=
      [.call 0 (.put [107] [118] 1), .resume 0, .resume 0, .resume 0, .resume 0, .resume 0,
        .call 1 (.grant 0 60), .resume 1, .resume 1, .resume 1]
    (Locks.run system (start ℕ .plain) evs).data.leaseManager =
      (Run.final LeaseOp.exec (.new .plain)
        (Run.log (Locks.step system) (begun (leaseContract (.new .plain)) .lease) (start ℕ .plain)
          evs)).leaseManager :=
  leases_serial .plain _ rfl

end Leases

/-! ### The registry of watchers -/

section Registry

variable {s₀ : Server}

/-- The contract of the lock of the watch manager. -/
abbrev registryContract (s₀ : Server) : Contract Mutex Act Server RegistryOp :=
  serial (fun s => s.watchManager.watchers) RegistryOp.exec (fun a => a.owner ≠ some .watch)
    registryOp s₀

theorem harmless_registry {a : Act} (ha : a.owner ≠ some .watch) :
    Harmless system (registryContract s₀) a :=
  ⟨ha, fun s _ => watchers_run ha s, fun _ _ => trivial⟩

theorem lenient_registry : Lenient (registryContract s₀) .watch :=
  ⟨nofun, fun _ ha _ _ => harmless_registry ha, fun _ _ _ => trivial⟩

theorem harmless_live {a : Act} (ha : a.live = true) : Harmless system (registryContract s₀) a :=
  harmless_registry (owner_ne (owner_of_live ha))

theorem watchers_cancelWatcher (s : Server) (watchId : Int) :
    (s.cancelWatcher watchId).2.watchManager.watchers =
      if (s.watchManager.watchers.find? watchId).isSome then s.watchManager.watchers.erase watchId
      else s.watchManager.watchers := by
  rw [Server.cancelWatcher, WatchManager.cancelWatcher]
  cases s.watchManager.watchers.find? watchId <;> rfl

theorem registry_insert (w : Watcher) :
    Whole (registryContract s₀) .watch (locked .watch (.insertWatcher w)) := by
  refine part_section (q := [.act (Act.insertWatcher w)]) fun h p => ?_
  have hbegins : (registryContract s₀).begins ([.act (Act.insertWatcher w)] ++ .unlock .watch :: p) =
    [.insert w] := rfl
  rw [hbegins]
  refine .inside (fun _ => (registryContract s₀).Inv (h ++ [.insert w])) (fun _ => serial_stable _)
    (fun s hs _ => ?_) (fun _ _ _ => trivial) fun _ _ _ => part_nil
  show (insertWatcher s w).watchManager.watchers =
    (Run.final RegistryOp.exec s₀ (h ++ [.insert w])).watchManager.watchers
  rw [Run.final_concat]
  exact congrArg (fun x => UnorderedMap.insert x w.watchId w) hs

/-- The watcher is told, and then it is erased. -/
theorem registry_cancel (watchId : Int) :
    Whole (registryContract s₀) .watch (locked .watch (.cancelWatcher watchId)) := by
  refine part_section (q := [.act (Act.cancelWatcher watchId)]) fun h p => ?_
  have hbegins : (registryContract s₀).begins
    ([.act (Act.cancelWatcher watchId)] ++ .unlock .watch :: p) = [.cancel watchId] := rfl
  rw [hbegins]
  have hgoal : (registryContract s₀).Inv (h ++ [.cancel watchId]) = fun s =>
      s.watchManager.watchers =
        ((Run.final RegistryOp.exec s₀ h).cancelWatcher watchId).2.watchManager.watchers := by
    funext s
    show (s.watchManager.watchers =
      (Run.final RegistryOp.exec s₀ (h ++ [.cancel watchId])).watchManager.watchers) = _
    rw [Run.final_concat]
    rfl
  rw [hgoal, watchers_cancelWatcher]
  refine .inside (fun _ => (registryContract s₀).Inv h) (fun _ => serial_stable _)
    (fun s hs _ => ?_) (fun _ _ _ => trivial) fun s hs _ => ?_
  · have hrun : ((Act.cancelWatcher watchId).run s).1 = s := by
      rw [Act.run]
      cases s.watchManager.watchers.find? watchId <;> rfl
    show (registryContract s₀).Inv h ((Act.cancelWatcher watchId).run s).1
    rwa [hrun]
  · have hs' : s.watchManager.watchers = (Run.final RegistryOp.exec s₀ h).watchManager.watchers := hs
    rw [← hs']
    change Part _ _ _ _ _ ((Act.cancelWatcher watchId).run s).2
    rw [Act.run]
    cases hfind : s.watchManager.watchers.find? watchId with
    | none =>
      refine part_weaken fun t ht => ?_
      exact ht.trans hs'.symm
    | some w =>
      refine Part.append (lenient_registry.part_sendCall w (lenient_registry.sendable
        (steady_some (serial_stable _)) fun _ _ => harmless_live) rfl fun _ => part_nil) ?_
      refine .inside (fun _ t => t.watchManager.watchers = s.watchManager.watchers.erase watchId)
        (fun _ => serial_stable _) (fun t ht _ => ?_) (fun _ _ _ => trivial) fun _ _ _ => part_nil
      exact congrArg (fun x => UnorderedMap.erase x watchId) (ht.trans hs'.symm)

/-- A notification leaves the registry as it is. -/
theorem registry_notify {a : Act} (hop : ∀ p, registryOp (.act a :: p) = [])
    (hrun : ∀ s, ∃ wm key response, a.run s = (s, notifyCalls wm key response)) :
    Whole (registryContract s₀) .watch (locked .watch a) := by
  refine part_section (q := [.act a]) fun h p => ?_
  have hbegins : (registryContract s₀).begins ([.act a] ++ .unlock .watch :: p) = [] := hop _
  rw [hbegins, List.append_nil]
  refine .inside (fun _ => (registryContract s₀).Inv h) (fun _ => serial_stable _)
    (fun s hs _ => ?_) (fun _ _ _ => trivial) fun s _ _ => ?_
  · obtain ⟨wm, key, response, heq⟩ := hrun s
    rwa [show (system.run a s).1 = s from congrArg Prod.fst heq]
  · obtain ⟨wm, key, response, heq⟩ := hrun s
    rw [show (system.run a s).2 = notifyCalls wm key response from congrArg Prod.snd heq]
    exact lenient_registry.part_notifyCalls wm key fun _ =>
      lenient_registry.sendable (steady_some (serial_stable _)) fun _ _ => harmless_live

theorem enforced_registry : Enforced (registryContract s₀) .watch where
  toLenient := lenient_registry
  stable := fun _ => serial_stable _
  peek := by
    intro a ha p
    cases a with
    | getLeaseKeys leaseId => rfl
    | expiredLeases now => rfl
    | readHistory w => rfl
    | read r => rfl
    | _ => cases ha
  own := by
    intro a howner ha
    cases a with
    | notifyPut key kv prevKv revision =>
      exact registry_notify (fun _ => rfl) fun _ => ⟨_, _, _, rfl⟩
    | notifyDelete key kv revision =>
      exact registry_notify (fun _ => rfl) fun _ => ⟨_, _, _, rfl⟩
    | cancelWatcher watchId => exact registry_cancel watchId
    | insertWatcher w => exact registry_insert w
    | eraseWatcher watchId => cases ha
    | read r => cases ha
    | _ => cases howner
  relink := by
    intro _ a ha
    have hquiet : Apart system (registryContract s₀) .watch [.act a] := by
      cases a with
      | attachKey leaseId key =>
        exact apart_quiet (harmless_registry nofun) fun s => rfl
      | detachKey leaseId key =>
        exact apart_quiet (harmless_registry nofun) fun s => rfl
      | _ => cases ha
    exact apart_locked (by simp) hquiet none steady_none
  live := fun _ _ => harmless_live

theorem registry_settled {T : Type} [DecidableEq T] (env : Env) (evs : List (Locks.Event T Op)) :
    Settled system (registryContract (.new env)) .watch (Locks.run system (start T env) evs)
      (Run.log (Locks.step system) (begun (registryContract (.new env)) .watch) (start T env) evs) :=
  serial_run (fun op => enforced_registry.keeps_program op (fun _ => enforced_registry.relink nofun)
    fun _ => enforced_registry.live nofun) evs

/-- **The registry of watchers is serial.** -/
theorem registry_serial {T : Type} [DecidableEq T] (env : Env) (evs : List (Locks.Event T Op)) :
    let y := Locks.run system (start T env) evs
    let ops := Run.log (Locks.step system) (begun (registryContract (.new env)) .watch) (start T env)
      evs
    y.holder .watch = none → y.data.watchManager.watchers =
      (Run.final RegistryOp.exec (.new env) ops).watchManager.watchers := by
  intro y ops hfree
  exact (registry_settled env evs).free hfree

/-- A watcher is registered on a stream, and two threads cancel it: the second waits while the first
writes to the stream. -/
theorem registry_serial_cancel :
    let evs : List (Locks.Event ℕ Op) :=
      .call 0 (.registerWatcher {} (some 0)) :: List.replicate 9 (.resume 0) ++
        [.call 0 (.cancelWatcher 1), .call 1 (.cancelWatcher 1), .resume 0, .resume 1, .resume 0,
          .resume 0, .resume 0, .resume 1] ++ List.replicate 4 (.resume 0)
    (Locks.run system (start ℕ .plain) evs).data.watchManager.watchers =
      (Run.final RegistryOp.exec (.new .plain)
        (Run.log (Locks.step system) (begun (registryContract (.new .plain)) .watch) (start ℕ .plain)
          evs)).watchManager.watchers :=
  registry_serial .plain _ rfl

end Registry

/-! ### No races -/

/-- The server with the tables of a component as another has them. -/
def swap (m : Mutex) (s t : Server) : Server :=
  match m with
  | .store => { s with kvStore := { s.kvStore with data := t.kvStore.data } }
  | .lease => { s with leaseManager := { s.leaseManager with leases := t.leaseManager.leases } }
  | .watch => { s with watchManager := { s.watchManager with watchers := t.watchManager.watchers } }
  | .stream _ => s

/-- It neither reads nor changes the tables of the component: whatever they are, they stay so, and
the rest does not depend on them. -/
def Act.Ignores (a : Act) (m : Mutex) : Prop :=
  ∀ s t, a.run (swap m s t) = (swap m (a.run s).1 t, (a.run s).2)

theorem ignores_of_owner {a : Act} {m : Mutex} (ha : a.owner ≠ some m) : a.Ignores m := by
  intro s t
  cases m with
  | stream watchId => rfl
  | store =>
    cases a with
    | read r =>
      cases r with
      | get key => exact absurd rfl ha
      | range start endKey limit countOnly keysOnly => exact absurd rfl ha
      | keyExists key => exact absurd rfl ha
      | _ => rfl
    | keepAlive now leaseId =>
      simp only [Act.run, swap, Server.keepAlive]
      cases s.leaseManager.keepAlive now leaseId <;> rfl
    | cancelWatcher watchId =>
      simp only [Act.run, swap]
      cases s.watchManager.watchers.find? watchId <;> rfl
    | _ => first | rfl | exact absurd rfl ha
  | lease =>
    cases a with
    | txnOp revision op =>
      cases op <;> rfl
    | read r =>
      cases r with
      | get key => rfl
      | range start endKey limit countOnly keysOnly => rfl
      | keyExists key => rfl
      | _ => exact absurd rfl ha
    | cancelWatcher watchId =>
      simp only [Act.run, swap]
      cases s.watchManager.watchers.find? watchId <;> rfl
    | _ => first | rfl | exact absurd rfl ha
  | watch =>
    cases a with
    | txnOp revision op =>
      cases op <;> rfl
    | keepAlive now leaseId =>
      simp only [Act.run, swap, Server.keepAlive]
      cases s.leaseManager.keepAlive now leaseId <;> rfl
    | _ => first | rfl | exact absurd rfl ha

/-- A read depends on what it reads. -/
theorem not_ignores_get (key : Bytes) : ¬ (Act.read (.get key)).Ignores .store := by
  intro h
  have hrun := congrArg Prod.snd (h (.new .plain) ((Server.new .plain).put key [] 0 none).2)
  simp [Act.run, Read.answer, swap, KVStore.get, put_kvStore] at hrun
  cases hrun

/-- **No data races.** In any interleaving of any operations of any number of threads, a thread that
is about to read or change the tables of a component holds the lock of the component. -/
theorem race_free {T : Type} [DecidableEq T] (env : Env) (evs : List (Locks.Event T Op)) {t : T}
    {a : Act} {p : List Instr} {m : Mutex}
    (hp : (Locks.run system (start T env) evs).prog t = .act a :: p) (hm : ¬ a.Ignores m) :
    (Locks.run system (start T env) evs).holder m = some t := by
  have howner : a.owner = some m := by
    by_contra hne
    exact hm (ignores_of_owner hne)
  by_contra hne
  cases m with
  | store => exact (store_settled env evs).opened hp hne howner
  | lease => exact (leases_settled env evs).opened hp hne howner
  | watch => exact (registry_settled env evs).opened hp hne howner
  | stream watchId => exact hm fun _ _ => rfl

/-- A thread reads a key, and another is about to put it. -/
theorem race_free_get : (Locks.run system (start ℕ .plain)
    [.call 0 (.read (.get [107])), .call 1 (.put [107] [118] 0), .resume 0, .resume 1]).holder
      .store = some 0 :=
  race_free .plain [.call 0 (.read (.get [107])), .call 1 (.put [107] [118] 0), .resume 0, .resume 1]
    rfl (not_ignores_get [107])

end EtcdLite.Threads
