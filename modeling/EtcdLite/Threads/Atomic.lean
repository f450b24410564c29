import EtcdLite.Lease.Expiry
import EtcdLite.Threads.LeaseIndex
import EtcdLite.Threads.Serial

/-!
# Atomic sections

Elsewhere an operation of the store is one section, atomic with the calls that it makes to the lease
manager, and so are a grant, a keep-alive and the erasing of a lease (`Atom`). Under the locks an
operation of the store is many steps, and the lease manager's lock is free in between; there leases
are granted, kept alive and erased. Still, it comes to the same (`atoms_serial`): each operation of
the store may be taken to happen at once when its thread takes the lock, and each of the others when
it takes its step.

An operation names only leases that have been granted before it is called. A lease that is granted
between the steps of a transaction that names it twice would have one of the two keys.
-/

namespace EtcdLite

/-- The lease that an operation of a transaction names. -/
def RequestOp.leases : RequestOp → List Int
  | .requestPut r => [r.lease]
  | _ => []

/-- The leases that an operation of the store names. -/
def KvOp.leases : KvOp → List Int
  | .put _ _ lease _ => [lease]
  | .delete _ _ _ => []
  | .txn _ success failure => (success ++ failure).flatMap RequestOp.leases

/-- The section is this operation of the store, if it is one. -/
def Atom.kvOps : Atom → List KvOp
  | .kv op => [op]
  | _ => []

namespace Threads

open Server WatchManager Locks

/-! ### The leases that are named -/

/-- The leases that an action names, and those that follow it. -/
def Act.leases : Act → List Int
  | .put _ _ lease => [lease]
  | .txn _ success failure => (success ++ failure).flatMap RequestOp.leases
  | .txnOp _ op => op.leases
  | _ => []

/-- The leases that an operation names. -/
def Op.leases : Op → List Int
  | .put _ _ lease => [lease]
  | .txn _ success failure => (success ++ failure).flatMap RequestOp.leases
  | _ => []

/-- The program names only these leases. -/
def Names (ls : List Int) (p : List Instr) : Prop := ∀ a, .act a ∈ p → a.leases ⊆ ls

section Names

variable {ls ls' : List Int} {p q : List Instr} {m : Mutex} {a : Act}

theorem names_nil : Names ls [] := fun _ ha => nomatch ha

theorem Names.append (hp : Names ls p) (hq : Names ls q) : Names ls (p ++ q) := by
  intro a ha
  rcases List.mem_append.mp ha with ha | ha
  · exact hp a ha
  · exact hq a ha

theorem Names.act (ha : a.leases ⊆ ls) (hp : Names ls p) : Names ls (.act a :: p) := by
  intro b hb
  rcases List.mem_cons.mp hb with hb | hb
  · cases hb
    exact ha
  · exact hp b hb

theorem Names.lock (hp : Names ls p) : Names ls (.lock m :: p) := by
  intro b hb
  rcases List.mem_cons.mp hb with hb | hb
  · cases hb
  · exact hp b hb

theorem Names.unlock (hp : Names ls p) : Names ls (.unlock m :: p) := by
  intro b hb
  rcases List.mem_cons.mp hb with hb | hb
  · cases hb
  · exact hp b hb

theorem names_locked (ha : a.leases ⊆ ls) : Names ls (locked m a) :=
  .lock (.act ha (.unlock names_nil))

theorem names_flatMap {α : Type} {l : List α} {f : α → List Instr} (h : ∀ x ∈ l, Names ls (f x)) :
    Names ls (l.flatMap f) := by
  intro a ha
  obtain ⟨x, hx, ha⟩ := List.mem_flatMap.mp ha
  exact h x hx a ha

theorem names_map {α : Type} {l : List α} {f : α → Act} (h : ∀ x ∈ l, (f x).leases ⊆ ls) :
    Names ls (l.map fun x => .act (f x)) := by
  rw [List.map_eq_flatMap]
  exact names_flatMap fun x hx => .act (h x hx) names_nil

theorem names_insertCall (w : Watcher) : Names ls (insertCall w) := names_locked (List.nil_subset _)

theorem names_historyCall (w : Watcher) : Names ls (Writer.historyCall w) := by
  rw [Writer.historyCall]
  split_ifs
  · exact .lock (.act (List.nil_subset _) names_nil)
  · exact names_insertCall w

theorem names_next (ok : Bool) (writer : Writer) : Names ls (writer.next ok) := by
  cases writer with
  | created w handler =>
    rw [Writer.next]
    split_ifs
    · exact names_historyCall w
    · exact names_map fun _ _ => List.nil_subset _
    · exact names_nil
  | _ => exact names_nil

theorem names_release (writer : Writer) : Names ls writer.release := by
  cases writer with
  | refusal => exact names_nil
  | _ => exact .unlock names_nil

theorem names_sendCall (w : Watcher) (response : WatchResponse) (writer : Writer) :
    Names ls (sendCall w response writer) := by
  rw [sendCall]
  cases w.stream with
  | none => exact names_next true writer
  | some sid => exact .lock (.act (List.nil_subset _) names_nil)

theorem names_notifyCalls (wm : WatchManager) (key : Bytes) (response : Watcher → WatchResponse) :
    Names ls (notifyCalls wm key response) :=
  names_flatMap fun _ _ => names_sendCall _ _ _

theorem names_relinkCalls (b : Bool) (old : Option KeyInfo) (key : Bytes) (lease : Int) :
    Names ls (relinkCalls b old key lease) := by
  have hattach : Names ls (locked .lease (.attachKey lease key)) := names_locked (List.nil_subset _)
  have hdetach : ∀ L, Names ls (locked .lease (.detachKey L key)) := fun _ =>
    names_locked (List.nil_subset _)
  rw [relinkCalls]
  split_ifs
  · exact (hdetach _).append hattach
  · exact hattach
  · exact hdetach _
  · exact names_nil

theorem names_detachAndEraseCalls (b : Bool) (pairs : List (Bytes × Int)) :
    Names ls (detachAndEraseCalls b pairs) := by
  refine names_flatMap fun e _ => Names.append ?_ (.act (List.nil_subset _) names_nil)
  split_ifs
  · exact names_locked (List.nil_subset _)
  · exact names_nil

theorem names_putCallbackCall (b : Bool) (key : Bytes) (kv : KeyValue) (prevKv : Option KeyValue) :
    Names ls (putCallbackCall b key kv prevKv) := by
  rw [putCallbackCall]
  split_ifs
  · exact .act (List.nil_subset _) names_nil
  · exact names_nil

theorem names_deleteCallbackCalls (b : Bool) (kvs : List KeyValue) :
    Names ls (deleteCallbackCalls b kvs) := by
  rw [deleteCallbackCalls]
  split_ifs
  · exact names_map fun _ _ => List.nil_subset _
  · exact names_nil

/-- **What follows an action names no other leases.** -/
theorem names_run (a : Act) (s : Server) : Names a.leases (a.run s).2 := by
  cases a with
  | put key value lease =>
    exact (names_relinkCalls _ _ _ _).append (.act (List.nil_subset _) (names_putCallbackCall _ _ _ _))
  | delete key rangeEnd prevKvs =>
    exact (names_detachAndEraseCalls _ _).append (names_deleteCallbackCalls _ _)
  | txn compares success failure =>
    refine names_map fun op hop L hL => List.mem_flatMap.mpr ⟨op, ?_, hL⟩
    rw [chosenOps] at hop
    split_ifs at hop
    · exact List.mem_append_left _ hop
    · exact List.mem_append_right _ hop
  | txnOp revision op =>
    cases op with
    | requestPut r => exact (names_relinkCalls _ _ _ _).append (.act (List.nil_subset _) names_nil)
    | requestDeleteRange r => exact names_detachAndEraseCalls _ _
    | requestRange r => exact .act (List.nil_subset _) names_nil
    | _ => exact names_nil
  | putCallback key kv prevKv => exact names_locked (List.nil_subset _)
  | deleteCallback kv => exact names_locked (List.nil_subset _)
  | getLeaseKeys leaseId =>
    refine .unlock ?_
    split
    · exact names_nil
    · refine Names.append ?_ (names_locked (List.nil_subset _))
      split_ifs
      · exact names_flatMap fun _ _ => names_locked (List.nil_subset _)
      · exact names_nil
  | expiredLeases now =>
    exact .unlock (names_flatMap fun _ _ => .lock (.act (List.nil_subset _) names_nil))
  | notifyPut key kv prevKv revision => exact names_notifyCalls _ _ _
  | notifyDelete key kv revision => exact names_notifyCalls _ _ _
  | cancelWatcher watchId =>
    rw [Act.run]
    split
    · exact names_nil
    · exact (names_sendCall _ _ _).append (.act (List.nil_subset _) names_nil)
  | takeId req stream handler => exact .act (List.nil_subset _) names_nil
  | readRevision w handler => exact names_sendCall _ _ _
  | readHistory w =>
    exact .unlock ((names_flatMap fun _ _ => names_sendCall _ _ _).append (names_insertCall w))
  | write sid response writer => exact .act (List.nil_subset _) names_nil
  | writing sid response writer => exact (names_release writer).append (names_next _ writer)
  | refuse sid watchId => exact .act (List.nil_subset _) names_nil
  | read r => exact .act (List.nil_subset _) names_nil
  | _ => exact names_nil

/-- Nor does its program. -/
theorem names_program (op : Op) : Names op.leases op.program := by
  cases op with
  | put key value lease => exact names_locked (List.Subset.refl _)
  | txn compares success failure => exact names_locked (List.Subset.refl _)
  | revoke leaseId => exact .lock (.act (List.nil_subset _) names_nil)
  | checkExpiration now => exact .lock (.act (List.nil_subset _) names_nil)
  | registerWatcher req stream => exact .act (List.nil_subset _) names_nil
  | serve sid req =>
    cases req with
    | createRequest req => exact .act (List.nil_subset _) names_nil
    | cancelRequest watchId => exact names_locked (List.nil_subset _)
    | _ => exact names_nil
  | _ => exact names_locked (List.nil_subset _)

end Names

/-! ### The sections that a run takes -/

/-- The section of an action of the lease manager. -/
def Act.atoms : Act → List Atom
  | .grant now ttl => [.grant now ttl]
  | .keepAlive now leaseId => [.keepAlive now leaseId]
  | .eraseLease leaseId => [.erase leaseId]
  | _ => []

/-- The section that a step takes: an operation of the store when its thread takes the lock, and any
other when its thread takes the action. -/
def atoms {T : Type} (y : Locks.State T Mutex Act Server) : Locks.Event T Op → List Atom
  | .call _ _ => []
  | .resume t =>
    match y.prog t with
    | .lock .store :: p => if (y.holder .store).isNone then (storeOp p).map .kv else []
    | .act a :: _ => a.atoms
    | _ => []

/-- The step calls an operation of the server, and not the lease manager to attach or detach a key;
and the operation names only leases that have been granted. -/
def CallsGranted {T : Type} (y : Locks.State T Mutex Act Server) : Locks.Event T Op → Prop
  | .call _ op => op.relinks = false ∧ ∀ L ∈ op.leases, L < y.data.leaseManager.nextLeaseId
  | .resume _ => True

/-! ### The serial run -/

section Serial

variable {s d : Server}

theorem kvStore_exec {a : Atom} {ops : List KvOp} {s₀ : Server}
    (h : s.kvStore = (Run.final KvOp.exec s₀ ops).kvStore) :
    (a.exec s).kvStore = (Run.final KvOp.exec s₀ (ops ++ a.kvOps)).kvStore := by
  cases a with
  | kv op =>
    rw [Atom.kvOps, Run.final_concat]
    exact exec_kvStore_congr h op
  | keepAlive now leaseId =>
    obtain ⟨lm, hlm⟩ := keepAlive_rest s now leaseId
    show _ = (Run.final KvOp.exec s₀ (ops ++ [])).kvStore
    rw [Atom.exec, hlm, List.append_nil, ← h]
  | _ =>
    show _ = (Run.final KvOp.exec s₀ (ops ++ [])).kvStore
    rw [List.append_nil, ← h]
    rfl

/-- The store is what the operations of the store make of it. -/
theorem kvStore_final (s : Server) (as : List Atom) : (Run.final Atom.exec s as).kvStore =
    (Run.final KvOp.exec s (as.flatMap Atom.kvOps)).kvStore := by
  induction as using List.reverseRecOn with
  | nil => rfl
  | append_singleton as a ih =>
    rw [Run.final_concat, List.flatMap_append, List.flatMap_singleton]
    exact kvStore_exec ih

/-- The leases an operation puts keys under are those that it names. -/
theorem mem_leases_of_writes {op : KvOp} {key value : Bytes} {lease revision : Int}
    (h : .put key value lease revision ∈ op.writes s) : lease ∈ op.leases := by
  cases op with
  | put key' value' lease' prevKv =>
    obtain ⟨-, -, rfl, -⟩ := Write.put.inj (List.mem_singleton.mp h)
    exact List.mem_singleton_self _
  | delete key' rangeEnd prevKvs => cases List.mem_singleton.mp h
  | txn compares success failure =>
    obtain ⟨r, hr, hw⟩ := List.mem_flatMap.mp h
    refine List.mem_flatMap.mpr ⟨r, ?_, ?_⟩
    · rw [chosenOps] at hr
      split_ifs at hr
      · exact List.mem_append_left _ hr
      · exact List.mem_append_right _ hr
    · cases r with
      | requestPut r =>
        obtain ⟨-, -, rfl, -⟩ := Write.put.inj (List.mem_singleton.mp hw)
        exact List.mem_singleton_self _
      | requestDeleteRange r => cases List.mem_singleton.mp hw
      | _ => cases hw

/-- The keys are bound to leases with smaller ids, if the puts name such leases. -/
theorem named_writes {N : Int} {ws : List Write} {d : Data}
    (hws : ∀ key value lease revision, .put key value lease revision ∈ ws → lease < N)
    (hd : ∀ k info, d k = some info → info.kv.lease < N) :
    ∀ k info, ws.foldl Write.onData d k = some info → info.kv.lease < N := by
  induction ws generalizing d with
  | nil => exact hd
  | cons w ws ih =>
    refine ih (fun key value lease revision hw => hws _ _ _ _ (List.mem_cons_of_mem _ hw)) ?_
    intro k info hk
    cases w with
    | put key value lease revision =>
      rw [Write.onData, Function.update_apply] at hk
      split_ifs at hk
      · obtain rfl := Option.some.inj hk
        exact hws key value lease revision List.mem_cons_self
      · exact hd k info hk
    | delete key rangeEnd =>
      change (if keyInRange k key rangeEnd then none else d k) = some info at hk
      split_ifs at hk
      exact hd k info hk

/-- **An operation of the store keeps the key sets exact**, if it names leases that have been
granted. -/
theorem keySetsExact_exec (h : KeySetsExact s) (op : KvOp)
    (hop : ∀ L ∈ op.leases, L < s.leaseManager.nextLeaseId) : KeySetsExact (op.exec s) := by
  obtain ⟨hwired, hs⟩ := h
  have hsame := (exec_wiring s op).leases
  have hmem : ∀ (t : Server) k L, leasesOf t.kvStore k = some L ↔
      ∃ info, t.books.data k = some info ∧ info.kv.lease = L ∧ L ∈ (Set.univ : Set Int) := by
    intro t k L
    simp [leasesOf, Server.books, Server.data]
  have hbefore : s.books.Exact fun _ => Set.univ := fun L S hS k => (hs.keys L S hS k).trans (hmem s k L)
  have hafter : (op.exec s).books.Exact fun _ => Set.univ := by
    rw [books_exec s hwired op]
    have hlive : ∀ L, (s.books.leases L).isSome → 0 < L ∧ L ∈ (Set.univ : Set Int) := fun L hL =>
      ⟨hs.live_pos L hL, trivial⟩
    have hwrites := hbefore.writes hlive (op.writes s)
    have htag : (op.writes s).foldl (Write.retag Set.univ) (fun _ => Set.univ) = fun _ => Set.univ := by
      generalize op.writes s = ws
      induction ws with
      | nil => rfl
      | cons w ws ih => cases w <;> simpa [Write.retag] using ih
    rwa [htag] at hwrites
  refine ⟨(exec_wiring s op).leaseManager.trans hwired, ?_, ?_, fun L hL => ?_, fun k L hk => ?_⟩
  · exact fun L S hS k => (hafter L S hS k).trans (hmem _ k L).symm
  · rw [hsame.nextLeaseId]
    exact hs.next_pos
  · exact hs.live_pos L ((live_exec hwired op L).mp hL)
  · rw [hsame.nextLeaseId]
    obtain ⟨info, hinfo, rfl, -⟩ := (hmem _ k L).mp hk
    have hdata : (op.exec s).books.data = (op.writes s).foldl Write.onData s.data := data_exec s op
    rw [hdata] at hinfo
    refine named_writes (fun _ _ _ _ hw => hop _ (mem_leases_of_writes hw)) (fun k info hk => ?_) k info
      hinfo
    exact hs.named k _ ((hmem s k _).mpr ⟨info, hk, rfl, trivial⟩)

/-! ### The lease manager -/

theorem times_serverKeepAlive (s : Server) (now L L' : Int) :
    (s.keepAlive now L).leaseManager.times L' = if L' = L then
      (s.leaseManager.times L).map fun e => (e.1, deadline now e.1) else s.leaseManager.times L' := by
  rw [Server.keepAlive, LeaseManager.keepAlive]
  cases hL : s.leaseManager.leases.find? L with
  | none =>
    dsimp only
    split_ifs with hLL
    · simp [hLL, LeaseManager.times, hL]
    · rfl
  | some info =>
    dsimp only [LeaseManager.times]
    rw [UnorderedMap.find?_modify]
    split_ifs
    · simp [hL]
    · rfl

/-- The same section on two lease managers that differ in the key sets at most. -/
theorem sameButKeys_atom {a : Atom} (ha : a.kvOps = [])
    (h : s.leaseManager.SameButKeys d.leaseManager) :
    (a.exec s).leaseManager.SameButKeys (a.exec d).leaseManager := by
  cases a with
  | kv op => cases ha
  | grant now ttl =>
    refine ⟨?_, h.deleteKeyCallback, ?_⟩
    · show d.leaseManager.nextLeaseId + 1 = s.leaseManager.nextLeaseId + 1
      rw [h.nextLeaseId]
    · funext L
      show (d.leaseManager.grant now ttl).2.2.times L = (s.leaseManager.grant now ttl).2.2.times L
      rw [LeaseManager.times_grant, LeaseManager.times_grant, h.nextLeaseId, h.times]
  | keepAlive now leaseId =>
    have hnext : ∀ t : Server, (t.keepAlive now leaseId).leaseManager.nextLeaseId =
        t.leaseManager.nextLeaseId ∧ (t.keepAlive now leaseId).leaseManager.deleteKeyCallback =
        t.leaseManager.deleteKeyCallback := by
      intro t
      rw [Server.keepAlive, LeaseManager.keepAlive]
      cases t.leaseManager.leases.find? leaseId <;> exact ⟨rfl, rfl⟩
    refine ⟨?_, ?_, ?_⟩
    · exact (hnext d).1.trans (h.nextLeaseId.trans (hnext s).1.symm)
    · exact (hnext d).2.trans (h.deleteKeyCallback.trans (hnext s).2.symm)
    · funext L
      show (d.keepAlive now leaseId).leaseManager.times L = (s.keepAlive now leaseId).leaseManager.times L
      rw [times_serverKeepAlive, times_serverKeepAlive, h.times]
  | erase leaseId =>
    refine ⟨h.nextLeaseId, h.deleteKeyCallback, ?_⟩
    funext L
    show (d.leaseManager.erase leaseId).times L = (s.leaseManager.erase leaseId).times L
    rw [LeaseManager.times_erase, LeaseManager.times_erase, h.times]

/-- An action does to the lease manager what its section does, but for the key sets. -/
theorem sameButKeys_run (a : Act) (h : s.leaseManager.SameButKeys d.leaseManager) :
    (Run.final Atom.exec s a.atoms).leaseManager.SameButKeys (a.run d).1.leaseManager := by
  by_cases ha : a.owner = some .lease
  · cases a with
    | grant now ttl => exact sameButKeys_atom (a := .grant now ttl) rfl h
    | keepAlive now leaseId => exact sameButKeys_atom (a := .keepAlive now leaseId) rfl h
    | eraseLease leaseId => exact sameButKeys_atom (a := .erase leaseId) rfl h
    | attachKey leaseId key => exact h.trans (d.leaseManager.sameButKeys_attachKey leaseId key)
    | detachKey leaseId key => exact h.trans (d.leaseManager.sameButKeys_detachKey leaseId key)
    | getLeaseKeys leaseId => exact h
    | expiredLeases now => exact h
    | read r => exact h
    | _ => cases ha
  · have hnone : a.atoms = [] := by
      cases a with
      | grant now ttl => exact absurd rfl ha
      | keepAlive now leaseId => exact absurd rfl ha
      | eraseLease leaseId => exact absurd rfl ha
      | _ => rfl
    rw [hnone, leaseManager_run ha]
    exact h

/-- Ids only grow. -/
theorem nextLeaseId_le_run (a : Act) (s : Server) :
    s.leaseManager.nextLeaseId ≤ (a.run s).1.leaseManager.nextLeaseId := by
  have hsame := sameButKeys_run a (.refl s.leaseManager)
  rw [hsame.nextLeaseId]
  cases a with
  | grant now ttl =>
    show s.leaseManager.nextLeaseId ≤ s.leaseManager.nextLeaseId + 1
    omega
  | keepAlive now leaseId =>
    exact (elsewhere_run (a := .keepAlive now leaseId) nofun rfl s).next_le
  | _ => exact le_rfl

/-- The section of an action keeps the key sets exact. -/
theorem keySetsExact_atoms (h : KeySetsExact s) (a : Act) :
    KeySetsExact (Run.final Atom.exec s a.atoms) := by
  cases a with
  | grant now ttl => exact keySetsExact_stable _ _ h (elsewhere_run (a := .grant now ttl) nofun rfl s)
  | keepAlive now leaseId =>
    exact keySetsExact_stable _ _ h (elsewhere_run (a := .keepAlive now leaseId) nofun rfl s)
  | eraseLease leaseId =>
    exact keySetsExact_stable _ _ h (elsewhere_run (a := .eraseLease leaseId) nofun rfl s)
  | _ => exact h

end Serial

/-! ### Every run -/

section Runs

variable {T : Type} {y : Locks.State T Mutex Act Server} {s : Server}

/-- The serial run so far leads to this server: it has the same leases as the threads have now, but
for their keys. -/
structure Follows (y : Locks.State T Mutex Act Server) (s : Server) : Prop where
  leases : s.leaseManager.SameButKeys y.data.leaseManager
  exact : KeySetsExact s
  granted : ∀ t a, .act a ∈ y.prog t → ∀ L ∈ a.leases, L < y.data.leaseManager.nextLeaseId

theorem follows_start (env : Env) : Follows (start T env) (.new env) where
  leases := .refl _
  exact := keySetsExact_new env
  granted := by
    intro t a ha
    cases ha

theorem storeOp_leases {p : List Instr} {op : KvOp} (h : op ∈ storeOp p) :
    ∃ a, .act a ∈ p ∧ op.leases = a.leases := by
  rw [storeOp.eq_def] at h
  split at h
  · exact ⟨_, List.mem_cons_self, by rw [List.mem_singleton.mp h]; rfl⟩
  · exact ⟨_, List.mem_cons_self, by rw [List.mem_singleton.mp h]; rfl⟩
  · exact ⟨_, List.mem_cons_self, by rw [List.mem_singleton.mp h]; rfl⟩
  · cases h

/-- The serial run goes on by operations of the store. -/
theorem Follows.kv (h : Follows y s) {ops : List KvOp}
    (hops : ∀ op ∈ ops, ∀ L ∈ op.leases, L < y.data.leaseManager.nextLeaseId) :
    Follows y (Run.final Atom.exec s (ops.map .kv)) := by
  induction ops generalizing s with
  | nil => exact h
  | cons op ops ih =>
    refine ih ⟨(exec_wiring s op).leases.symm.trans h.leases, ?_, h.granted⟩ fun op' hop' =>
      hops op' (List.mem_cons_of_mem _ hop')
    refine keySetsExact_exec h.exact op fun L hL => ?_
    rw [← h.leases.nextLeaseId]
    exact hops op List.mem_cons_self L hL

variable [DecidableEq T]

/-- A thread goes on. -/
theorem Follows.goesOn (h : Follows y s) {t : T} {p : List Instr} {holder : Mutex → Option T}
    (hp : ∀ a, .act a ∈ p → .act a ∈ y.prog t) :
    Follows { y with holder := holder, prog := Function.update y.prog t p } s where
  leases := h.leases
  exact := h.exact
  granted := by
    intro t' a ha L hL
    dsimp only at ha
    rw [Function.update_apply] at ha
    split_ifs at ha with ht
    · exact h.granted t a (hp a ha) L hL
    · exact h.granted t' a ha L hL

/-- A thread takes an action. -/
theorem Follows.acts (h : Follows y s) {t : T} {a : Act} {p : List Instr}
    (hp : y.prog t = .act a :: p) :
    Follows { y with data := (a.run y.data).1,
                     prog := Function.update y.prog t ((a.run y.data).2 ++ p) }
      (Run.final Atom.exec s a.atoms) where
  leases := sameButKeys_run a h.leases
  exact := keySetsExact_atoms h.exact a
  granted := by
    intro t' b hb L hL
    refine lt_of_lt_of_le ?_ (nextLeaseId_le_run a y.data)
    dsimp only at hb
    rw [Function.update_apply] at hb
    split_ifs at hb
    · rcases List.mem_append.mp hb with hb | hb
      · exact h.granted t a (hp ▸ List.mem_cons_self) L (names_run a y.data b hb hL)
      · exact h.granted t b (hp ▸ List.mem_cons_of_mem _ hb) L hL
    · exact h.granted t' b hb L hL

/-- **A step of the threads is followed by the section that it takes.** -/
theorem Follows.step (h : Follows y s) {e : Locks.Event T Op} (he : CallsGranted y e) :
    Follows (Locks.step system y e) (Run.final Atom.exec s (atoms y e)) := by
  cases e with
  | call t op =>
    rw [Locks.step]
    split_ifs
    · refine ⟨h.leases, h.exact, fun t' a ha L hL => ?_⟩
      dsimp only at ha
      rw [Function.update_apply] at ha
      split_ifs at ha
      · exact he.2 L (names_program op a ha hL)
      · exact h.granted t' a ha L hL
    · exact h
  | resume t =>
    rw [Locks.step, Locks.advance, atoms]
    split
    · next hp =>
      simp only [hp]
      exact h
    · next m p hp =>
      simp only [hp]
      have hgoes : ∀ a, .act a ∈ p → .act a ∈ y.prog t := fun a ha => hp ▸ List.mem_cons_of_mem _ ha
      have hops : ∀ op ∈ storeOp p, ∀ L ∈ op.leases, L < y.data.leaseManager.nextLeaseId := by
        intro op hop L hL
        obtain ⟨a, ha, hleases⟩ := storeOp_leases hop
        exact h.granted t a (hgoes a ha) L (hleases ▸ hL)
      cases m with
      | store =>
        dsimp only
        split_ifs
        · exact (h.kv hops).goesOn hgoes
        · exact h
      | _ =>
        dsimp only
        split_ifs
        · exact h.goesOn hgoes
        · exact h
    · next m p hp =>
      simp only [hp]
      exact h.goesOn fun a ha => hp ▸ List.mem_cons_of_mem _ ha
    · next a p hp =>
      simp only [hp]
      exact h.acts hp

theorem follows_run (env : Env) {evs : List (Locks.Event T Op)}
    (hevs : Run.Along (Locks.step system) CallsGranted (start T env) evs) :
    Follows (Locks.run system (start T env) evs)
      (Run.final Atom.exec (.new env) (Run.log (Locks.step system) atoms (start T env) evs)) := by
  refine Run.invariant_log_along (Locks.step system)
    (I := fun y l => Follows y (Run.final Atom.exec (.new env) l)) (fun y e l h he => ?_)
    (follows_start env) hevs
  rw [Run.final_append]
  exact h.step he

/-- The operations of the store are those of the threads that take its lock. -/
theorem kvOps_log (env : Env) (evs : List (Locks.Event T Op)) (y : Locks.State T Mutex Act Server) :
    (Run.log (Locks.step system) atoms y evs).flatMap Atom.kvOps =
      Run.log (Locks.step system) (begun (storeContract (.new env)) .store) y evs := by
  have hstep : ∀ (y : Locks.State T Mutex Act Server) e,
      (atoms y e).flatMap Atom.kvOps = begun (storeContract (.new env)) .store y e := by
    intro y e
    cases e with
    | call t op => rfl
    | resume t =>
      rw [atoms, begun]
      generalize y.prog t = p
      cases p with
      | nil => rfl
      | cons i p =>
        cases i with
        | lock m =>
          cases m with
          | store =>
            by_cases hfree : (y.holder .store).isNone
            · simp [hfree, List.flatMap_map, Atom.kvOps, serial]
            · simp [hfree]
          | _ => rfl
        | unlock m => rfl
        | act a => cases a <;> rfl
  induction evs generalizing y with
  | nil => rfl
  | cons e evs ih => rw [Run.log, Run.log, List.flatMap_append, hstep, ih]

/-- Each put under the lock names leases that have been granted. -/
theorem namesGranted_along (env : Env) {evs : List (Locks.Event T Op)}
    (hevs : Run.Along (Locks.step system) CallsGranted (start T env) evs) :
    Run.Along (Locks.step system) NamesGranted (start T env) evs := by
  refine Run.along_of_invariant (Locks.step system) (I := fun y => ∃ s, Follows y s)
    (fun y e hy he => ?_) ⟨_, follows_start env⟩ hevs
  obtain ⟨s, h⟩ := hy
  refine ⟨?_, _, h.step he⟩
  cases e with
  | call t op => exact he.1
  | resume t =>
    rw [NamesGranted]
    split
    · next a p hp =>
      intro L hL
      refine h.granted t a (hp ▸ List.mem_cons_self) L ?_
      cases a with
      | put key value lease => exact List.mem_singleton.mpr (Option.mem_some_iff.mp hL).symm
      | txnOp revision op =>
        cases op with
        | requestPut r => exact List.mem_singleton.mpr (Option.mem_some_iff.mp hL).symm
        | _ => cases hL
      | _ => cases hL
    · trivial

/-- Exact key sets are the same when the keys are bound to the same leases. -/
theorem keySet_eq {s d : Server} (hs : KeySetsExact s) (hd : KeySetsExact d)
    (hstore : d.kvStore = s.kvStore) (hleases : s.leaseManager.SameButKeys d.leaseManager) :
    d.leaseManager.keySet = s.leaseManager.keySet := by
  funext L
  have hlive : d.leaseManager.Live L ↔ s.leaseManager.Live L := by
    rw [LeaseManager.live_iff_times, LeaseManager.live_iff_times, hleases.times]
  cases hdk : d.leaseManager.keySet L with
  | none =>
    cases hsk : s.leaseManager.keySet L with
    | none => rfl
    | some S =>
      have hdead := hlive.mpr (by rw [LeaseManager.Live, hsk]; rfl)
      rw [LeaseManager.Live, hdk] at hdead
      cases hdead
  | some S =>
    have halive := hlive.mp (by rw [LeaseManager.Live, hdk]; rfl)
    obtain ⟨S', hsk⟩ := Option.isSome_iff_exists.mp halive
    rw [hsk]
    congr 1
    ext k
    rw [hd.2.keys L S hdk k, hs.2.keys L S' hsk k, hstore]

/-- **The store and the leases together are what atomic sections make of them.** In any interleaving
of any operations of any number of threads, where no client calls `AttachKey` or `DetachKey` itself
and an operation names only leases that have been granted before it is called: but for the keys of
the leases, the leases are at any time what the sections so far make of them; and when the lock of
the store is free, so is the store, and so are the keys. -/
theorem atoms_serial (env : Env) (evs : List (Locks.Event T Op))
    (hevs : Run.Along (Locks.step system) CallsGranted (start T env) evs) :
    let y := Locks.run system (start T env) evs
    let s := Run.final Atom.exec (.new env) (Run.log (Locks.step system) atoms (start T env) evs)
    s.leaseManager.SameButKeys y.data.leaseManager ∧ (y.holder .store = none →
      y.data.kvStore = s.kvStore ∧ y.data.leaseManager.keySet = s.leaseManager.keySet) := by
  intro y s
  have hfollows : Follows y s := follows_run env hevs
  refine ⟨hfollows.leases, fun hfree => ?_⟩
  have hstore : y.data.kvStore = s.kvStore := by
    rw [kvStore_final, kvOps_log env]
    exact (store_settled env evs).free hfree
  have hexact := keySetsExact_run env (namesGranted_along env hevs) hfree
  exact ⟨hstore, keySet_eq hfollows.exact hexact hstore hfollows.leases⟩

/-- A key is put under a lease, and the lease is renewed before the key joins it. -/
theorem atoms_serial_put :
    let evs : List (Locks.Event ℕ Op) :=
      [.call 0 (.grant 0 60), .resume 0, .resume 0, .resume 0, .call 0 (.put [107] [118] 1),
        .call 1 (.keepAlive 10 1), .resume 0, .resume 0, .resume 1, .resume 1, .resume 1] ++
        List.replicate 9 (.resume 0)
    let y := Locks.run system (start ℕ .plain) evs
    let s := Run.final Atom.exec (.new .plain)
      (Run.log (Locks.step system) atoms (start ℕ .plain) evs)
    s.leaseManager.SameButKeys y.data.leaseManager ∧ (y.holder .store = none →
      y.data.kvStore = s.kvStore ∧ y.data.leaseManager.keySet = s.leaseManager.keySet) := by
  refine atoms_serial .plain _ ⟨⟨rfl, nofun⟩, trivial, trivial, trivial, ⟨rfl, fun L hL => ?_⟩,
    ⟨rfl, nofun⟩, trivial, trivial, trivial, trivial, trivial, trivial, trivial, trivial, trivial,
    trivial, trivial, trivial, trivial, trivial, trivial⟩
  obtain rfl : L = 1 := List.mem_singleton.mp hL
  show (1 : Int) < 2
  decide

end Runs

end Threads

end EtcdLite
