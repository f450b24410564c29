import EtcdLite.Kv.Books
import EtcdLite.Kv.History

/-!
# The lease-to-key index

Each lease keeps the set of its keys, and each entry of the store names its lease. This
module says how the two stay in step, one atomic section of the code at a time (`Atom`):
a call of `Put`, `Delete` or `Txn`, `Grant`, `KeepAlive`, and the `erase` that ends a
`Revoke`. The other part of a `Revoke`, the deletion of its keys, is calls of `Delete`.

A put that names a lease which is not there is stored all the same, and attached to
nothing. So what is in a key set depends on which leases there were when the key was last
put; a *tag* is a record of that for every key, and `Books.Exact` says, with its help,
exactly which keys a key set has. `Sound` adds what keeps the index exact: no lease id is
used twice.
-/

namespace EtcdLite

open Server

/-! ### Atomic sections -/

/-- A section of the code that runs under one lock. -/
inductive Atom where
  | kv (op : KvOp)
  | grant (now ttl : Int)
  | keepAlive (now leaseId : Int)
  | erase (leaseId : Int)

/-- Running it. -/
def Atom.exec (s : Server) : Atom → Server
  | .kv op => op.exec s
  | .grant now ttl => s.grant now ttl
  | .keepAlive now leaseId => s.keepAlive now leaseId
  | .erase leaseId => { s with leaseManager := s.leaseManager.erase leaseId }

/-- The writes it makes, each with the lease manager at that moment. -/
def Atom.logged (s : Server) : Atom → List (Write × LeaseManager)
  | .kv op => (op.writes s).map fun w => (w, s.leaseManager)
  | .grant _ _ | .keepAlive _ _ | .erase _ => []

/-- A keep-alive changes the lease manager only. -/
theorem keepAlive_rest (s : Server) (now leaseId : Int) :
    ∃ lm, s.keepAlive now leaseId = { s with leaseManager := lm } := by
  rw [Server.keepAlive]
  split
  · exact ⟨s.leaseManager, rfl⟩
  · exact ⟨_, rfl⟩

theorem data_keepAlive (s : Server) (now leaseId : Int) :
    (s.keepAlive now leaseId).data = s.data := by
  obtain ⟨lm, hlm⟩ := keepAlive_rest s now leaseId
  rw [hlm]
  rfl

/-- What an atomic section leaves alone. -/
theorem atom_rest (s : Server) (a : Atom) : (a.exec s).watchManager = s.watchManager ∧
    (a.exec s).kvStore.putCallback = s.kvStore.putCallback ∧
    (a.exec s).kvStore.deleteCallback = s.kvStore.deleteCallback := by
  cases a with
  | kv op =>
    obtain ⟨data, hdata⟩ := exec_kvStore s op
    exact ⟨exec_watchManager s op, by rw [Atom.exec, hdata], by rw [Atom.exec, hdata]⟩
  | grant now ttl => exact ⟨rfl, rfl, rfl⟩
  | keepAlive now leaseId =>
    obtain ⟨lm, hlm⟩ := keepAlive_rest s now leaseId
    rw [Atom.exec, hlm]
    exact ⟨rfl, rfl, rfl⟩
  | erase leaseId => exact ⟨rfl, rfl, rfl⟩

/-- Of the atomic sections, the operations of the store are those that change the store or
write to streams. -/
theorem atom_cases (s : Server) (a : Atom) : (∃ op, a = .kv op) ∨
    ((∀ op, a ≠ .kv op) ∧ (a.exec s).kvStore = s.kvStore ∧ (a.exec s).streams = s.streams) := by
  cases a with
  | kv op => exact .inl ⟨op, rfl⟩
  | grant now ttl => exact .inr ⟨by simp, rfl, rfl⟩
  | keepAlive now leaseId =>
    obtain ⟨lm, hlm⟩ := keepAlive_rest s now leaseId
    rw [Atom.exec, hlm]
    exact .inr ⟨by simp, rfl, rfl⟩
  | erase leaseId => exact .inr ⟨by simp, rfl, rfl⟩

/-- The data after an atomic section is what its writes make of the data before. -/
theorem Atom.data_exec (s : Server) (a : Atom) :
    (a.exec s).data = ((a.logged s).map Prod.fst).foldl Write.onData s.data := by
  cases a with
  | kv op =>
    have hwrites : (Atom.logged s (.kv op)).map Prod.fst = op.writes s := by
      rw [Atom.logged, List.map_map]
      exact List.map_id _
    rw [hwrites]
    exact EtcdLite.data_exec s op
  | grant now ttl => rfl
  | keepAlive now leaseId => exact data_keepAlive s now leaseId
  | erase leaseId => rfl

/-! ### Exact books -/

/-- For each key, the leases there were when it was last put. -/
abbrev Tag := Bytes → Set Int

/-- What a write does to the tag, when the leases are `live`. -/
def Write.retag (live : Set Int) (tag : Tag) : Write → Tag
  | .put key _ _ _ => Function.update tag key live
  | .delete _ _ => tag

/-- The key set of each lease is exact: it has the keys bound to the lease by a put that
found the lease there. -/
def Books.Exact (b : Books) (tag : Tag) : Prop :=
  ∀ L S, b.leases L = some S →
    ∀ k, k ∈ S ↔ ∃ info, b.data k = some info ∧ info.kv.lease = L ∧ L ∈ tag k

theorem Books.Exact.leaseOf_eq {b : Books} {tag : Tag} (h : b.Exact tag) {L : Int} {S : Set Bytes}
    (hS : b.leases L = some S) {k : Bytes} (hk : k ∈ S) : leaseOf (b.data k) = L := by
  obtain ⟨info, hinfo, hL, -⟩ := (h L S hS k).mp hk
  simpa [leaseOf, hinfo] using hL

/-- A write keeps the books exact. -/
theorem Books.Exact.write {b : Books} {tag : Tag} {live : Set Int} (h : b.Exact tag)
    (hlive : ∀ L, (b.leases L).isSome → 0 < L ∧ L ∈ live) (w : Write) :
    (b.write w).Exact (w.retag live tag) := by
  intro L S' hS' k
  obtain ⟨S, hS, rfl⟩ := Option.map_eq_some_iff.mp hS'
  obtain ⟨hpos, hL⟩ := hlive L (by rw [hS]; rfl)
  have hk := h L S hS k
  have hof : k ∈ S → leaseOf (b.data k) = L := h.leaseOf_eq hS
  cases w with
  | put key value lease revision =>
    simp only [Write.onKeys, Books.write, Write.onData, Write.retag, Set.mem_ofPred_eq]
    by_cases hkey : k = key
    · subst hkey
      simp only [Function.update_self, Option.some.injEq, exists_eq_left', putInfo, true_and]
      constructor
      · rintro (⟨-, rfl⟩ | ⟨hmem, hne⟩)
        · exact ⟨rfl, hL⟩
        · exact absurd ⟨hpos, (hof hmem).symm⟩ hne
      · rintro ⟨rfl, -⟩
        exact .inl ⟨hpos, rfl⟩
    · simp only [hkey, false_and, not_false_eq_true, and_true, false_or,
        Function.update_of_ne hkey, hk]
  | delete key rangeEnd =>
    simp only [Write.onKeys, Books.write, Write.onData, Write.retag, Set.mem_ofPred_eq]
    by_cases hr : keyInRange k key rangeEnd = true
    · simp only [hr, if_true, reduceCtorEq, false_and, exists_false, iff_false, true_and]
      rintro ⟨hmem, hne⟩
      exact hne ⟨hpos, (hof hmem).symm⟩
    · simp only [hr, Bool.false_eq_true, if_false, false_and, not_false_eq_true, and_true, hk]

/-- So does a list of writes. -/
theorem Books.Exact.writes {b : Books} {tag : Tag} {live : Set Int} (h : b.Exact tag)
    (hlive : ∀ L, (b.leases L).isSome → 0 < L ∧ L ∈ live) (ws : List Write) :
    (ws.foldl Books.write b).Exact (ws.foldl (Write.retag live) tag) := by
  induction ws generalizing b tag with
  | nil => exact h
  | cons w ws ih =>
    refine ih (h.write hlive w) fun L hL => hlive L ?_
    rwa [Books.leases_write_isSome] at hL

/-- A put of a key has the live leases for its tag. -/
theorem Write.retag_of_putOf {live : Set Int} {tag : Tag} {k : Bytes} {w : Write} {p : PutRecord}
    (h : w.putOf k = some p) : w.retag live tag k = live := by
  rw [putOf_eq_some h]
  exact Function.update_self ..

/-- Any other write leaves its tag. -/
theorem Write.retag_of_other {live : Set Int} {tag : Tag} {k : Bytes} {w : Write}
    (h : w.putOf k = none) : w.retag live tag k = tag k := by
  cases w with
  | delete key rangeEnd => rfl
  | put key value lease revision =>
    have hk : k ≠ key := by
      rintro rfl
      simp [putOf] at h
    exact Function.update_of_ne hk ..

/-- Writes add only live leases to the tag. -/
theorem mem_retag_writes {live : Set Int} {ws : List Write} {tag : Tag} {k : Bytes} {L : Int}
    (h : L ∈ ws.foldl (Write.retag live) tag k) : L ∈ live ∨ L ∈ tag k := by
  induction ws generalizing tag with
  | nil => exact .inr h
  | cons w ws ih =>
    rcases ih h with hlive | htag
    · exact .inl hlive
    · cases hput : w.putOf k with
      | none =>
        rw [Write.retag_of_other hput] at htag
        exact .inr htag
      | some p =>
        rw [Write.retag_of_putOf hput] at htag
        exact .inl htag

/-- A key that writes leave put has the live leases for its tag. -/
theorem retag_writes_put {live : Set Int} {ws : List Write} {tag : Tag} {k : Bytes} {p : PutRecord}
    (h : (livePuts k ws).getLast? = some p) : ws.foldl (Write.retag live) tag k = live := by
  induction ws using List.reverseRecOn with
  | nil => cases h
  | append_singleton ws w ih =>
    rw [List.foldl_append, List.foldl_cons, List.foldl_nil]
    rw [livePuts_concat] at h
    cases hput : w.putOf k with
    | some p => exact Write.retag_of_putOf hput
    | none =>
      rw [Write.retag_of_other hput]
      split_ifs at h
      · cases h
      · exact ih (by simpa [hput] using h)

/-- A key that is not put keeps its tag. -/
theorem retag_writes_keep {live : Set Int} {ws : List Write} {tag : Tag} {k : Bytes}
    (h : ∀ w ∈ ws, w.putOf k = none) : ws.foldl (Write.retag live) tag k = tag k := by
  induction ws generalizing tag with
  | nil => rfl
  | cons w ws ih =>
    rw [List.foldl_cons, ih fun w' hw' => h w' (List.mem_cons_of_mem _ hw')]
    exact Write.retag_of_other (h w List.mem_cons_self)

/-! ### Sound servers -/

/-- A server wired by its constructor whose index is exact. -/
structure Sound (s : Server) (tag : Tag) : Prop where
  /-- The store has its lease manager. -/
  wired : s.kvStore.leaseManager = true
  /-- The lease manager has its callback. -/
  callback : s.leaseManager.deleteKeyCallback = true
  /-- Lease ids are given out from 1. -/
  next_pos : 0 < s.leaseManager.nextLeaseId
  /-- Every lease has an id given out already. -/
  ids : ∀ L, s.leaseManager.Live L → 0 < L ∧ L < s.leaseManager.nextLeaseId
  /-- So had every lease that a put found. -/
  tags : ∀ k L, L ∈ tag k → L < s.leaseManager.nextLeaseId
  exact : s.books.Exact tag

/-- What an atomic section does to the tag. -/
def Atom.retag (s : Server) (tag : Tag) (a : Atom) : Tag :=
  (a.logged s).foldl (fun tag e => e.1.retag {L | e.2.Live L} tag) tag

theorem Atom.retag_kv (s : Server) (tag : Tag) (op : KvOp) : (Atom.kv op).retag s tag =
    (op.writes s).foldl (Write.retag {L | s.leaseManager.Live L}) tag := by
  rw [Atom.retag, Atom.logged, List.foldl_map]

theorem sound_new (env : Env) : Sound (Server.new env) fun _ => ∅ where
  wired := rfl
  callback := rfl
  next_pos := Int.one_pos
  ids := by
    intro L hL
    cases hL
  tags := by
    intro k L hL
    cases hL
  exact := by
    intro L S hS
    cases hS

/-- An operation of the store neither adds nor removes a lease. -/
theorem live_exec {s : Server} (hw : s.kvStore.leaseManager = true) (op : KvOp) (L : Int) :
    (op.exec s).leaseManager.Live L ↔ s.leaseManager.Live L := by
  have h := congrArg (fun b => (b.leases L).isSome) (books_exec s hw op)
  simp only [Books.leases_writes_isSome] at h
  exact (Bool.coe_iff_coe ..).mpr h

theorem Books.Exact.mono {b b' : Books} {tag : Tag} (h : b.Exact tag) (hd : b'.data = b.data)
    (hl : ∀ L S, b'.leases L = some S → b.leases L = some S) : b'.Exact tag := by
  intro L S hS k
  rw [hd]
  exact h L S (hl L S hS) k

theorem Sound.kv {s : Server} {tag : Tag} (h : Sound s tag) (op : KvOp) :
    Sound (op.exec s) ((Atom.kv op).retag s tag) where
  wired := (exec_wiring s op).leaseManager.trans h.wired
  callback := (exec_wiring s op).leases.deleteKeyCallback.trans h.callback
  next_pos := by
    rw [(exec_wiring s op).leases.nextLeaseId]
    exact h.next_pos
  ids := by
    intro L hL
    rw [(exec_wiring s op).leases.nextLeaseId]
    exact h.ids L ((live_exec h.wired op L).mp hL)
  tags := by
    intro k L hL
    rw [(exec_wiring s op).leases.nextLeaseId]
    rw [Atom.retag_kv] at hL
    rcases mem_retag_writes hL with hlive | htag
    · exact (h.ids L hlive).2
    · exact h.tags k L htag
  exact := by
    rw [books_exec s h.wired, Atom.retag_kv]
    exact h.exact.writes (fun L hL => ⟨(h.ids L hL).1, hL⟩) _

theorem Sound.grant {s : Server} {tag : Tag} (h : Sound s tag) (now ttl : Int) :
    Sound (s.grant now ttl) tag where
  wired := h.wired
  callback := h.callback
  next_pos := by
    have hn := h.next_pos
    show 0 < s.leaseManager.nextLeaseId + 1
    omega
  ids := by
    intro L hL
    show 0 < L ∧ L < s.leaseManager.nextLeaseId + 1
    have hn := h.next_pos
    rw [LeaseManager.Live, Server.grant, LeaseManager.keySet_grant] at hL
    split_ifs at hL with hnew
    · omega
    · have hids := h.ids L hL
      omega
  tags := by
    intro k L hL
    have htag := h.tags k L hL
    show L < s.leaseManager.nextLeaseId + 1
    omega
  exact := by
    intro L S hS k
    change (s.leaseManager.grant now ttl).2.2.keySet L = some S at hS
    rw [LeaseManager.keySet_grant] at hS
    split_ifs at hS with hnew
    · -- The id is new, so no put found it.
      cases hS
      refine iff_of_false (Set.notMem_empty k) ?_
      rintro ⟨info, -, -, hL⟩
      have htag := h.tags k L hL
      omega
    · exact h.exact L S hS k

theorem keepAlive_error {s : Server} {now leaseId : Int} {rc : Status}
    (h : s.leaseManager.keepAlive now leaseId = .error rc) : s.keepAlive now leaseId = s := by
  rw [Server.keepAlive, h]

theorem keepAlive_ok {s : Server} {now leaseId ttl : Int} {lm : LeaseManager}
    (h : s.leaseManager.keepAlive now leaseId = .ok (ttl, lm)) :
    s.keepAlive now leaseId = { s with leaseManager := lm } := by
  rw [Server.keepAlive, h]

theorem Sound.keepAlive {s : Server} {tag : Tag} (h : Sound s tag) (now leaseId : Int) :
    Sound (s.keepAlive now leaseId) tag := by
  cases hk : s.leaseManager.keepAlive now leaseId with
  | error rc =>
    rw [keepAlive_error hk]
    exact h
  | ok r =>
    obtain ⟨ttl, lm⟩ := r
    rw [keepAlive_ok hk]
    have hset : lm.keySet = s.leaseManager.keySet :=
      funext fun L => LeaseManager.keySet_keepAlive hk L
    have hframe := LeaseManager.keepAlive_frame hk
    refine ⟨h.wired, hframe.2.trans h.callback, ?_, ?_, ?_, ?_⟩
    · exact hframe.1 ▸ h.next_pos
    · intro L hL
      rw [LeaseManager.Live, hset] at hL
      exact hframe.1 ▸ h.ids L hL
    · exact fun k L hL => hframe.1 ▸ h.tags k L hL
    · refine h.exact.mono rfl fun L S hS => ?_
      rwa [Server.books, hset] at hS

theorem Sound.erase {s : Server} {tag : Tag} (h : Sound s tag) (leaseId : Int) :
    Sound ((Atom.erase leaseId).exec s) tag where
  wired := h.wired
  callback := h.callback
  next_pos := h.next_pos
  ids := by
    intro L hL
    rw [LeaseManager.Live, Atom.exec, LeaseManager.keySet_erase] at hL
    split_ifs at hL
    · cases hL
    · exact h.ids L hL
  tags := h.tags
  exact := by
    refine h.exact.mono rfl fun L S hS => ?_
    change (s.leaseManager.erase leaseId).keySet L = some S at hS
    rw [LeaseManager.keySet_erase] at hS
    split_ifs at hS
    exact hS

/-- **Every atomic section keeps the index exact.** -/
theorem Sound.exec {s : Server} {tag : Tag} (h : Sound s tag) (a : Atom) :
    Sound (a.exec s) (a.retag s tag) := by
  cases a with
  | kv op => exact h.kv op
  | grant now ttl => exact h.grant now ttl
  | keepAlive now leaseId => exact h.keepAlive now leaseId
  | erase leaseId => exact h.erase leaseId

end EtcdLite
