import EtcdLite.Kv.Effects
import EtcdLite.Lib.Run
import Mathlib.Logic.Function.Basic

/-!
# The books: what the store and the lease manager keep

An abstract account of the server's data: a map from keys to entries, and for each
lease the set of its keys (`Books`). There are two ways to write to it, a put and the
deletion of a range (`Write`), and no iteration order, callback or early return.

The operations of the store refine it: `Put`, `Delete` and `Txn` each perform a list of
writes (`KvOp.writes`; for `Txn`, one for each put and deletion of the branch that is
executed, all at the transaction's revision), and what they leave in the store and the
lease manager is what those writes leave in the books (`data_exec`, `books_exec`).
-/

namespace EtcdLite

open Server

/-! ### Writes -/

/-- A write: a put, at a revision, or the deletion of a range. -/
inductive Write where
  | put (key value : Bytes) (lease revision : Int)
  | delete (key rangeEnd : Bytes)
  deriving DecidableEq, Repr

/-- A map from keys to the entries stored. -/
abbrev Data := Bytes → Option KeyInfo

/-- What a write does to the data. -/
def Write.onData (d : Data) : Write → Data
  | .put key value lease revision =>
    Function.update d key (some (putInfo (d key) key value lease revision))
  | .delete key rangeEnd => fun k => if keyInRange k key rangeEnd then none else d k

/-- What a write does to the key set of a lease, when the data is `d`: a put takes the key
from its old lease and gives it to the new one, a deletion takes each key from its own. -/
def Write.onKeys (d : Data) (L : Int) : Write → Set Bytes → Set Bytes
  | .put key _ lease _, S =>
    {k | (k = key ∧ 0 < L ∧ L = lease) ∨ (k ∈ S ∧ ¬ (k = key ∧ 0 < L ∧ L = leaseOf (d key)))}
  | .delete key rangeEnd, S =>
    {k | k ∈ S ∧ ¬ (keyInRange k key rangeEnd ∧ 0 < L ∧ L = leaseOf (d k))}

/-- The books. -/
@[ext]
structure Books where
  /-- The entries. -/
  data : Data
  /-- The leases, and the keys of each. -/
  leases : Int → Option (Set Bytes)

/-- A write to the books. -/
def Books.write (b : Books) (w : Write) : Books :=
  { data := w.onData b.data, leases := fun L => (b.leases L).map (w.onKeys b.data L) }

/-- A write neither adds nor removes a lease. -/
@[simp] theorem Books.leases_write_isSome (b : Books) (w : Write) (L : Int) :
    ((b.write w).leases L).isSome = (b.leases L).isSome := by
  simp [Books.write]

theorem Books.leases_writes_isSome (b : Books) (ws : List Write) (L : Int) :
    ((ws.foldl Books.write b).leases L).isSome = (b.leases L).isSome := by
  induction ws generalizing b with
  | nil => rfl
  | cons w ws ih => rw [List.foldl_cons, ih, leases_write_isSome]

/-- The data of a server. -/
def Server.data (s : Server) : Data := s.kvStore.data.find?

/-- The books of a server. -/
def Server.books (s : Server) : Books := ⟨s.data, s.leaseManager.keySet⟩

/-! ### Put and delete refine the writes -/

/-- The store and the lease manager after a put, whichever copy of the code did it. -/
structure PutDone (s t : Server) (key value : Bytes) (lease revision : Int) : Prop where
  data : t.kvStore.data =
    s.kvStore.data.insert key (putInfo (s.data key) key value lease revision)
  leaseManager : t.leaseManager =
    relink s.kvStore.leaseManager (s.data key) key lease s.leaseManager

/-- The store and the lease manager after a deletion, whichever copy of the code did it. -/
structure DeleteDone (s t : Server) (key rangeEnd : Bytes) : Prop where
  data : t.kvStore.data = (s.eraseMatched key rangeEnd).1
  leaseManager : t.leaseManager = (s.eraseMatched key rangeEnd).2

theorem PutDone.data_eq {s t : Server} {key value : Bytes} {lease revision : Int}
    (h : PutDone s t key value lease revision) :
    t.data = (Write.put key value lease revision).onData s.data := by
  funext k
  unfold Server.data at *
  rw [h.data, UnorderedMap.find?_insert, Write.onData]
  by_cases hk : k = key
  · subst hk
    rw [if_pos rfl, Function.update_self]
    rfl
  · rw [if_neg hk, Function.update_of_ne hk]

theorem PutDone.books_eq {s t : Server} {key value : Bytes} {lease revision : Int}
    (h : PutDone s t key value lease revision) (hw : s.kvStore.leaseManager = true) :
    t.books = s.books.write (.put key value lease revision) := by
  ext1
  · exact h.data_eq
  · funext L
    show t.leaseManager.keySet L = (s.leaseManager.keySet L).map _
    rw [h.leaseManager, hw, relink_keySet]
    congr 1
    funext S
    ext k
    simp only [Write.onKeys, Server.books, Set.mem_ofPred_eq]
    by_cases hk : k = key
    · subst hk
      split_ifs with h₁ h₂
      · rw [Set.mem_insert_iff]
        tauto
      · rw [Set.mem_sdiff, Set.mem_singleton_iff]
        tauto
      · tauto
    · split_ifs <;> simp [hk]

theorem DeleteDone.data_eq {s t : Server} {key rangeEnd : Bytes}
    (h : DeleteDone s t key rangeEnd) : t.data = (Write.delete key rangeEnd).onData s.data := by
  funext k
  unfold Server.data at *
  rw [h.data, eraseMatched, detachAndErase_fst, List.foldl_map, UnorderedMap.find?_foldl_erase,
    Write.onData]
  have hmem : k ∈ (s.matched key rangeEnd).map Prod.fst ↔
      keyInRange k key rangeEnd = true ∧ (s.kvStore.data.find? k).isSome := by
    simp only [List.mem_map, Prod.exists, exists_and_right, exists_eq_right, mem_matched,
      Option.isSome_iff_exists]
    tauto
  by_cases hr : keyInRange k key rangeEnd = true
  · cases hf : s.kvStore.data.find? k <;> simp [hmem, hr, hf]
  · simp [hmem, hr]

theorem DeleteDone.books_eq {s t : Server} {key rangeEnd : Bytes}
    (h : DeleteDone s t key rangeEnd) (hw : s.kvStore.leaseManager = true) :
    t.books = s.books.write (.delete key rangeEnd) := by
  ext1
  · exact h.data_eq
  · funext L
    show t.leaseManager.keySet L = (s.leaseManager.keySet L).map _
    rw [h.leaseManager, eraseMatched, hw, detachAndErase_keySet]
    congr 1
    funext S
    ext k
    have hmem : (k, L) ∈ (s.matched key rangeEnd).map (fun e => (e.1, e.2.kv.lease)) ↔
        ∃ info, s.data k = some info ∧ keyInRange k key rangeEnd = true ∧ info.kv.lease = L := by
      simp only [List.mem_map, Prod.mk.injEq, Prod.exists, mem_matched, Server.data]
      constructor
      · rintro ⟨_, info, ⟨h₁, h₂⟩, rfl, h₃⟩
        exact ⟨info, h₁, h₂, h₃⟩
      · rintro ⟨info, h₁, h₂, h₃⟩
        exact ⟨k, info, ⟨h₁, h₂⟩, rfl, h₃⟩
    simp only [Write.onKeys, Server.books, Set.mem_ofPred_eq, hmem]
    cases hd : s.data k with
    | none =>
      have hne : ¬ (0 < L ∧ L = leaseOf none) := by
        rw [show leaseOf none = 0 from rfl]
        omega
      simp [hne]
    | some info =>
      simp only [Option.some.injEq, exists_eq_left', leaseOf, Option.map_some, Option.getD_some]
      tauto

/-! ### The operations of the store -/

/-- A call of `Put`, `Delete` or `Txn`. -/
inductive KvOp where
  | put (key value : Bytes) (lease : Int) (prevKv : Option KeyValue)
  | delete (key rangeEnd : Bytes) (prevKvs : Bool)
  | txn (compares : List Compare) (success failure : List RequestOp)

/-- Running it. -/
def KvOp.exec (s : Server) : KvOp → Server
  | .put key value lease prevKv => (s.put key value lease prevKv).2
  | .delete key rangeEnd prevKvs => (s.delete key rangeEnd prevKvs).2
  | .txn compares success failure => (s.txn compares success failure).2

/-- The write of an operation of a transaction, if it is one. -/
def RequestOp.writes (revision : Int) : RequestOp → List Write
  | .requestPut r => [.put r.key r.value r.lease revision]
  | .requestDeleteRange r => [.delete r.key r.rangeEnd]
  | .requestRange _ | .requestTxn _ _ _ | .notSet => []

/-- The writes an operation makes, in order. -/
def KvOp.writes (s : Server) : KvOp → List Write
  | .put key value lease _ => [.put key value lease (s.kvStore.revision + 1)]
  | .delete key rangeEnd _ => [.delete key rangeEnd]
  | .txn compares success failure =>
    (s.chosenOps compares success failure).flatMap (RequestOp.writes (s.kvStore.revision + 1))

/-- What no write changes: the wiring, and what is not about keys. -/
structure SameWiring (s t : Server) : Prop where
  leaseManager : t.kvStore.leaseManager = s.kvStore.leaseManager
  leases : s.leaseManager.SameButKeys t.leaseManager

theorem SameWiring.refl (s : Server) : SameWiring s s := ⟨rfl, .refl _⟩

theorem SameWiring.trans {s t u : Server} (h : SameWiring s t) (h' : SameWiring t u) :
    SameWiring s u :=
  ⟨h'.1.trans h.1, h.2.trans h'.2⟩

theorem put_done (s : Server) (key value : Bytes) (lease : Int) (prevKv : Option KeyValue) :
    PutDone s (s.put key value lease prevKv).2 key value lease (s.kvStore.revision + 1) :=
  ⟨by rw [put_kvStore]; rfl, s.put_leaseManager key value lease prevKv⟩

theorem delete_done (s : Server) (key rangeEnd : Bytes) (prevKvs : Bool) :
    DeleteDone s (s.delete key rangeEnd prevKvs).2 key rangeEnd :=
  ⟨by rw [delete_kvStore], s.delete_leaseManager key rangeEnd prevKvs⟩

theorem txnPut_done (s : Server) (revision : Int) (r : PutRequest) :
    PutDone s (s.txnPut revision r).2 r.key r.value r.lease revision :=
  ⟨rfl, s.txnPut_leaseManager revision r⟩

theorem txnDeleteRange_done (s : Server) (r : DeleteRangeRequest) :
    DeleteDone s (s.txnDeleteRange r).2 r.key r.rangeEnd := ⟨rfl, rfl⟩

theorem put_wiring (s : Server) (key value : Bytes) (lease : Int) (prevKv : Option KeyValue) :
    SameWiring s (s.put key value lease prevKv).2 := by
  have h := relink_frame s.kvStore.leaseManager (s.kvStore.data.find? key) key lease s.leaseManager
  rw [← s.put_leaseManager key value lease prevKv] at h
  exact ⟨by rw [put_kvStore], h⟩

theorem delete_wiring (s : Server) (key rangeEnd : Bytes) (prevKvs : Bool) :
    SameWiring s (s.delete key rangeEnd prevKvs).2 := by
  have h := detachAndErase_snd_frame s.kvStore.leaseManager
    ((s.matched key rangeEnd).map fun e => (e.1, e.2.kv.lease)) s.kvStore.data s.leaseManager
  rw [← eraseMatched, ← s.delete_leaseManager key rangeEnd prevKvs] at h
  exact ⟨by rw [delete_kvStore], h⟩

/-! ### A transaction refines its writes -/

section Txn

variable (s : Server) (revision : Int)

theorem data_txnOp (op : RequestOp) :
    (s.txnOp revision op).2.data = (op.writes revision).foldl Write.onData s.data := by
  cases op with
  | requestPut r => exact (txnPut_done s revision r).data_eq
  | requestDeleteRange r => exact (txnDeleteRange_done s r).data_eq
  | requestRange r => rfl
  | requestTxn c p q => rfl
  | notSet => rfl

theorem books_txnOp (hw : s.kvStore.leaseManager = true) (op : RequestOp) :
    (s.txnOp revision op).2.books = (op.writes revision).foldl Books.write s.books := by
  cases op with
  | requestPut r => exact (txnPut_done s revision r).books_eq hw
  | requestDeleteRange r => exact (txnDeleteRange_done s r).books_eq hw
  | requestRange r => rfl
  | requestTxn c p q => rfl
  | notSet => rfl

theorem txnOp_wiring (op : RequestOp) : SameWiring s (s.txnOp revision op).2 := by
  cases op with
  | requestPut r =>
    have h := relink_frame s.kvStore.leaseManager (s.kvStore.data.find? r.key) r.key r.lease
      s.leaseManager
    rw [← s.txnPut_leaseManager revision r] at h
    exact ⟨rfl, h⟩
  | requestDeleteRange r =>
    have h := detachAndErase_snd_frame s.kvStore.leaseManager
      ((s.matched r.key r.rangeEnd).map fun e => (e.1, e.2.kv.lease)) s.kvStore.data s.leaseManager
    exact ⟨rfl, h⟩
  | requestRange r => exact .refl s
  | requestTxn c p q => exact .refl s
  | notSet => exact .refl s

theorem txnOp_revision (op : RequestOp) :
    (s.txnOp revision op).2.kvStore.revision = s.kvStore.revision := by
  cases op <;> rfl

theorem data_txnOps (ops : List RequestOp) : (s.txnOps revision ops).2.data =
    (ops.flatMap (RequestOp.writes revision)).foldl Write.onData s.data := by
  induction ops generalizing s with
  | nil => rfl
  | cons op ops ih =>
    rw [List.flatMap_cons, List.foldl_append, ← data_txnOp]
    exact ih _

theorem txnOps_wiring (ops : List RequestOp) : SameWiring s (s.txnOps revision ops).2 := by
  induction ops generalizing s with
  | nil => exact .refl s
  | cons op ops ih => exact (txnOp_wiring s revision op).trans (ih _)

theorem books_txnOps (hw : s.kvStore.leaseManager = true) (ops : List RequestOp) :
    (s.txnOps revision ops).2.books =
      (ops.flatMap (RequestOp.writes revision)).foldl Books.write s.books := by
  induction ops generalizing s with
  | nil => rfl
  | cons op ops ih =>
    rw [List.flatMap_cons, List.foldl_append, ← books_txnOp s revision hw]
    exact ih _ ((txnOp_wiring s revision op).leaseManager.trans hw)

theorem txnOps_revision (ops : List RequestOp) :
    (s.txnOps revision ops).2.kvStore.revision = s.kvStore.revision := by
  induction ops generalizing s with
  | nil => rfl
  | cons op ops ih => exact (ih _).trans (txnOp_revision s revision op)

end Txn

/-! ### Every operation refines its writes -/

/-- **The data refines the writes**, whatever the store is wired to. -/
theorem data_exec (s : Server) (op : KvOp) :
    (op.exec s).data = (op.writes s).foldl Write.onData s.data := by
  cases op with
  | put key value lease prevKv => exact (put_done s key value lease prevKv).data_eq
  | delete key rangeEnd prevKvs => exact (delete_done s key rangeEnd prevKvs).data_eq
  | txn compares success failure =>
    rw [KvOp.exec, txn_snd]
    exact data_txnOps _ _ _

theorem data_put (s : Server) (key value : Bytes) (lease : Int) (prevKv : Option KeyValue) :
    (s.put key value lease prevKv).2.data = Function.update s.data key
      (some (putInfo (s.data key) key value lease (s.kvStore.revision + 1))) :=
  data_exec s (.put key value lease prevKv)

theorem data_delete (s : Server) (key rangeEnd : Bytes) (prevKvs : Bool) :
    (s.delete key rangeEnd prevKvs).2.data =
      fun k => if keyInRange k key rangeEnd then none else s.data k :=
  data_exec s (.delete key rangeEnd prevKvs)

theorem data_deleteRange (s : Server) (r : DeleteRangeRequest) :
    (KVService.deleteRange s r).2.data =
      fun k => if keyInRange k r.key r.rangeEnd then none else s.data k :=
  data_delete s r.key r.rangeEnd true

/-- **The books refine the writes**, when the store has its lease manager. -/
theorem books_exec (s : Server) (hw : s.kvStore.leaseManager = true) (op : KvOp) :
    (op.exec s).books = (op.writes s).foldl Books.write s.books := by
  cases op with
  | put key value lease prevKv => exact (put_done s key value lease prevKv).books_eq hw
  | delete key rangeEnd prevKvs => exact (delete_done s key rangeEnd prevKvs).books_eq hw
  | txn compares success failure =>
    rw [KvOp.exec, txn_snd]
    exact books_txnOps (s.setRevision (s.kvStore.revision + 1)) _ hw _

theorem exec_wiring (s : Server) (op : KvOp) : SameWiring s (op.exec s) := by
  cases op with
  | put key value lease prevKv => exact put_wiring s key value lease prevKv
  | delete key rangeEnd prevKvs => exact delete_wiring s key rangeEnd prevKvs
  | txn compares success failure =>
    rw [KvOp.exec, txn_snd]
    have h : SameWiring s (s.setRevision (s.kvStore.revision + 1)) := ⟨rfl, .refl _⟩
    exact h.trans (txnOps_wiring _ _ _)

/-- Every operation is one revision. -/
theorem exec_revision (s : Server) (op : KvOp) :
    (op.exec s).kvStore.revision = s.kvStore.revision + 1 := by
  cases op with
  | put key value lease prevKv => exact congrArg KVStore.revision (put_kvStore s key value lease prevKv)
  | delete key rangeEnd prevKvs =>
    exact congrArg KVStore.revision (delete_kvStore s key rangeEnd prevKvs)
  | txn compares success failure =>
    rw [KvOp.exec, txn_snd]
    exact txnOps_revision _ _ _

/-! ### The rest of the server -/

theorem txnOps_rest (s : Server) (revision : Int) (ops : List RequestOp) :
    (∃ data, (s.txnOps revision ops).2.kvStore = { s.kvStore with data := data }) ∧
      (s.txnOps revision ops).2.watchManager = s.watchManager ∧
      (s.txnOps revision ops).2.streams = s.streams := by
  induction ops generalizing s with
  | nil => exact ⟨⟨_, rfl⟩, rfl, rfl⟩
  | cons op ops ih =>
    have hop : (∃ data, (s.txnOp revision op).2.kvStore = { s.kvStore with data := data }) ∧
        (s.txnOp revision op).2.watchManager = s.watchManager ∧
        (s.txnOp revision op).2.streams = s.streams := by
      cases op <;> exact ⟨⟨_, rfl⟩, rfl, rfl⟩
    obtain ⟨⟨data, hdata⟩, hwm, hstreams⟩ := hop
    obtain ⟨⟨data', hdata'⟩, hwm', hstreams'⟩ := ih (s.txnOp revision op).2
    refine ⟨⟨data', ?_⟩, hwm'.trans hwm, hstreams'.trans hstreams⟩
    exact hdata'.trans (by rw [hdata])

/-- An operation changes the data and the revision of the store, and nothing else of it. -/
theorem exec_kvStore (s : Server) (op : KvOp) : ∃ data, (op.exec s).kvStore =
    { s.kvStore with revision := s.kvStore.revision + 1, data := data } := by
  cases op with
  | put key value lease prevKv => exact ⟨_, put_kvStore s key value lease prevKv⟩
  | delete key rangeEnd prevKvs => exact ⟨_, delete_kvStore s key rangeEnd prevKvs⟩
  | txn compares success failure =>
    rw [KvOp.exec, txn_snd]
    exact (txnOps_rest _ _ _).1

/-- An operation leaves the registry of watchers alone. -/
theorem exec_watchManager (s : Server) (op : KvOp) : (op.exec s).watchManager = s.watchManager := by
  cases op with
  | put key value lease prevKv =>
    rw [KvOp.exec, Server.put]
    dsimp only
    split_ifs <;> rfl
  | delete key rangeEnd prevKvs => exact (s.delete_snd key rangeEnd prevKvs).watchManager
  | txn compares success failure =>
    rw [KvOp.exec, txn_snd]
    exact (txnOps_rest _ _ _).2.1

/-- What the loop of `Txn` does to the store depends on the store alone. -/
theorem txnOps_kvStore_congr {s t : Server} (h : s.kvStore = t.kvStore) (revision : Int)
    (ops : List RequestOp) :
    (s.txnOps revision ops).2.kvStore = (t.txnOps revision ops).2.kvStore := by
  induction ops generalizing s t with
  | nil => exact h
  | cons op ops ih =>
    refine ih ?_
    cases op with
    | requestPut r => simp only [txnPut, h]
    | requestDeleteRange r => simp only [txnDeleteRange, detachAndErase_fst, h]
    | requestRange r => exact h
    | requestTxn c p q => exact h
    | notSet => exact h

/-- What an operation does to the store depends on the store alone. -/
theorem exec_kvStore_congr {s t : Server} (h : s.kvStore = t.kvStore) (op : KvOp) :
    (op.exec s).kvStore = (op.exec t).kvStore := by
  cases op with
  | put key value lease prevKv => rw [KvOp.exec, KvOp.exec, put_kvStore, put_kvStore, h]
  | delete key rangeEnd prevKvs =>
    rw [KvOp.exec, KvOp.exec, delete_kvStore, delete_kvStore, eraseMatched, eraseMatched,
      detachAndErase_fst, detachAndErase_fst, matched, matched, h]
  | txn compares success failure =>
    rw [KvOp.exec, KvOp.exec, txn_snd, txn_snd, chosenOps, chosenOps, h]
    exact txnOps_kvStore_congr (by rw [setRevision, setRevision, h]) _ _

end EtcdLite
