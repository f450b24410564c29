import EtcdLite.Kv.History
import EtcdLite.Lease.System

/-!
# Compare-and-swap on a version

A client that reads a key at version `v` can make its put conditional: a transaction that
compares the version of the key with `v`, and puts the key when it succeeds. As long as the
key is not deleted its version counts its puts (`version_writes`), so the first such
transaction to succeed takes the version past `v`, where it stays. No other succeeds after
it, whoever its client is (`swap_once`).
-/

namespace EtcdLite

open Server

/-! ### A version counts the puts -/

/-- The key is not deleted by the write: either it is out of the range, or it is not there. -/
def Write.Keeps (k : Bytes) (d : Data) (w : Write) : Prop := w.deletes k = true → d k = none

/-- A write that does not delete a key that is there leaves it there, one version up if the
write is a put of it. -/
theorem version_write {k : Bytes} {d : Data} {w : Write} (hw : w.Keeps k d) {info : KeyInfo}
    (h : d k = some info) : ∃ info', w.onData d k = some info' ∧
      info'.version = info.version + (w.putOf k).toList.length := by
  have hdel : w.deletes k = false := by
    by_contra hdel
    rw [hw (eq_true_of_ne_false hdel)] at h
    cases h
  cases hput : w.putOf k with
  | none => exact ⟨info, (Write.onData_of_other hdel hput).trans h, by simp⟩
  | some p => exact ⟨_, Write.onData_of_putOf hput, by simp [h, putInfo]⟩

/-- **The version of a key counts its puts**, as long as the key is not deleted. -/
theorem version_writes {k : Bytes} {d : Data} {ws : List Write}
    (hws : Run.Along Write.onData (Write.Keeps k) d ws) {info : KeyInfo} (h : d k = some info) :
    ∃ info', ws.foldl Write.onData d k = some info' ∧
      info'.version = info.version + (ws.filterMap (Write.putOf k)).length := by
  induction ws generalizing d info with
  | nil => exact ⟨info, h, by simp⟩
  | cons w ws ih =>
    obtain ⟨info', h', hversion⟩ := version_write hws.1 h
    obtain ⟨info'', h'', hversion'⟩ := ih hws.2 h'
    refine ⟨info'', h'', ?_⟩
    cases hp : w.putOf k with
    | none => simp [hp, hversion', hversion]
    | some p =>
      simp only [hp, hversion', hversion, List.filterMap_cons_some hp, Option.toList_some,
        List.length_cons, List.length_nil]
      omega

/-! ### What a step does to the data -/

namespace System

/-- The data after a step is what its writes make of the data before. -/
theorem data_step (y : System) (a : Act) :
    (y.step a).server.data = ((y.logged a).map Prod.fst).foldl Write.onData y.server.data := by
  rw [step_server, logged]
  cases y.atom a with
  | none => rfl
  | some atom => exact atom.data_exec y.server

/-- No write of the step deletes the key. -/
def Keeps (k : Bytes) (y : System) (a : Act) : Prop :=
  Run.Along Write.onData (Write.Keeps k) y.server.data ((y.logged a).map Prod.fst)

end System

/-! ### Compare-and-swap -/

/-- The compare asks whether the version of the key is `v`. -/
structure Compare.VersionIs (k : Bytes) (v : Int) (cmp : Compare) : Prop where
  result : cmp.result = .EQUAL
  target : cmp.target = .VERSION
  key : cmp.key = k
  version : cmp.version = v

instance (k : Bytes) (v : Int) (cmp : Compare) : Decidable (cmp.VersionIs k v) :=
  decidable_of_iff
    (cmp.result = .EQUAL ∧ cmp.target = .VERSION ∧ cmp.key = k ∧ cmp.version = v)
    ⟨fun ⟨h₁, h₂, h₃, h₄⟩ => ⟨h₁, h₂, h₃, h₄⟩, fun ⟨h₁, h₂, h₃, h₄⟩ => ⟨h₁, h₂, h₃, h₄⟩⟩

/-- The operation is a put of the key. -/
def RequestOp.puts (k : Bytes) : RequestOp → Bool
  | .requestPut r => r.key = k
  | .requestRange _ | .requestDeleteRange _ | .requestTxn _ _ _ | .notSet => false

namespace System

/-- The response of the step, if it is a compare-and-swap that succeeds: a transaction that
compares the version of the key with `v` and puts the key. -/
def swaps (k : Bytes) (v : Int) (y : System) : Act → List TxnResponse
  | .kv (.txn compares success failure) =>
    let response := (y.server.txn compares success failure).1
    if (∃ cmp ∈ compares, cmp.VersionIs k v) ∧ (∃ op ∈ success, op.puts k) ∧
        response.succeeded = true then [response]
    else []
  | .kv (.put _ _ _ _) | .kv (.delete _ _ _) | .grant _ | .keepAlive _ | .revoke _ _
  | .checkExpiration _ | .resume _ | .tick _ => []

/-- The key is there, past the version. -/
def Past (k : Bytes) (v : Int) (y : System) : Prop :=
  ∃ info, y.server.data k = some info ∧ v < info.version

theorem swaps_length (k : Bytes) (v : Int) (y : System) (a : Act) :
    (y.swaps k v a).length ≤ 1 := by
  unfold swaps
  split
  · dsimp only
    split_ifs
    · exact le_refl 1
    · exact Nat.zero_le 1
  all_goals exact Nat.zero_le 1

/-- A compare-and-swap that succeeds finds the key at version `v`. -/
theorem swaps_ne_nil {k : Bytes} {v : Int} {y : System} {a : Act} (h : y.swaps k v a ≠ []) :
    ∃ compares success failure, a = .kv (.txn compares success failure) ∧
      (∃ op ∈ success, op.puts k = true) ∧ y.server.chosenOps compares success failure = success ∧
      ∃ info, y.server.data k = some info ∧ info.version = v := by
  unfold swaps at h
  split at h
  case h_1 compares success failure =>
    dsimp only at h
    split_ifs at h with hswap
    swap
    · exact absurd rfl h
    obtain ⟨⟨cmp, hcmp, hversion⟩, hputs, hsucceeded⟩ := hswap
    rw [txn_succeeded] at hsucceeded
    refine ⟨compares, success, failure, rfl, hputs, if_pos hsucceeded, ?_⟩
    have hholds := KVStore.evaluateCompares_iff.mp hsucceeded cmp hcmp
    rw [hversion.key] at hholds
    cases hinfo : y.server.kvStore.data.find? k with
    | none =>
      rw [hinfo] at hholds
      cases hholds
    | some info =>
      refine ⟨info, hinfo, ?_⟩
      simpa [hinfo, KVStore.evaluateCompare, hversion.target, hversion.result, hversion.version,
        KVStore.compareWith, KVStore.getTargetValue] using hholds
  all_goals exact absurd rfl h

/-- A list of operations that has a put of the key writes it. -/
theorem putOf_of_puts {k : Bytes} {ops : List RequestOp} (h : ∃ op ∈ ops, op.puts k = true)
    (revision : Int) :
    0 < ((ops.flatMap (RequestOp.writes revision)).filterMap (Write.putOf k)).length := by
  obtain ⟨op, hop, hputs⟩ := h
  cases op with
  | requestPut r =>
    obtain rfl : r.key = k := of_decide_eq_true hputs
    refine List.length_pos_of_mem (a := ⟨r.value, r.lease, revision⟩) ?_
    refine List.mem_filterMap.mpr ⟨.put r.key r.value r.lease revision, ?_, if_pos rfl⟩
    exact List.mem_flatMap.mpr ⟨_, hop, List.mem_singleton.mpr rfl⟩
  | requestRange r => cases hputs
  | requestDeleteRange r => cases hputs
  | requestTxn c p q => cases hputs
  | notSet => cases hputs

/-- A compare-and-swap that succeeds takes the key past the version. -/
theorem past_of_swaps {k : Bytes} {v : Int} {y : System} {a : Act} (hkeep : y.Keeps k a)
    (h : y.swaps k v a ≠ []) : (y.step a).Past k v := by
  obtain ⟨compares, success, failure, rfl, hputs, hchosen, info, hinfo, hv⟩ := swaps_ne_nil h
  obtain ⟨info', hinfo', hversion⟩ := version_writes hkeep hinfo
  rw [← data_step] at hinfo'
  refine ⟨info', hinfo', ?_⟩
  have hpos := putOf_of_puts hputs (y.server.kvStore.revision + 1)
  have hwrites : ((y.logged (.kv (.txn compares success failure))).map Prod.fst) =
      success.flatMap (RequestOp.writes (y.server.kvStore.revision + 1)) := by
    show List.map Prod.fst (List.map _ (KvOp.writes _ _)) = _
    rw [List.map_map, KvOp.writes, hchosen]
    exact List.map_id _
  rw [hwrites] at hversion
  omega

/-- Once the key is past the version no compare-and-swap succeeds, and the key stays past. -/
theorem past_keeps {k : Bytes} {v : Int} {y : System} {a : Act} (hkeep : y.Keeps k a)
    (h : y.Past k v) : y.swaps k v a = [] ∧ (y.step a).Past k v := by
  obtain ⟨info, hinfo, hv⟩ := h
  constructor
  · by_contra hne
    obtain ⟨compares, success, failure, -, -, -, info', hinfo', hv'⟩ := swaps_ne_nil hne
    obtain rfl := Option.some.inj (hinfo.symm.trans hinfo')
    omega
  · obtain ⟨info', hinfo', hversion⟩ := version_writes hkeep hinfo
    rw [← data_step] at hinfo'
    exact ⟨info', hinfo', by omega⟩

end System

/-- **Compare-and-swap succeeds once.** In any stretch of any run in which a key is not
deleted, at most one transaction that compares the version of the key with `v`, and puts the
key when it succeeds, succeeds. -/
theorem swap_once (env : Env) (clock : Int) (acts stretch : List Act) (k : Bytes) (v : Int)
    (hkeep : Run.Along System.step (System.Keeps k) ((System.start env clock).run acts) stretch) :
    (Run.log System.step (System.swaps k v) ((System.start env clock).run acts) stretch).length ≤
      1 :=
  Run.log_length_le_one System.step (fun y a => y.swaps_length k v a)
    (fun _ _ h hne => System.past_of_swaps h hne) (fun _ _ h hpast => System.past_keeps h hpast)
    hkeep

/-- Two clients read the key at version 1, and one of them swaps. -/
theorem swap_once_two :
    let swap (value : Bytes) : Act := .kv (.txn
      [{ key := [107], targetUnion := .version 1 }] [.requestPut { key := [107], value := value }] [])
    let y := (System.start .plain 0).run [.kv (.put [107] [118] 0 none)]
    (Run.log System.step (System.swaps [107] 1) y [swap [119], swap [120]]).length = 1 ∧
      (Run.log System.step (System.swaps [107] 1) y [swap [119], swap [120]]).length ≤ 1 := by
  intro swap y
  refine ⟨by decide, swap_once .plain 0 [.kv (.put [107] [118] 0 none)] _ [107] 1 ?_⟩
  refine ⟨⟨?_, trivial⟩, ?_, trivial⟩
  · intro h
    cases h
  · trivial

end EtcdLite
