import EtcdLite.Kv.History
import EtcdLite.Model.KVService

/-!
# The guards of a transaction

A guard compares a field of a key with an operand. `Guard` is a guard whose `oneof`
carries the operand of its target; `Guard.Holds` is what it should mean on a stored key,
and `Guard.HoldsAbsent` on a key that is absent, which has version, revisions and lease
`0` and no value.

`EvaluateCompare` reads every integer operand through `cmp.version()`, which is `0` when
another member is set, and answers `false` for an absent key. So a guard on a stored key
is right when its target is `VERSION` or `VALUE`, and otherwise exactly when the operand
and `0` give the same answer (`evaluateCompare_iff`); a guard on an absent key is right
exactly when the answer should be no (`absent_guards`), and no client that creates a key
if it is absent ever succeeds.
-/

namespace EtcdLite

open Server

/-! ### What a guard should mean -/

/-- The relation a `CompareResult` names. -/
def CompareResult.Rel {α : Type} [LT α] : CompareResult → α → α → Prop
  | .EQUAL, a, b => a = b
  | .NOT_EQUAL, a, b => a ≠ b
  | .GREATER, a, b => b < a
  | .LESS, a, b => a < b
  | .other _, _, _ => False

/-- A guard carrying the operand of its target. -/
inductive Guard where
  | version (v : Int)
  | create (v : Int)
  | mod (v : Int)
  | lease (v : Int)
  | value (v : Bytes)

/-- The guard as a message. -/
def Guard.toCompare (g : Guard) (result : CompareResult) (key : Bytes) : Compare :=
  match g with
  | .version v => { result := result, target := .VERSION, key := key, targetUnion := .version v }
  | .create v =>
    { result := result, target := .CREATE, key := key, targetUnion := .createRevision v }
  | .mod v => { result := result, target := .MOD, key := key, targetUnion := .modRevision v }
  | .lease v => { result := result, target := .LEASE, key := key, targetUnion := .lease v }
  | .value v => { result := result, target := .VALUE, key := key, targetUnion := .value v }

/-- The guard holds of a stored key. -/
def Guard.Holds (g : Guard) (result : CompareResult) (info : KeyInfo) : Prop :=
  match g with
  | .version v => result.Rel info.version v
  | .create v => result.Rel info.createRevision v
  | .mod v => result.Rel info.modRevision v
  | .lease v => result.Rel info.kv.lease v
  | .value v => result.Rel info.kv.value v

/-- The guard holds of an absent key. -/
def Guard.HoldsAbsent (g : Guard) (result : CompareResult) : Prop :=
  match g with
  | .version v | .create v | .mod v | .lease v => result.Rel 0 v
  | .value _ => False

theorem compareWith_iff {α : Type} [LinearOrder α] (result : CompareResult) (a b : α) :
    KVStore.compareWith result a b = true ↔ result.Rel a b := by
  cases result <;> simp [KVStore.compareWith, CompareResult.Rel]

/-! ### Guards on stored keys -/

/-- Comparing a field with `0` gives the answer that comparing it with the operand would. -/
def CompareResult.AgreesAtZero (result : CompareResult) (field operand : Int) : Prop :=
  match result with
  | .EQUAL | .NOT_EQUAL => operand = 0 ∨ (field ≠ 0 ∧ field ≠ operand)
  | .GREATER => field ≤ min 0 operand ∨ max 0 operand < field
  | .LESS => field < min 0 operand ∨ max 0 operand ≤ field
  | .other _ => True

/-- The guard is on the version or the value, or its operand is one that `0` stands for. -/
def Guard.Readable (g : Guard) (result : CompareResult) (info : KeyInfo) : Prop :=
  match g with
  | .version _ | .value _ => True
  | .create v => result.AgreesAtZero info.createRevision v
  | .mod v => result.AgreesAtZero info.modRevision v
  | .lease v => result.AgreesAtZero info.kv.lease v

theorem rel_zero_iff (result : CompareResult) (field operand : Int) :
    (result.Rel field 0 ↔ result.Rel field operand) ↔ result.AgreesAtZero field operand := by
  cases result <;> simp only [CompareResult.Rel, CompareResult.AgreesAtZero, iff_self] <;> omega

/-- **A guard on a stored key is evaluated right** exactly when it is on the version or the
value, or its operand is one that `0` stands for. -/
theorem evaluateCompare_iff (g : Guard) (result : CompareResult) (key : Bytes) (info : KeyInfo) :
    (KVStore.evaluateCompare (g.toCompare result key) (some info) = true ↔ g.Holds result info) ↔
      g.Readable result info := by
  cases g with
  | version v =>
    exact iff_true_intro (compareWith_iff result info.version v)
  | value v =>
    exact iff_true_intro (compareWith_iff result info.kv.value v)
  | create v =>
    exact (iff_congr (compareWith_iff result info.createRevision 0) Iff.rfl).trans
      (rel_zero_iff result info.createRevision v)
  | mod v =>
    exact (iff_congr (compareWith_iff result info.modRevision 0) Iff.rfl).trans
      (rel_zero_iff result info.modRevision v)
  | lease v =>
    exact (iff_congr (compareWith_iff result info.kv.lease 0) Iff.rfl).trans
      (rel_zero_iff result info.kv.lease v)

/-- After a put at revision 2, the guard that the key was modified at revision 2 is false. -/
theorem evaluateCompare_mod_fails :
    let s := ((Server.new .plain).put [107] [118] 0 none).2
    let info := putInfo none [107] [118] 0 2
    s.kvStore.data.find? [107] = some info ∧ (Guard.mod 2).Holds .EQUAL info ∧
      KVStore.evaluateCompare ((Guard.mod 2).toCompare .EQUAL [107])
        (s.kvStore.data.find? [107]) = false := by
  refine ⟨by decide, rfl, by decide⟩

/-! ### Guards on absent keys -/

/-- A client that creates the key if it is absent: its guard is `VERSION = 0` or
`CREATE = 0`, and it puts the key when the guard holds. -/
structure Client (k : Bytes) where
  /-- The guard is on the create revision. -/
  byCreate : Bool
  /-- What it does when the guard holds. -/
  success : List RequestOp
  /-- What it does otherwise. -/
  failure : List RequestOp
  /-- It puts the key. -/
  puts : ∃ r : PutRequest, .requestPut r ∈ success ∧ r.key = k

/-- The client's transaction. -/
def Client.txn {k : Bytes} (c : Client k) (s : Server) : TxnResponse × Server :=
  s.txn [(if c.byCreate then Guard.create 0 else .version 0).toCompare .EQUAL k] c.success c.failure

/-- The client's transaction, as an operation. -/
def Client.op {k : Bytes} (c : Client k) : KvOp :=
  .txn [(if c.byCreate then Guard.create 0 else .version 0).toCompare .EQUAL k] c.success c.failure

theorem Client.txn_snd {k : Bytes} (c : Client k) (s : Server) : (c.txn s).2 = c.op.exec s :=
  rfl

/-- Whether each of the clients, one after another, succeeded. -/
def outcomes {k : Bytes} (s : Server) : List (Client k) → List Bool
  | [] => []
  | c :: clients => (c.txn s).1.succeeded :: outcomes (c.txn s).2 clients

/-- The first succeeded, and no other. -/
def FirstOnly (l : List Bool) : Prop := ∀ i, ∀ h : i < l.length, l[i] = true ↔ i = 0

/-- A client fails when the key is absent, and when it is there. -/
theorem Client.txn_fails {k : Bytes} (c : Client k) {s : Server}
    (h : ∀ info, s.data k = some info → info.Dated s.kvStore.revision k) :
    (c.txn s).1.succeeded = false := by
  have hd : ∀ cmp : Compare, cmp.target = .VERSION ∨ cmp.target = .CREATE → cmp.version = 0 →
      cmp.result = .EQUAL → KVStore.evaluateCompare cmp (s.data k) = false := by
    intro cmp ht hv hr
    cases hk : s.data k with
    | none => rfl
    | some info =>
      have hi := h info hk
      have h₁ := hi.one_le_version
      have h₂ := hi.one_lt_create
      rcases ht with ht | ht <;>
        simp only [KVStore.evaluateCompare, KVStore.getTargetValue, ht, hv, hr, KVStore.compareWith,
          decide_eq_false_iff_not] <;> omega
  have hguard : ¬ (s.setRevision (s.kvStore.revision + 1)).kvStore.evaluateCompares
      [(if c.byCreate then Guard.create 0 else .version 0).toCompare .EQUAL k] = true := by
    rw [KVStore.evaluateCompares_iff]
    intro hall
    have htrue := hall _ List.mem_cons_self
    have hfalse := hd ((if c.byCreate then Guard.create 0 else .version 0).toCompare .EQUAL k)
    cases hb : c.byCreate with
    | true =>
      rw [hb] at htrue hfalse
      exact absurd htrue (by rw [← Bool.not_eq_false]; exact not_not.mpr (hfalse (.inr rfl) rfl rfl))
    | false =>
      rw [hb] at htrue hfalse
      exact absurd htrue (by rw [← Bool.not_eq_false]; exact not_not.mpr (hfalse (.inl rfl) rfl rfl))
  exact Bool.eq_false_iff.mpr hguard

/-- No client ever succeeds. -/
theorem outcomes_false {k : Bytes} (clients : List (Client k)) {s : Server}
    (hrev : 1 ≤ s.kvStore.revision)
    (h : ∀ info, s.data k = some info → info.Dated s.kvStore.revision k) :
    ∀ b ∈ outcomes s clients, b = false := by
  induction clients generalizing s with
  | nil => simp [outcomes]
  | cons c clients ih =>
    intro b hb
    rcases List.mem_cons.mp hb with rfl | hb
    · exact c.txn_fails h
    · rw [c.txn_snd] at hb
      have hR := exec_revision s c.op
      exact ih (by omega) (exec_dated hrev h c.op) b hb

/-- **A guard on an absent key is evaluated right** exactly when it should not hold; and of
the clients that create the key if it is absent, exactly the first succeeds only when there
are none. The counter of a store starts at 1 and only grows. -/
theorem absent_guards (s : Server) (k : Bytes) (hk : s.kvStore.data.find? k = none)
    (hrev : 1 ≤ s.kvStore.revision) :
    (∀ (g : Guard) (result : CompareResult),
      (KVStore.evaluateCompare (g.toCompare result k) (s.kvStore.data.find? k) = true ↔
        g.HoldsAbsent result) ↔ ¬ g.HoldsAbsent result) ∧
    ∀ clients : List (Client k), FirstOnly (outcomes s clients) ↔ clients = [] := by
  refine ⟨?_, ?_⟩
  · intro g result
    rw [hk]
    simp [KVStore.evaluateCompare]
  · intro clients
    have hfalse := outcomes_false clients hrev fun info hinfo => by
      rw [Server.data, hk] at hinfo
      cases hinfo
    cases clients with
    | nil => simp [FirstOnly, outcomes]
    | cons c clients =>
      simp only [reduceCtorEq, iff_false]
      intro hfirst
      have htrue := (hfirst 0 (by simp [outcomes])).mpr rfl
      have hf := hfalse (c.txn s).1.succeeded List.mem_cons_self
      exact Bool.false_ne_true (hf.symm.trans htrue)

/-- In a new server, the guard `VERSION = 0` on a key is false, and the client that would
create it fails. -/
theorem absent_guard_fails :
    let s := Server.new .plain
    s.kvStore.data.find? [107] = none ∧ (Guard.version 0).HoldsAbsent .EQUAL ∧
      KVStore.evaluateCompare ((Guard.version 0).toCompare .EQUAL [107])
        (s.kvStore.data.find? [107]) = false ∧
      (s.txn [(Guard.version 0).toCompare .EQUAL [107]]
        [.requestPut { key := [107], value := [118] }] []).1.succeeded = false := by
  refine ⟨by decide, rfl, by decide, by decide⟩

/-- The guards of a new server, where every key is absent. -/
theorem absent_guards_new :
    (∀ (g : Guard) (result : CompareResult),
      (KVStore.evaluateCompare (g.toCompare result [107])
          ((Server.new .plain).kvStore.data.find? [107]) = true ↔
        g.HoldsAbsent result) ↔ ¬ g.HoldsAbsent result) ∧
    ∀ clients : List (Client [107]), FirstOnly (outcomes (Server.new .plain) clients) ↔ clients = [] :=
  absent_guards (Server.new .plain) [107] (by decide) (by decide)

end EtcdLite
