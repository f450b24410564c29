import EtcdLite.Kv.Books
import Mathlib.Data.List.DropRight

/-!
# The store as a function of its history

What the store holds is determined by the writes it has performed. For a key, what
counts is the puts since it was last absent, that is, after the last deletion whose
range covers it (`livePuts`): the key is there when there are any, with the value and
lease of the last of them, created at the revision of the first, and at a version that
counts them (`entryOf`). `data_history` says so of any list of writes, and
`history_refinement` of any run of `Put`, `Delete` and `Txn` from an empty store.
-/

namespace EtcdLite

open Server

/-! ### What a history says about a key -/

/-- The write is a deletion whose range covers the key. -/
def Write.deletes (k : Bytes) : Write → Bool
  | .put _ _ _ _ => false
  | .delete key rangeEnd => keyInRange k key rangeEnd

/-- What a put of a key says. -/
structure PutRecord where
  value : Bytes
  lease : Int
  revision : Int
  deriving DecidableEq, Repr

/-- The write as a put of the key, if it is one. -/
def Write.putOf (k : Bytes) : Write → Option PutRecord
  | .put key value lease revision => if key = k then some ⟨value, lease, revision⟩ else none
  | .delete _ _ => none

theorem Write.putOf_eq_some {k : Bytes} {w : Write} {p : PutRecord} (h : w.putOf k = some p) :
    w = .put k p.value p.lease p.revision := by
  cases w with
  | delete key rangeEnd => cases h
  | put key value lease revision =>
    rw [putOf] at h
    split_ifs at h with hk
    rw [hk, ← Option.some.inj h]

/-! ### What a write does to a key -/

theorem Write.onData_of_deletes {d : Data} {k : Bytes} {w : Write} (h : w.deletes k = true) :
    w.onData d k = none := by
  cases w with
  | put key value lease revision => cases h
  | delete key rangeEnd => exact if_pos h

theorem Write.onData_of_putOf {d : Data} {k : Bytes} {w : Write} {p : PutRecord}
    (h : w.putOf k = some p) :
    w.onData d k = some (putInfo (d k) k p.value p.lease p.revision) := by
  rw [putOf_eq_some h]
  exact Function.update_self ..

theorem Write.onData_of_other {d : Data} {k : Bytes} {w : Write} (hdel : w.deletes k = false)
    (hput : w.putOf k = none) : w.onData d k = d k := by
  cases w with
  | put key value lease revision =>
    have hne : k ≠ key := by
      rintro rfl
      simp [putOf] at hput
    exact Function.update_of_ne hne ..
  | delete key rangeEnd =>
    have hr : keyInRange k key rangeEnd = false := hdel
    simp [onData, hr]

/-! ### Live puts -/

/-- The puts of the key after the last deletion that covers it. -/
def livePuts (k : Bytes) (h : List Write) : List PutRecord :=
  (h.rtakeWhile fun w => !w.deletes k).filterMap (Write.putOf k)

/-- The entry of a key, from its puts since it was last absent. -/
def entryOf (k : Bytes) (ps : List PutRecord) : Option KeyInfo :=
  match ps.head?, ps.getLast? with
  | some first, some last =>
    some
      { kv := { key := k, value := last.value, lease := last.lease,
                createRevision := first.revision, modRevision := last.revision,
                version := ps.length },
        createRevision := first.revision, modRevision := last.revision, version := ps.length }
  | _, _ => none

theorem livePuts_concat (k : Bytes) (h : List Write) (w : Write) :
    livePuts k (h ++ [w]) = if w.deletes k then [] else livePuts k h ++ (w.putOf k).toList := by
  unfold livePuts
  rw [List.rtakeWhile_concat]
  cases hw : w.deletes k with
  | true => rfl
  | false =>
    cases hp : w.putOf k <;> simp [hp]

/-- Writes that do not delete the key only add their puts of it. -/
theorem livePuts_append (k : Bytes) (h post : List Write) (hpost : ∀ w ∈ post, w.deletes k = false) :
    livePuts k (h ++ post) = livePuts k h ++ post.filterMap (Write.putOf k) := by
  induction post using List.reverseRecOn with
  | nil => simp
  | append_singleton post w ih =>
    have hw : w.deletes k = false := hpost w (by simp)
    rw [← List.append_assoc, livePuts_concat, hw, ih fun w' hw' => hpost w' (by simp [hw'])]
    cases hp : w.putOf k <;> simp [hp]

/-- A key has live puts when some put of it came after the last deletion covering it. -/
theorem livePuts_ne_nil_iff (k : Bytes) (h : List Write) : livePuts k h ≠ [] ↔
    ∃ pre value lease revision post,
      h = pre ++ .put k value lease revision :: post ∧ ∀ w ∈ post, w.deletes k = false := by
  constructor
  · intro hne
    obtain ⟨p, hp⟩ := List.exists_mem_of_ne_nil _ hne
    obtain ⟨w, hw, hput⟩ := List.mem_filterMap.mp hp
    obtain ⟨pre, hpre⟩ := List.rtakeWhile_suffix (p := fun w => !Write.deletes k w) (l := h)
    obtain ⟨a, b, hab⟩ := List.append_of_mem hw
    refine ⟨pre ++ a, p.value, p.lease, p.revision, b, ?_, ?_⟩
    · rw [← Write.putOf_eq_some hput, ← hpre, hab, List.append_assoc]
    · intro w' hw'
      have hmem : w' ∈ h.rtakeWhile fun w => !Write.deletes k w := by
        rw [hab]
        exact List.mem_append_right _ (List.mem_cons_of_mem _ hw')
      simpa using List.mem_rtakeWhile_imp hmem
  · rintro ⟨pre, value, lease, revision, post, rfl, hpost⟩
    rw [List.append_cons, livePuts_append k _ _ hpost, livePuts_concat]
    simp [Write.deletes, Write.putOf]

/-- The first write gives a live put when it is a put that no later write undoes. -/
theorem livePuts_cons_ne_nil (k : Bytes) (w : Write) (ws : List Write) : livePuts k (w :: ws) ≠ [] ↔
    livePuts k ws ≠ [] ∨ (w.putOf k).isSome ∧ ∀ w' ∈ ws, w'.deletes k = false := by
  simp only [livePuts_ne_nil_iff]
  constructor
  · rintro ⟨pre, value, lease, revision, post, hws, hpost⟩
    rcases List.cons_eq_append_iff.mp hws with ⟨rfl, hput⟩ | ⟨pre', rfl, hrest⟩
    · obtain ⟨rfl, rfl⟩ := List.cons.inj hput
      exact .inr ⟨by simp [Write.putOf], hpost⟩
    · exact .inl ⟨pre', value, lease, revision, post, hrest, hpost⟩
  · rintro (⟨pre, value, lease, revision, post, rfl, hpost⟩ | ⟨hput, hpost⟩)
    · exact ⟨w :: pre, value, lease, revision, post, rfl, hpost⟩
    · obtain ⟨p, hp⟩ := Option.isSome_iff_exists.mp hput
      rw [Write.putOf_eq_some hp]
      exact ⟨[], p.value, p.lease, p.revision, ws, rfl, hpost⟩

/-- One more put. -/
theorem entryOf_concat (k : Bytes) (ps : List PutRecord) (p : PutRecord) :
    entryOf k (ps ++ [p]) = some (putInfo (entryOf k ps) k p.value p.lease p.revision) := by
  cases ps with
  | nil => rfl
  | cons q ps =>
    obtain ⟨r, hr⟩ : ∃ r, (q :: ps).getLast? = some r := ⟨_, List.getLast?_eq_some_getLast (by simp)⟩
    simp only [entryOf, List.cons_append, List.head?_cons, hr, putInfo, Option.map_some,
      Option.getD_some, List.length_cons, List.length_append, List.length_nil]
    rw [← List.cons_append, List.getLast?_concat]
    rfl

theorem entryOf_eq_none_iff (k : Bytes) (ps : List PutRecord) : entryOf k ps = none ↔ ps = [] := by
  cases ps using List.reverseRecOn with
  | nil => simp [entryOf]
  | append_singleton ps p => simp [entryOf_concat]

/-- **The data is a function of the history**: from nothing, a list of writes leaves for each
key the entry its live puts describe. -/
theorem data_history (h : List Write) (k : Bytes) :
    h.foldl Write.onData (fun _ => none) k = entryOf k (livePuts k h) := by
  induction h using List.reverseRecOn with
  | nil => rfl
  | append_singleton h w ih =>
    rw [List.foldl_append, List.foldl_cons, List.foldl_nil, livePuts_concat]
    cases hdel : w.deletes k with
    | true =>
      rw [Write.onData_of_deletes hdel]
      rfl
    | false =>
      cases hput : w.putOf k with
      | none =>
        rw [Write.onData_of_other hdel hput, ih]
        simp
      | some p =>
        rw [Write.onData_of_putOf hput, ih]
        exact (entryOf_concat k _ p).symm

/-! ### The put an operation leaves -/

/-- The put of a key that the operation leaves: its last put of the key, unless it deletes
the key after that. -/
def KvOp.leaves (s : Server) (op : KvOp) (k : Bytes) : Option PutRecord :=
  (livePuts k (op.writes s)).getLast?

theorem leaves_put (s : Server) (key value : Bytes) (lease : Int) (prevKv : Option KeyValue)
    (k : Bytes) : (KvOp.put key value lease prevKv).leaves s k = none ↔ key ≠ k := by
  have h := livePuts_concat k [] (.put key value lease (s.kvStore.revision + 1))
  rw [List.nil_append] at h
  rw [KvOp.leaves, KvOp.writes, h, List.getLast?_eq_none_iff]
  simp [Write.deletes, Write.putOf, livePuts]

/-- A deletion leaves nothing put. -/
theorem leaves_delete (s : Server) (key rangeEnd : Bytes) (prevKvs : Bool) (k : Bytes) :
    (KvOp.delete key rangeEnd prevKvs).leaves s k = none := by
  have h := livePuts_concat k [] (.delete key rangeEnd)
  rw [List.nil_append] at h
  rw [KvOp.leaves, KvOp.writes, h]
  split_ifs <;> rfl

/-- After some writes a key has what the last of its live puts gave it, or is deleted, or is
as it was and not put. -/
theorem data_writes_cases (k : Bytes) (d : Data) (ws : List Write) :
    (∃ p info, (livePuts k ws).getLast? = some p ∧ ws.foldl Write.onData d k = some info ∧
      info.kv.lease = p.lease) ∨
    (livePuts k ws = [] ∧ ws.foldl Write.onData d k = none) ∨
    (livePuts k ws = [] ∧ (∀ w ∈ ws, w.putOf k = none) ∧ ws.foldl Write.onData d k = d k) := by
  induction ws using List.reverseRecOn with
  | nil => exact .inr (.inr ⟨rfl, by simp, rfl⟩)
  | append_singleton ws w ih =>
    rw [List.foldl_append, List.foldl_cons, List.foldl_nil, livePuts_concat]
    cases hdel : w.deletes k with
    | true => exact .inr (.inl ⟨rfl, Write.onData_of_deletes hdel⟩)
    | false =>
      cases hput : w.putOf k with
      | none =>
        rw [Write.onData_of_other hdel hput]
        simpa [hput, or_imp, forall_and] using ih
      | some p => exact .inl ⟨p, _, by simp, Write.onData_of_putOf hput, rfl⟩

/-- After an operation a key is bound to the lease of the put the operation leaves, or is
deleted, or is as it was and not put. -/
theorem exec_data_cases (s : Server) (op : KvOp) (k : Bytes) :
    (∃ p info, op.leaves s k = some p ∧ (op.exec s).data k = some info ∧
      info.kv.lease = p.lease) ∨
    (op.leaves s k = none ∧ (op.exec s).data k = none) ∨
    (op.leaves s k = none ∧ (∀ w ∈ op.writes s, w.putOf k = none) ∧
      (op.exec s).data k = s.data k) := by
  simp only [data_exec, KvOp.leaves, List.getLast?_eq_none_iff]
  exact data_writes_cases k s.data (op.writes s)

/-! ### Dates -/

/-- An entry as the store keeps it at revision `R`: under its own key, its fields agreeing
with those of its key-value, and its revisions in order. -/
structure KeyInfo.Dated (R : Int) (k : Bytes) (info : KeyInfo) : Prop where
  key : info.kv.key = k
  create : info.createRevision = info.kv.createRevision
  mod : info.modRevision = info.kv.modRevision
  version : info.version = info.kv.version
  one_lt_create : 1 < info.createRevision
  create_le_mod : info.createRevision ≤ info.modRevision
  mod_le : info.modRevision ≤ R
  one_le_version : 1 ≤ info.version

theorem KeyInfo.Dated.mono {R R' : Int} {k : Bytes} {info : KeyInfo} (h : info.Dated R k)
    (hR : R ≤ R') : info.Dated R' k := { h with mod_le := h.mod_le.trans hR }

/-- Putting at the current revision keeps the dates in order. -/
theorem putInfo_dated {R : Int} {old : Option KeyInfo} {k : Bytes} (hR : 1 < R)
    (h : ∀ info, old = some info → info.Dated R k) (value : Bytes) (lease : Int) :
    (putInfo old k value lease R).Dated R k := by
  cases old with
  | none => exact ⟨rfl, rfl, rfl, rfl, hR, le_refl R, le_refl R, le_refl 1⟩
  | some info =>
    have hi := h info rfl
    refine ⟨rfl, rfl, rfl, rfl, hi.one_lt_create, hi.create_le_mod.trans hi.mod_le, le_refl R, ?_⟩
    have hone := hi.one_le_version
    show 1 ≤ info.version + 1
    omega

/-- The write, if it is a put, is at the revision. -/
def Write.At (R : Int) : Write → Prop
  | .put _ _ _ revision => revision = R
  | .delete _ _ => True

/-- A write keeps the dates of a key in order. -/
theorem dated_write {R : Int} (hR : 1 < R) {d : Data} {k : Bytes}
    (h : ∀ info, d k = some info → info.Dated R k) {w : Write} (hw : w.At R) :
    ∀ info, w.onData d k = some info → info.Dated R k := by
  intro info hk
  cases w with
  | put key value lease revision =>
    obtain rfl : revision = R := hw
    by_cases hkey : k = key
    · subst hkey
      simp only [Write.onData, Function.update_self, Option.some.injEq] at hk
      rw [← hk]
      exact putInfo_dated hR h value lease
    · rw [Write.onData, Function.update_of_ne hkey] at hk
      exact h info hk
  | delete key rangeEnd =>
    simp only [Write.onData] at hk
    split_ifs at hk
    exact h info hk

theorem dated_writes {R : Int} (hR : 1 < R) {ws : List Write} (hws : ∀ w ∈ ws, w.At R)
    {d : Data} {k : Bytes} (h : ∀ info, d k = some info → info.Dated R k) :
    ∀ info, ws.foldl Write.onData d k = some info → info.Dated R k := by
  induction ws generalizing d with
  | nil => exact h
  | cons w ws ih =>
    exact ih (fun w' hw' => hws w' (List.mem_cons_of_mem _ hw'))
      (dated_write hR h (hws w List.mem_cons_self))

theorem RequestOp.writes_at (R : Int) (op : RequestOp) : ∀ w ∈ op.writes R, w.At R := by
  intro w hw
  cases op with
  | requestPut r => rw [List.mem_singleton.mp hw]; rfl
  | requestDeleteRange r => rw [List.mem_singleton.mp hw]; trivial
  | requestRange r => cases hw
  | requestTxn c p q => cases hw
  | notSet => cases hw

/-- Every write of an operation is at the operation's revision. -/
theorem KvOp.writes_at (s : Server) (op : KvOp) : ∀ w ∈ op.writes s, w.At (s.kvStore.revision + 1) := by
  intro w hw
  cases op with
  | put key value lease prevKv => rw [List.mem_singleton.mp hw]; rfl
  | delete key rangeEnd prevKvs => rw [List.mem_singleton.mp hw]; trivial
  | txn compares success failure =>
    obtain ⟨op, -, hop⟩ := List.mem_flatMap.mp hw
    exact op.writes_at _ w hop

/-- Every operation keeps the dates of a key in order. -/
theorem exec_dated {s : Server} (hone : 1 ≤ s.kvStore.revision) {k : Bytes}
    (h : ∀ info, s.data k = some info → info.Dated s.kvStore.revision k) (op : KvOp) :
    ∀ info, (op.exec s).data k = some info → info.Dated (op.exec s).kvStore.revision k := by
  have hR := exec_revision s op
  rw [hR, data_exec]
  exact dated_writes (by omega) (op.writes_at s) fun info hk => (h info hk).mono (by omega)

/-- The server's revision counter has started, and its entries are dated by it. -/
structure Server.Dated (s : Server) : Prop where
  one_le : 1 ≤ s.kvStore.revision
  data : ∀ k info, s.data k = some info → info.Dated s.kvStore.revision k

theorem dated_new (env : Env) : (Server.new env).Dated := by
  refine ⟨le_rfl, fun k info hk => ?_⟩
  cases hk

theorem Server.Dated.congr {s t : Server} (h : s.Dated) (hsame : t.kvStore = s.kvStore) :
    t.Dated := by
  refine ⟨hsame ▸ h.one_le, fun k info hk => ?_⟩
  rw [Server.data, hsame] at hk
  rw [hsame]
  exact h.data k info hk

theorem Server.Dated.exec {s : Server} (h : s.Dated) (op : KvOp) : (op.exec s).Dated where
  one_le := by
    have hR := exec_revision s op
    have hone := h.one_le
    omega
  data k := exec_dated h.one_le (h.data k) op

theorem Server.Dated.run {s : Server} (h : s.Dated) (ops : List KvOp) :
    (Run.final KvOp.exec s ops).Dated :=
  Run.invariant KvOp.exec (fun _ op h => h.exec op) h ops

/-! ### Runs of the store -/

/-- A server whose store is new: empty, at revision 1, and wired as may be. -/
def Server.withNewStore (s : Server) (l : Layout Bytes KeyInfo)
    (leaseManager putCallback deleteCallback : Bool) : Server :=
  { s with
    kvStore := { KVStore.new l with
      leaseManager := leaseManager, putCallback := putCallback, deleteCallback := deleteCallback } }

/-- The data after a run is what its writes make of the data before. -/
theorem data_run (s : Server) (ops : List KvOp) : (Run.final KvOp.exec s ops).data =
    (Run.log KvOp.exec KvOp.writes s ops).foldl Write.onData s.data := by
  induction ops generalizing s with
  | nil => rfl
  | cons op ops ih =>
    rw [Run.final_cons, ih, data_exec, Run.log, List.foldl_append]

/-- **History refinement.** After any run of `Put`, `Delete` and `Txn` from an empty store,
however wired: a key is in the store exactly when some put of it came after the last
deletion covering it; and its entry is the one its live puts describe, with the dates in
order. -/
theorem history_refinement (s : Server) (l : Layout Bytes KeyInfo) (b₁ b₂ b₃ : Bool)
    (ops : List KvOp) (k : Bytes) :
    let start := s.withNewStore l b₁ b₂ b₃
    let t := Run.final KvOp.exec start ops
    let h := Run.log KvOp.exec KvOp.writes start ops
    ((t.kvStore.data.find? k).isSome ↔
      ∃ pre value lease revision post,
        h = pre ++ .put k value lease revision :: post ∧ ∀ w ∈ post, w.deletes k = false) ∧
    ∀ info, t.kvStore.data.find? k = some info →
      ∃ first last, (livePuts k h).head? = some first ∧ (livePuts k h).getLast? = some last ∧
        info.kv = { key := k, value := last.value, lease := last.lease,
                    createRevision := first.revision, modRevision := last.revision,
                    version := (livePuts k h).length } ∧
        info.createRevision = info.kv.createRevision ∧
        info.modRevision = info.kv.modRevision ∧ info.version = info.kv.version ∧
        1 < info.createRevision ∧ info.createRevision ≤ info.modRevision ∧
        info.modRevision ≤ t.kvStore.revision := by
  intro start t h
  have hfind : t.kvStore.data.find? k = entryOf k (livePuts k h) := by
    rw [← data_history]
    exact congrFun (data_run start ops) k
  have hstart : start.Dated := by
    refine ⟨Int.le_refl 1, ?_⟩
    intro k info hk
    cases hk
  have hdated : t.Dated := hstart.run ops
  refine ⟨?_, ?_⟩
  · rw [← livePuts_ne_nil_iff, hfind, Option.isSome_iff_ne_none, Ne, entryOf_eq_none_iff]
  · intro info hinfo
    have hd := hdated.data k info hinfo
    rw [hfind, entryOf] at hinfo
    split at hinfo
    · rename_i first last hfirst hlast
      cases hinfo
      exact ⟨first, last, hfirst, hlast, rfl, rfl, rfl, rfl, hd.one_lt_create, hd.create_le_mod,
        hd.mod_le⟩
    · cases hinfo

end EtcdLite
