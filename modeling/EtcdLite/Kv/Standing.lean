import EtcdLite.Kv.History
import EtcdLite.Kv.RangeQuery

/-!
# What a transaction hands out of a key it puts

The operations of a transaction share one revision, and a transaction may put a key more than
once. Between two puts it can hand out the key: in the answer of a range query, as the previous
key-value of the second put, or among those a deletion removes. What is handed out then has the
transaction's revision, and so has what the transaction leaves.

How a key stands at some point of a transaction, when the transaction has put it, is a matter of
the puts since it was last deleted: how many they are, what the last of them says, and whether
the key was absent before the first (`Standing`). Its entry is made of that
(`data_standing`), and two standings make the same entry only when they are the same
(`Standing.kv_inj`). So the entries that a transaction hands out and leaves, at its own
revision, are those of the standings at which it shows the key (`Shown`, `txnOps_shows`,
`shown_txnOps`).
-/

namespace EtcdLite

open Server

/-! ### How a key stands -/

/-- How a key that a transaction has put stands. -/
structure Standing where
  /-- The key was absent before the puts. -/
  created : Bool
  /-- How many puts there are since. -/
  puts : ℕ
  /-- The value of the last put. -/
  value : Bytes
  /-- The lease of the last put. -/
  lease : Int
  deriving DecidableEq, Repr

/-- How a key stands after the writes, if it is there and they have put it. -/
def standing (d : Data) (k : Bytes) (ws : List Write) : Option Standing :=
  (livePuts k ws).getLast?.map fun p =>
    { created := (d k).isNone || ws.any (Write.deletes k), puts := (livePuts k ws).length,
      value := p.value, lease := p.lease }

/-- The key-value of a key that stands so, at the revision of the writes. -/
def Standing.kv (d : Data) (k : Bytes) (R : Int) (a : Standing) : KeyValue :=
  { key := k, value := a.value, lease := a.lease,
    createRevision := if a.created then R else ((d k).map KeyInfo.createRevision).getD R,
    modRevision := R,
    version := (if a.created then 0 else ((d k).map KeyInfo.version).getD 0) + a.puts }

/-- The entry. -/
def Standing.info (d : Data) (k : Bytes) (R : Int) (a : Standing) : KeyInfo :=
  { kv := a.kv d k R, createRevision := (a.kv d k R).createRevision, modRevision := R,
    version := (a.kv d k R).version }

section Standing

variable {d : Data} {k : Bytes}

theorem standing_created {ws : List Write} {a : Standing} (h : standing d k ws = some a) :
    a.created = ((d k).isNone || ws.any (Write.deletes k)) := by
  obtain ⟨p, -, rfl⟩ := Option.map_eq_some_iff.mp h
  rfl

/-- A deletion ends a standing. -/
theorem standing_delete {ws : List Write} {w : Write} (hw : w.deletes k = true) :
    standing d k (ws ++ [w]) = none := by
  rw [standing, livePuts_concat, if_pos hw]
  rfl

/-- A put is one more. -/
theorem standing_put (ws : List Write) (value : Bytes) (lease revision : Int) :
    standing d k (ws ++ [.put k value lease revision]) =
      some { created := (d k).isNone || ws.any (Write.deletes k),
             puts := ((standing d k ws).map Standing.puts).getD 0 + 1,
             value := value, lease := lease } := by
  have hputs : ((standing d k ws).map Standing.puts).getD 0 = (livePuts k ws).length := by
    unfold standing
    cases hlast : (livePuts k ws).getLast? with
    | none => rw [List.getLast?_eq_none_iff.mp hlast]; rfl
    | some p => rfl
  rw [hputs, standing, livePuts_concat]
  simp [Write.deletes, Write.putOf]

/-- Another write changes nothing. -/
theorem standing_other {ws : List Write} {w : Write} (hw : w.deletes k = false)
    (hput : w.putOf k = none) : standing d k (ws ++ [w]) = standing d k ws := by
  simp [standing, livePuts_concat, hw, hput]

/-- **The entry of a key is made of its standing**, when the writes have put it; otherwise they
have deleted it, or left it alone. -/
theorem data_standing {R : Int} {ws : List Write} (hws : ∀ w ∈ ws, w.At R) :
    ws.foldl Write.onData d k = match standing d k ws with
      | some a => some (a.info d k R)
      | none => if ws.any (Write.deletes k) then none else d k := by
  induction ws using List.reverseRecOn with
  | nil => rfl
  | append_singleton ws w ih =>
    have hat : w.At R := hws w (by simp)
    replace ih := ih fun w' hw' => hws w' (by simp [hw'])
    rw [List.foldl_append, List.foldl_cons, List.foldl_nil]
    cases hdel : w.deletes k with
    | true =>
      rw [standing_delete hdel, Write.onData_of_deletes hdel]
      simp [hdel]
    | false =>
      cases hput : w.putOf k with
      | none =>
        rw [standing_other hdel hput, Write.onData_of_other hdel hput, ih]
        simp [hdel]
      | some p =>
        obtain rfl := Write.putOf_eq_some hput
        obtain rfl : p.revision = R := hat
        rw [standing_put, Write.onData_of_putOf hput, ih]
        cases hs : standing d k ws with
        | some a =>
          have hcreated := standing_created hs
          simp [putInfo, Standing.info, Standing.kv, hcreated, Int.add_assoc]
        | none =>
          cases hany : ws.any (Write.deletes k) with
          | true => simp [putInfo, Standing.info, Standing.kv]
          | false =>
            cases hd : d k with
            | none => simp [putInfo, Standing.info, Standing.kv]
            | some info => simp [putInfo, Standing.info, Standing.kv, hd]

/-- **Two standings make the same key-value only when they are the same.** -/
theorem Standing.kv_inj {R R' : Int} (hR : R' < R) (hd : ∀ info, d k = some info → info.Dated R' k)
    {a b : Standing} (ha : a.created = false → (d k).isSome)
    (hb : b.created = false → (d k).isSome) (h : a.kv d k R = b.kv d k R) : a = b := by
  have hcreate := congrArg KeyValue.createRevision h
  have hversion := congrArg KeyValue.version h
  have hvalue := congrArg KeyValue.value h
  have hlease := congrArg KeyValue.lease h
  simp only [Standing.kv] at hcreate hversion hvalue hlease
  obtain ⟨ac, ap, av, al⟩ := a
  obtain ⟨bc, bp, bv, bl⟩ := b
  -- What was there before was created at `R'` at the latest, so not at `R`.
  have hne : (d k).isSome → ((d k).map KeyInfo.createRevision).getD R ≠ R := by
    intro hsome
    obtain ⟨info, hinfo⟩ := Option.isSome_iff_exists.mp hsome
    have hle := (hd info hinfo).create_le_mod
    have hmod := (hd info hinfo).mod_le
    rw [hinfo, Option.map_some, Option.getD_some]
    omega
  have hcreated : ac = bc := by
    cases ac with
    | true =>
      cases bc with
      | true => rfl
      | false => exact absurd hcreate.symm (hne (hb rfl))
    | false =>
      cases bc with
      | false => rfl
      | true => exact absurd hcreate (hne (ha rfl))
  subst hcreated
  dsimp only at hversion hvalue hlease
  obtain rfl : ap = bp := by omega
  rw [hvalue, hlease]

end Standing

/-! ### What an operation hands out -/

/-- The key-values that the response to an operation carries in full. -/
def RequestOp.fullKvs : RequestOp → ResponseOp → List KeyValue
  | .requestRange r, .responseRange resp => if r.keysOnly || r.countOnly then [] else resp.kvs
  | .requestPut _, .responsePut resp => resp.prevKv.toList.filter fun kv => kv ≠ {}
  | .requestDeleteRange _, .responseDeleteRange resp => resp.prevKvs
  | _, _ => []

/-- The operation reads the key in full, if the data has it. -/
def RequestOp.Reads (d : Data) (k : Bytes) : RequestOp → Prop
  | .requestRange r =>
    r.keysOnly = false ∧ r.countOnly = false ∧ keyInRange k r.key r.rangeEnd = true ∧
      (0 < r.limit → ((keysBelow d r.key r.rangeEnd k).ncard : Int) < r.limit)
  | .requestPut r => r.prevKv = true ∧ r.key = k
  | .requestDeleteRange r => r.prevKv = true ∧ keyInRange k r.key r.rangeEnd = true
  | .requestTxn _ _ _ | .notSet => False

theorem Server.Dated.keyed {s : Server} (h : s.Dated) : s.kvStore.Keyed :=
  fun k info hk => (h.data k info hk).key

/-- An entry that is stored is not empty. -/
theorem KeyInfo.Dated.kv_ne {R : Int} {k : Bytes} {info : KeyInfo} (h : info.Dated R k) :
    info.kv ≠ {} := by
  intro hkv
  have hone := h.one_le_version
  rw [h.version, hkv] at hone
  exact absurd hone (by decide)

/-- **An operation hands out the entries it reads.** -/
theorem mem_fullKvs {s : Server} (h : s.Dated) (R : Int) (op : RequestOp) {kv : KeyValue} :
    kv ∈ op.fullKvs (s.txnOp R op).1 ↔
      ∃ k info, s.data k = some info ∧ op.Reads s.data k ∧ info.kv = kv := by
  cases op with
  | requestRange r =>
    simp only [RequestOp.fullKvs, txnOp, txnRange, RequestOp.Reads, Bool.or_eq_true]
    cases hk : r.keysOnly with
    | true => simp
    | false =>
      cases hc : r.countOnly with
      | true => simp
      | false =>
        simp only [Bool.false_eq_true, or_self, if_false,
          KVStore.mem_rangeInternal r.key r.rangeEnd h.keyed, Server.data, true_and, and_assoc]
  | requestPut r =>
    simp only [RequestOp.fullKvs, txnOp, txnPut, RequestOp.Reads]
    constructor
    · intro hmem
      obtain ⟨hmem, hne⟩ := List.mem_filter.mp hmem
      cases hp : r.prevKv with
      | false => simp [hp] at hmem
      | true =>
        cases hf : s.kvStore.data.find? r.key with
        | none => simp [hp, hf] at hmem; simp [hmem] at hne
        | some info =>
          simp only [hp, hf, if_true, Option.map_some, Option.getD_some, Option.toList_some,
            List.mem_singleton] at hmem
          exact ⟨r.key, info, hf, ⟨rfl, rfl⟩, hmem.symm⟩
    · rintro ⟨k, info, hinfo, ⟨hp, rfl⟩, rfl⟩
      have hf : s.kvStore.data.find? r.key = some info := hinfo
      simp [hp, hf, (h.data r.key info hinfo).kv_ne]
  | requestDeleteRange r =>
    simp only [RequestOp.fullKvs, txnOp, txnDeleteRange, RequestOp.Reads]
    cases hp : r.prevKv with
    | false => simp
    | true =>
      simp only [if_true, List.mem_map, List.mem_filter, Prod.exists, UnorderedMap.mem_toList,
        true_and, Server.data, and_assoc]
  | requestTxn c p q => simp [RequestOp.fullKvs, RequestOp.Reads]
  | notSet => simp [RequestOp.fullKvs, RequestOp.Reads]

/-! ### What a transaction hands out -/

/-- The key is read in full when it stands so: by one of the operations, which come after the
writes, or at the end of them, when it is left to be read by others. -/
def Shown (R : Int) (d : Data) (k : Bytes) (a : Standing) : List Write → List RequestOp → Prop
  | ws, [] => standing d k ws = some a
  | ws, op :: ops =>
    (op.Reads (ws.foldl Write.onData d) k ∧ standing d k ws = some a) ∨
      Shown R d k a (ws ++ op.writes R) ops

/-- The key-values that the responses to some operations carry in full. -/
def allFullKvs (ops : List RequestOp) (resps : List ResponseOp) : List KeyValue :=
  (List.zipWith RequestOp.fullKvs ops resps).flatten

/-- A standing at which a key is shown that did not begin with its absence. -/
theorem Shown.isSome {R : Int} {d : Data} {k : Bytes} {a : Standing} {ws : List Write}
    {ops : List RequestOp} (h : Shown R d k a ws ops) (ha : a.created = false) :
    (d k).isSome := by
  have hstanding : ∀ ws, standing d k ws = some a → (d k).isSome := by
    intro ws hs
    rw [standing_created hs, Bool.or_eq_false_iff] at ha
    simpa using ha.1
  induction ops generalizing ws with
  | nil => exact hstanding ws h
  | cons op ops ih =>
    rcases h with ⟨-, hs⟩ | h
    · exact hstanding ws hs
    · exact ih h

section TxnOps

variable {R : Int} {d : Data} {k : Bytes}

/-- The server in the middle of a transaction at revision `R`, which began with the data and has
made these writes. -/
structure MidTxn (R : Int) (d : Data) (ws : List Write) (s : Server) : Prop where
  dated : s.Dated
  revision : s.kvStore.revision = R
  one_lt : 1 < R
  writes_at : ∀ w ∈ ws, w.At R
  data : s.data = ws.foldl Write.onData d

/-- A transaction begins. -/
theorem Server.Dated.midTxn {s : Server} (h : s.Dated) :
    MidTxn (s.kvStore.revision + 1) s.data [] (s.setRevision (s.kvStore.revision + 1)) where
  dated := by
    have hone := h.one_le
    refine ⟨?_, fun k info hk => (h.data k info hk).mono ?_⟩
    · show 1 ≤ s.kvStore.revision + 1
      omega
    · show s.kvStore.revision ≤ s.kvStore.revision + 1
      omega
  revision := rfl
  one_lt := by
    have hone := h.one_le
    omega
  writes_at := by simp
  data := rfl

/-- It executes an operation. -/
theorem MidTxn.step {s : Server} {ws : List Write} (h : MidTxn R d ws s) (op : RequestOp) :
    MidTxn R d (ws ++ op.writes R) (s.txnOp R op).2 where
  dated := by
    refine ⟨(txnOp_revision s R op).symm ▸ h.dated.one_le, fun k => ?_⟩
    rw [txnOp_revision, data_txnOp, h.revision]
    exact dated_writes h.one_lt (op.writes_at R) (h.revision ▸ h.dated.data k)
  revision := (txnOp_revision s R op).trans h.revision
  one_lt := h.one_lt
  writes_at := by
    intro w hw
    rcases List.mem_append.mp hw with hw | hw
    · exact h.writes_at w hw
    · exact op.writes_at R w hw
  data := by rw [data_txnOp, h.data, List.foldl_append]

/-- What is there in the middle of a transaction was there before, or stands. -/
theorem MidTxn.data_cases {s : Server} {ws : List Write} (h : MidTxn R d ws s) {info : KeyInfo}
    (hk : s.data k = some info) :
    d k = some info ∨ ∃ a, standing d k ws = some a ∧ a.info d k R = info := by
  rw [h.data, data_standing h.writes_at] at hk
  split at hk
  case h_1 a ha => exact .inr ⟨a, ha, Option.some.inj hk⟩
  case h_2 _ =>
    split_ifs at hk
    exact .inl hk

/-- What stands is there. -/
theorem MidTxn.data_of_standing {s : Server} {ws : List Write} (h : MidTxn R d ws s)
    {a : Standing} (ha : standing d k ws = some a) : s.data k = some (a.info d k R) := by
  rw [h.data, data_standing h.writes_at, ha]

/-- **What the operations hand out, and leave, at the revision of the transaction is how the keys
stand where they are shown.** What they hand out at an older revision was there before. -/
theorem txnOps_shows {s : Server} {ws : List Write} (hs : MidTxn R d ws s) (ops : List RequestOp)
    {kv : KeyValue} (h : kv ∈ allFullKvs ops (s.txnOps R ops).1 ∨
      ∃ k info, (s.txnOps R ops).2.data k = some info ∧ info.kv = kv) :
    (∃ k info, d k = some info ∧ info.kv = kv) ∨
      ∃ k a, Shown R d k a ws ops ∧ a.kv d k R = kv := by
  induction ops generalizing s ws with
  | nil =>
    rcases h with h | ⟨k, info, hinfo, rfl⟩
    · cases h
    · rcases hs.data_cases hinfo with hd | ⟨a, ha, rfl⟩
      · exact .inl ⟨k, info, hd, rfl⟩
      · exact .inr ⟨k, a, ha, rfl⟩
  | cons op ops ih =>
    have hnow : kv ∈ op.fullKvs (s.txnOp R op).1 →
        (∃ k info, d k = some info ∧ info.kv = kv) ∨
          ∃ k a, Shown R d k a ws (op :: ops) ∧ a.kv d k R = kv := by
      intro hmem
      obtain ⟨k, info, hinfo, hreads, rfl⟩ := (mem_fullKvs hs.dated R op).mp hmem
      rcases hs.data_cases hinfo with hd | ⟨a, ha, rfl⟩
      · exact .inl ⟨k, info, hd, rfl⟩
      · exact .inr ⟨k, a, .inl ⟨hs.data ▸ hreads, ha⟩, rfl⟩
    have hlater : (kv ∈ allFullKvs ops ((s.txnOp R op).2.txnOps R ops).1 ∨
          ∃ k info, ((s.txnOp R op).2.txnOps R ops).2.data k = some info ∧ info.kv = kv) →
        (∃ k info, d k = some info ∧ info.kv = kv) ∨
          ∃ k a, Shown R d k a ws (op :: ops) ∧ a.kv d k R = kv := by
      intro hrest
      rcases ih (hs.step op) hrest with hd | ⟨k, a, ha, rfl⟩
      · exact .inl hd
      · exact .inr ⟨k, a, .inr ha, rfl⟩
    rcases h with h | h
    · rcases List.mem_append.mp (show kv ∈ op.fullKvs _ ++ allFullKvs ops _ from h) with h | h
      · exact hnow h
      · exact hlater (.inl h)
    · exact hlater (.inr h)

/-- **Where a key is shown, its key-value is handed out or left.** -/
theorem shown_txnOps {s : Server} {ws : List Write} (hs : MidTxn R d ws s) {ops : List RequestOp}
    {a : Standing} (h : Shown R d k a ws ops) :
    a.kv d k R ∈ allFullKvs ops (s.txnOps R ops).1 ∨
      (s.txnOps R ops).2.data k = some (a.info d k R) := by
  induction ops generalizing s ws with
  | nil => exact .inr (hs.data_of_standing h)
  | cons op ops ih =>
    rcases h with ⟨hreads, ha⟩ | h
    · refine .inl (List.mem_append_left _ ((mem_fullKvs hs.dated R op).mpr ?_))
      exact ⟨k, a.info d k R, hs.data_of_standing ha, hs.data ▸ hreads, rfl⟩
    · rcases ih (hs.step op) h with h | h
      · exact .inl (List.mem_append_right _ h)
      · exact .inr h

end TxnOps

end EtcdLite
