import EtcdLite.Threads.Sections

/-!
# The lease index under locks

`Put`, `Delete` and `Txn` change the key sets of leases one key at a time, each under the lock of
the lease manager, and other threads grant, keep alive, revoke and read leases in between. So a
key that moves from one lease to another is in neither for a while. Still, whenever the lock of the
store is free, the keys of a lease are exactly those bound to it (`lease_index_locked`), as long as
no put names a lease that is still to be granted. What carries the proof is that the lock of the
store is held meanwhile, and that other threads change key sets only by granting and erasing
leases.
-/

namespace EtcdLite.Threads

open Server WatchManager Locks

/-! ### Key sets -/

/-- The lease that each stored key is bound to. -/
def leasesOf (x : KVStore) : Bytes → Option Int := fun k => (x.data.find? k).map fun info => info.kv.lease

/-- The key set of each lease is what `f` says. No lease is still to be granted, none that `f`
speaks of either. -/
structure Tied (f : Bytes → Option Int) (s : Server) : Prop where
  keys : ∀ L S, s.leaseManager.keySet L = some S → ∀ k, k ∈ S ↔ f k = some L
  next_pos : 0 < s.leaseManager.nextLeaseId
  live_pos : ∀ L, s.leaseManager.Live L → 0 < L
  named : ∀ k L, f k = some L → L < s.leaseManager.nextLeaseId

/-- What threads do that do not hold the lock of the store. -/
structure Elsewhere (s t : Server) : Prop where
  kvStore : t.kvStore = s.kvStore
  next_le : s.leaseManager.nextLeaseId ≤ t.leaseManager.nextLeaseId
  keySet : ∀ L, t.leaseManager.keySet L = none ∨ t.leaseManager.keySet L = s.leaseManager.keySet L ∨
    t.leaseManager.keySet L = some ∅ ∧ s.leaseManager.nextLeaseId ≤ L

theorem Elsewhere.of_same {s t : Server} (hstore : t.kvStore = s.kvStore)
    (hlease : t.leaseManager = s.leaseManager) : Elsewhere s t where
  kvStore := hstore
  next_le := by rw [hlease]
  keySet := fun L => .inr (.inl (by rw [hlease]))

variable {f : Bytes → Option Int} {s t : Server}

theorem Tied.elsewhere (h : Tied f s) (he : Elsewhere s t) : Tied f t where
  keys := by
    intro L S hS k
    rcases he.keySet L with hnone | hsame | ⟨hempty, hle⟩
    · rw [hnone] at hS
      cases hS
    · exact h.keys L S (hsame.symm.trans hS) k
    · rw [hempty] at hS
      cases hS
      refine iff_of_false (Set.notMem_empty k) fun hk => ?_
      have hlt := h.named k L hk
      omega
  next_pos := by
    have hle := he.next_le
    have hpos := h.next_pos
    omega
  live_pos := by
    intro L hL
    rcases he.keySet L with hnone | hsame | ⟨-, hle⟩
    · rw [LeaseManager.Live, hnone] at hL
      cases hL
    · exact h.live_pos L (by rwa [LeaseManager.Live, hsame] at hL)
    · have hpos := h.next_pos
      omega
  named := by
    intro k L hk
    have hlt := h.named k L hk
    have hle := he.next_le
    omega

/-- A key that is in no key set, as its lease is none of those there are, is said to be bound
elsewhere. -/
theorem Tied.rebind (h : Tied f s) {k : Bytes} {o : Option Int} (hk : ∀ L, 0 < L → f k ≠ some L)
    (ho : ∀ L, o = some L → L ≤ 0) : Tied (Function.update f k o) s where
  keys := by
    intro L S hS k'
    have hpos : 0 < L := h.live_pos L (by rw [LeaseManager.Live, hS]; rfl)
    rw [h.keys L S hS k', Function.update_apply]
    split_ifs with hkk
    · subst hkk
      refine iff_of_false (hk L hpos) fun hL => ?_
      have hle := ho L hL
      omega
    · rfl
  next_pos := h.next_pos
  live_pos := h.live_pos
  named := by
    intro k' L hL
    rw [Function.update_apply] at hL
    split_ifs at hL with hkk
    · have hle := ho L hL
      have hpos := h.next_pos
      omega
    · exact h.named k' L hL

theorem live_modified {lm lm' : LeaseManager} {L L' : Int} {g : Set Bytes → Set Bytes}
    (h : lm'.keySet L' = (lm.keySet L').map fun S => if L' = L then g S else S) :
    lm'.Live L' ↔ lm.Live L' := by
  rw [LeaseManager.Live, LeaseManager.Live, h, Option.isSome_map]

/-- `DetachKey`, from the lease that the key is bound to. -/
theorem Tied.detach (h : Tied f s) {k : Bytes} {L : Int} (hk : f k = some L) :
    Tied (Function.update f k none)
      { s with leaseManager := (s.leaseManager.detachKey L k).2 } where
  keys := by
    intro L' S' hS' k'
    dsimp only at hS'
    rw [LeaseManager.keySet_detachKey, Option.map_eq_some_iff] at hS'
    obtain ⟨S, hS, rfl⟩ := hS'
    have hkeys := h.keys L' S hS k'
    rw [Function.update_apply]
    by_cases hkk : k' = k
    · subst hkk
      by_cases hL : L' = L
      · simp [hL]
      · rw [if_neg hL, if_pos rfl, hkeys, hk, Option.some.injEq]
        exact iff_of_false (Ne.symm hL) nofun
    · rw [if_neg hkk, ← hkeys]
      by_cases hL : L' = L
      · simp [hL, hkk]
      · rw [if_neg hL]
  next_pos := by
    rw [(s.leaseManager.sameButKeys_detachKey L k).nextLeaseId]
    exact h.next_pos
  live_pos := fun L' hL' =>
    h.live_pos L' ((live_modified (s.leaseManager.keySet_detachKey L L' k)).mp hL')
  named := by
    intro k' L' hL'
    dsimp only
    rw [(s.leaseManager.sameButKeys_detachKey L k).nextLeaseId]
    rw [Function.update_apply] at hL'
    split_ifs at hL'
    exact h.named k' L' hL'

/-- `AttachKey`, to a lease that is not still to be granted, of a key that is in no key set. -/
theorem Tied.attach (h : Tied f s) {k : Bytes} {L : Int} (hk : ∀ L, 0 < L → f k ≠ some L)
    (hL : L < s.leaseManager.nextLeaseId) :
    Tied (Function.update f k (some L))
      { s with leaseManager := (s.leaseManager.attachKey L k).2 } where
  keys := by
    intro L' S' hS' k'
    dsimp only at hS'
    rw [LeaseManager.keySet_attachKey, Option.map_eq_some_iff] at hS'
    obtain ⟨S, hS, rfl⟩ := hS'
    have hkeys := h.keys L' S hS k'
    have hpos : 0 < L' := h.live_pos L' (by rw [LeaseManager.Live, hS]; rfl)
    rw [Function.update_apply]
    by_cases hkk : k' = k
    · subst hkk
      by_cases hLL : L' = L
      · simp [hLL]
      · rw [if_neg hLL, if_pos rfl, hkeys, Option.some.injEq]
        exact iff_of_false (hk L' hpos) (Ne.symm hLL)
    · rw [if_neg hkk, ← hkeys]
      by_cases hLL : L' = L
      · simp [hLL, hkk]
      · rw [if_neg hLL]
  next_pos := by
    rw [(s.leaseManager.sameButKeys_attachKey L k).nextLeaseId]
    exact h.next_pos
  live_pos := fun L' hL' =>
    h.live_pos L' ((live_modified (s.leaseManager.keySet_attachKey L L' k)).mp hL')
  named := by
    intro k' L' hL'
    dsimp only
    rw [(s.leaseManager.sameButKeys_attachKey L k).nextLeaseId]
    rw [Function.update_apply] at hL'
    split_ifs at hL'
    · rwa [← Option.some.inj hL']
    · exact h.named k' L' hL'

/-! ### The contract of the lock of the store -/

/-- The leases that an action of a put names. -/
def Act.names : Act → Option Int
  | .put _ _ lease => some lease
  | .txnOp _ (.requestPut r) => some r.lease
  | _ => none

/-- The key sets are those of the keys bound to each lease. -/
def KeySetsExact (s : Server) : Prop := s.kvStore.leaseManager = true ∧ Tied (leasesOf s.kvStore) s

/-- The contract: no put names a lease that is still to be granted. -/
def indexContract : Contract Mutex Act Server Empty where
  Inv := fun _ => KeySetsExact
  Open := fun a => a.owner ≠ some .store
  Rely := Elsewhere
  begins := fun _ => []
  May := fun a s => ∀ L ∈ a.names, L < s.leaseManager.nextLeaseId

/-- The store is this, the key sets are what `f` says, and the lease is not still to be granted. -/
def At (x : KVStore) (f : Bytes → Option Int) (L : Int) (s : Server) : Prop :=
  s.kvStore = x ∧ Tied f s ∧ L < s.leaseManager.nextLeaseId

theorem at_stable (x : KVStore) (f : Bytes → Option Int) (L : Int) :
    indexContract.Stable (At x f L) := by
  rintro s t ⟨hx, hf, hL⟩ he
  exact ⟨he.kvStore.trans hx, hf.elsewhere he, hL.trans_le he.next_le⟩

theorem keySetsExact_stable : indexContract.Stable KeySetsExact := by
  rintro s t ⟨hwired, hs⟩ he
  rw [KeySetsExact, he.kvStore]
  exact ⟨hwired, hs.elsewhere he⟩

theorem elsewhere_run {a : Act} (ha : a.owner ≠ some .store) (hlink : a.relinks = false)
    (s : Server) : Elsewhere s (a.run s).1 := by
  by_cases hlease : a.owner = some .lease
  · cases a with
    | grant now ttl =>
      refine ⟨rfl, ?_, fun L => ?_⟩
      · show s.leaseManager.nextLeaseId ≤ s.leaseManager.nextLeaseId + 1
        omega
      · show (s.leaseManager.grant now ttl).2.2.keySet L = none ∨ _
        rw [LeaseManager.keySet_grant]
        split_ifs with hL
        · exact .inr (.inr ⟨LeaseManager.keySet_grant .. |>.trans (if_pos hL), hL.ge⟩)
        · exact .inr (.inl (LeaseManager.keySet_grant .. |>.trans (if_neg hL)))
    | keepAlive now leaseId =>
      show Elsewhere s (s.keepAlive now leaseId)
      cases hkeep : s.leaseManager.keepAlive now leaseId with
      | error rc =>
        rw [Server.keepAlive, hkeep]
        exact .of_same rfl rfl
      | ok r =>
        obtain ⟨ttl, lm⟩ := r
        rw [keepAlive_ok hkeep]
        exact ⟨rfl, (LeaseManager.keepAlive_frame hkeep).1.ge,
          fun L => .inr (.inl (LeaseManager.keySet_keepAlive hkeep L))⟩
    | attachKey leaseId key => cases hlink
    | detachKey leaseId key => cases hlink
    | getLeaseKeys leaseId => exact .of_same rfl rfl
    | expiredLeases now => exact .of_same rfl rfl
    | read r => exact .of_same rfl rfl
    | eraseLease leaseId =>
      refine ⟨rfl, le_rfl, fun L => ?_⟩
      show (s.leaseManager.erase leaseId).keySet L = none ∨
        (s.leaseManager.erase leaseId).keySet L = s.leaseManager.keySet L ∨ _
      rw [LeaseManager.keySet_erase]
      split_ifs
      · exact .inl rfl
      · exact .inr (.inl rfl)
    | _ => cases hlease
  · exact .of_same (kvStore_run ha s) (leaseManager_run hlease s)

theorem lenient_index : Lenient indexContract .store where
  mutex := nofun
  other := fun _ ha hlink _ => ⟨ha, fun s _ => elsewhere_run ha hlink s, fun _ _ => trivial⟩
  must := fun _ _ _ => trivial

theorem harmless_index {a : Act} (ha : a.live = true) : Harmless system indexContract a := by
  have howner : a.owner ≠ some .store := owner_ne (owner_of_live ha)
  have hlink : a.relinks = false := by
    cases a with
    | write sid response writer => rfl
    | writing sid response writer => rfl
    | _ => cases ha
  exact ⟨howner, fun s _ => elsewhere_run howner hlink s, fun _ _ => trivial⟩

/-! ### Under the lock -/

section Under

variable {G : Server → Prop} {x : KVStore} {L : Int}

/-- A part of a program under the lock. -/
abbrev Brings (G P P' : Server → Prop) (q : List Instr) : Prop :=
  Part system indexContract .store (some ⟨G, P⟩) (some ⟨G, P'⟩) q

theorem sendable_index {P : Server → Prop} (hP : indexContract.Stable P) (response : WatchResponse)
    (writer : Writer) : Sendable indexContract .store (some ⟨G, P⟩) response writer :=
  lenient_index.sendable (steady_some hP) fun _ _ => harmless_index

/-- An action that no call follows. -/
theorem brings_act {P P' : Server → Prop} (hP' : indexContract.Stable P') {a : Act}
    (ha : ∀ s, P s → P' (a.run s).1) (hq : ∀ s, (a.run s).2 = []) : Brings G P P' [.act a] := by
  refine .inside (fun _ => P') (fun _ => hP') (fun s hs _ => ha s hs) (fun _ _ _ => trivial)
    fun s _ _ => ?_
  rw [show (system.run a s).2 = [] from hq s]
  exact part_nil

theorem brings_locked {P P' : Server → Prop} (hP' : indexContract.Stable P') {a : Act}
    (ha : ∀ s, P s → P' (a.run s).1) (hq : ∀ s, (a.run s).2 = []) :
    Brings G P P' (locked .lease a) :=
  .lock nofun ((brings_act hP' ha hq).append (.unlock nofun part_nil))

theorem brings_detach {k : Bytes} {L' : Int} (hk : f k = some L') :
    Brings G (At x f L) (At x (Function.update f k none) L)
      (locked .lease (.detachKey L' k)) := by
  refine brings_locked (at_stable _ _ _) (fun s hs => ?_) fun s => rfl
  obtain ⟨hx, hf, hL⟩ := hs
  refine ⟨hx, hf.detach hk, ?_⟩
  show L < (s.leaseManager.detachKey L' k).2.nextLeaseId
  rwa [(s.leaseManager.sameButKeys_detachKey L' k).nextLeaseId]

theorem brings_attach {k : Bytes} (hk : ∀ L, 0 < L → f k ≠ some L) :
    Brings G (At x f L) (At x (Function.update f k (some L)) L)
      (locked .lease (.attachKey L k)) := by
  refine brings_locked (at_stable _ _ _) (fun s hs => ?_) fun s => rfl
  obtain ⟨hx, hf, hL⟩ := hs
  refine ⟨hx, hf.attach hk hL, ?_⟩
  show L < (s.leaseManager.attachKey L k).2.nextLeaseId
  rwa [(s.leaseManager.sameButKeys_attachKey L k).nextLeaseId]

theorem brings_rebind {k : Bytes} {o : Option Int} (hk : ∀ L, 0 < L → f k ≠ some L)
    (ho : ∀ L, o = some L → L ≤ 0) :
    Brings G (At x f L) (At x (Function.update f k o) L) [] :=
  part_weaken fun _ ⟨hx, hf, hL⟩ => ⟨hx, hf.rebind hk ho, hL⟩

/-- The key leaves its lease, if it had one, and joins the new one, if it has one. -/
theorem brings_relinkCalls {k : Bytes} {old : Option KeyInfo}
    (hf : f k = old.map fun info => info.kv.lease) :
    Brings G (At x f L) (At x (Function.update f k (some L)) L) (relinkCalls true old k L) := by
  have hfree : (¬ ∃ info, old = some info ∧ info.kv.lease > 0) → ∀ L, 0 < L → f k ≠ some L := by
    intro hno L' hpos hL'
    rw [hf, Option.map_eq_some_iff] at hL'
    obtain ⟨info, hold, hlease⟩ := hL'
    exact hno ⟨info, hold, by omega⟩
  have hgone : ∀ L, 0 < L → Function.update f k none k ≠ some L := fun L' _ => by simp
  rw [relinkCalls]
  cases old with
  | none =>
    have hk := hfree (by simp)
    simp only [Option.isSome_none, Bool.false_eq_true, false_and, if_false, and_true,
      List.nil_append]
    split_ifs with hpos
    · exact brings_attach hk
    · exact brings_rebind hk fun L' hL' => by cases hL'; omega
  | some info =>
    simp only [Option.isSome_some, Option.map_some, Option.getD_some, true_and, and_true]
    rw [Option.map_some] at hf
    by_cases hold : info.kv.lease > 0
    · simp only [hold, if_true]
      split_ifs with hpos
      · have hattach := (brings_detach (G := G) (x := x) (L := L) hf).append
          (brings_attach hgone)
        rwa [Function.update_idem] at hattach
      · have hrebind := (brings_detach (G := G) (x := x) (L := L) hf).append
          (brings_rebind (o := some L) hgone fun L' hL' => by cases hL'; omega)
        rwa [Function.update_idem, List.append_nil] at hrebind
    · have hk := hfree (by simpa using hold)
      simp only [hold, if_false, List.nil_append]
      split_ifs with hpos
      · exact brings_attach hk
      · exact brings_rebind hk fun L' hL' => by cases hL'; omega

/-- `data_[key] = info`, after the leases have been told. -/
theorem brings_insert {k : Bytes} (info : KeyInfo) (hx : x.leaseManager = true) :
    Brings G (At x (Function.update (leasesOf x) k (some info.kv.lease)) L) KeySetsExact
      [.act (.insert k info)] := by
  refine brings_act keySetsExact_stable (fun s hs => ?_) fun s => rfl
  obtain ⟨rfl, hf, -⟩ := hs
  refine ⟨hx, ?_⟩
  have hleases : leasesOf ((Act.insert k info).run s).1.kvStore =
      Function.update (leasesOf s.kvStore) k (some info.kv.lease) := by
    funext k'
    show ((s.kvStore.data.insert k info).find? k').map _ = _
    rw [UnorderedMap.find?_insert, Function.update_apply]
    split_ifs <;> rfl
  rw [hleases]
  exact ⟨hf.keys, hf.next_pos, hf.live_pos, hf.named⟩

/-- `data_.erase(key)`, after the lease has been told. -/
theorem brings_erase (x : KVStore) (k : Bytes) :
    Brings G (At x (Function.update (leasesOf x) k none) L)
      (At { x with data := x.data.erase k } (leasesOf { x with data := x.data.erase k }) L)
      [.act (.erase k)] := by
  refine brings_act (at_stable _ _ _) (fun s hs => ?_) fun s => rfl
  obtain ⟨rfl, hf, hL⟩ := hs
  have hleases : leasesOf { s.kvStore with data := s.kvStore.data.erase k } =
      Function.update (leasesOf s.kvStore) k none := by
    funext k'
    show ((s.kvStore.data.erase k).find? k').map _ = _
    rw [UnorderedMap.find?_erase, Function.update_apply]
    split_ifs <;> rfl
  rw [hleases]
  exact ⟨rfl, ⟨hf.keys, hf.next_pos, hf.live_pos, hf.named⟩, hL⟩

/-- The loop that detaches and erases the collected keys. -/
theorem brings_detachAndEraseCalls {pairs : List (Bytes × Int)} {x : KVStore}
    (hx : x.leaseManager = true) (hpairs : ∀ e ∈ pairs, leasesOf x e.1 = some e.2)
    (hnodup : (pairs.map Prod.fst).Nodup) :
    Brings G (At x (leasesOf x) 0) KeySetsExact (detachAndEraseCalls true pairs) := by
  unfold detachAndEraseCalls
  induction pairs generalizing x with
  | nil =>
    refine part_weaken ?_
    rintro s ⟨rfl, hf, -⟩
    exact ⟨hx, hf⟩
  | cons e pairs ih =>
    obtain ⟨k, lease⟩ := e
    obtain ⟨hnew, hnodup⟩ := List.nodup_cons.mp hnodup
    have hk : leasesOf x k = some lease := hpairs (k, lease) List.mem_cons_self
    rw [List.flatMap_cons]
    have hdetach : Brings G (At x (leasesOf x) 0) (At x (Function.update (leasesOf x) k none) 0)
        (if lease > 0 ∧ true = true then locked .lease (.detachKey lease k) else []) := by
      split_ifs with hpos
      · exact brings_detach hk
      · refine brings_rebind (fun L hL hkL => ?_) nofun
        have hlease : lease = L := Option.some.inj (hk.symm.trans hkL)
        exact hpos ⟨hlease ▸ hL, rfl⟩
    refine (hdetach.append (brings_erase x k)).append (ih hx (fun e he => ?_) hnodup)
    -- The other keys are bound as before.
    have hne : e.1 ≠ k := by
      rintro rfl
      exact hnew (List.mem_map.mpr ⟨e, he, rfl⟩)
    rw [← hpairs e (List.mem_cons_of_mem _ he)]
    show ((x.data.erase k).find? e.1).map _ = _
    rw [UnorderedMap.find?_erase, if_neg hne]
    rfl

/-- What a deletion collects: keys with their leases, each once. -/
theorem matched_pairs (s : Server) (key rangeEnd : Bytes) :
    (∀ e ∈ (s.matched key rangeEnd).map fun e => (e.1, e.2.kv.lease),
      leasesOf s.kvStore e.1 = some e.2) ∧
      (((s.matched key rangeEnd).map fun e => (e.1, e.2.kv.lease)).map Prod.fst).Nodup := by
  constructor
  · intro e he
    obtain ⟨⟨k, info⟩, hmem, rfl⟩ := List.mem_map.mp he
    exact congrArg (Option.map _) (mem_matched.mp hmem).1
  · rw [List.map_map]
    have hsub : (s.matched key rangeEnd).Sublist s.kvStore.data.toList := List.filter_sublist
    exact (hsub.map Prod.fst).nodup s.kvStore.data.nodup_keys

theorem brings_put (key value : Bytes) (lease : Int) :
    Brings G KeySetsExact KeySetsExact [.act (.put key value lease)] := by
  refine .inside (fun s => At { s.kvStore with revision := s.kvStore.revision + 1 }
    (leasesOf s.kvStore) lease) (fun _ => at_stable _ _ _) (fun s hs hmay => ?_)
    (fun _ _ _ => trivial) fun s hs _ => ?_
  · have htied : Tied (leasesOf s.kvStore) s := hs.2
    exact ⟨rfl, ⟨htied.keys, htied.next_pos, htied.live_pos, htied.named⟩, hmay lease rfl⟩
  · change Brings G _ KeySetsExact (relinkCalls s.kvStore.leaseManager _ key lease ++ _ :: _)
    rw [hs.1]
    refine (brings_relinkCalls (k := key) rfl).append ?_
    refine Part.append (q := [_]) ?_
      (lenient_index.part_putCallbackCall (steady_some keySetsExact_stable) nofun _ _
        fun _ _ _ => sendable_index keySetsExact_stable _ _)
    exact brings_insert (putInfo _ _ _ _ _) hs.1

theorem brings_delete (key rangeEnd : Bytes) (prevKvs : Bool) :
    Brings G KeySetsExact KeySetsExact [.act (.delete key rangeEnd prevKvs)] := by
  refine .inside (fun s => At { s.kvStore with revision := s.kvStore.revision + 1 }
    (leasesOf s.kvStore) 0) (fun _ => at_stable _ _ _) (fun s hs _ => ?_) (fun _ _ _ => trivial)
    fun s hs _ => ?_
  · have htied : Tied (leasesOf s.kvStore) s := hs.2
    rw [show (system.run (.delete key rangeEnd prevKvs) s).1 = _ from
      congrArg Prod.fst (delete_run s key rangeEnd prevKvs)]
    exact ⟨rfl, ⟨htied.keys, htied.next_pos, htied.live_pos, htied.named⟩, htied.next_pos⟩
  · rw [show (system.run (.delete key rangeEnd prevKvs) s).2 = _ from
      congrArg Prod.snd (delete_run s key rangeEnd prevKvs), hs.1]
    obtain ⟨hpairs, hnodup⟩ := matched_pairs s key rangeEnd
    exact Part.append (brings_detachAndEraseCalls hs.1 hpairs hnodup)
      (lenient_index.part_deleteCallbackCalls (steady_some keySetsExact_stable) nofun _
        fun _ _ _ _ _ => sendable_index keySetsExact_stable _ _)

theorem brings_txnOp (revision : Int) (op : RequestOp) :
    Brings G KeySetsExact KeySetsExact [.act (.txnOp revision op)] := by
  cases op with
  | requestPut r =>
    refine .inside (fun s => At s.kvStore (leasesOf s.kvStore) r.lease) (fun _ => at_stable _ _ _)
      (fun s hs hmay => ⟨rfl, hs.2, hmay r.lease rfl⟩) (fun _ _ _ => trivial) fun s hs _ => ?_
    change Brings G _ KeySetsExact (relinkCalls s.kvStore.leaseManager _ r.key r.lease ++ _)
    rw [hs.1]
    exact (brings_relinkCalls (k := r.key) rfl).append
      (brings_insert (putInfo _ _ _ _ _) hs.1)
  | requestDeleteRange r =>
    refine .inside (fun s => At s.kvStore (leasesOf s.kvStore) 0) (fun _ => at_stable _ _ _)
      (fun s hs _ => ⟨rfl, hs.2, hs.2.next_pos⟩) (fun _ _ _ => trivial) fun s hs _ => ?_
    change Brings G _ KeySetsExact (detachAndEraseCalls s.kvStore.leaseManager _)
    rw [hs.1]
    obtain ⟨hpairs, hnodup⟩ := matched_pairs s r.key r.rangeEnd
    exact brings_detachAndEraseCalls hs.1 hpairs hnodup
  | requestRange r =>
    exact .inside (fun _ => KeySetsExact) (fun _ => keySetsExact_stable) (fun s hs _ => hs)
      (fun _ _ _ => trivial) fun s hs _ => brings_act keySetsExact_stable (fun _ hs => hs) fun _ => rfl
  | requestTxn compares success failure =>
    exact brings_act keySetsExact_stable (fun _ hs => hs) fun _ => rfl
  | notSet => exact brings_act keySetsExact_stable (fun _ hs => hs) fun _ => rfl

theorem brings_txn (compares : List Compare) (success failure : List RequestOp) :
    Brings G KeySetsExact KeySetsExact [.act (.txn compares success failure)] := by
  refine .inside (fun _ => KeySetsExact) (fun _ => keySetsExact_stable) (fun s hs _ => ?_)
    (fun _ _ _ => trivial) fun s hs _ => ?_
  · exact ⟨hs.1, hs.2.keys, hs.2.next_pos, hs.2.live_pos, hs.2.named⟩
  · change Brings G KeySetsExact KeySetsExact
      ((s.chosenOps compares success failure).map fun op => .act (.txnOp _ op))
    induction s.chosenOps compares success failure with
    | nil => exact part_nil
    | cons op ops ih => exact Part.append (q := [_]) (brings_txnOp _ op) ih

end Under

/-! ### Every run -/

/-- A section under the lock of the store. -/
theorem index_locked {a : Act} (ha : ∀ G, Brings G KeySetsExact KeySetsExact [.act a]) :
    Whole indexContract .store (locked .store a) :=
  part_section (q := [.act a]) fun _ _ => ha _

theorem enforced_index : Enforced indexContract .store where
  toLenient := lenient_index
  stable := fun _ => keySetsExact_stable
  peek := fun _ _ _ => rfl
  own := by
    intro a howner ha
    cases a with
    | put key value lease => exact index_locked fun _ => brings_put key value lease
    | delete key rangeEnd prevKvs => exact index_locked fun _ => brings_delete key rangeEnd prevKvs
    | txn compares success failure =>
      exact index_locked fun _ => brings_txn compares success failure
    | insert key info => cases ha
    | erase key => cases ha
    | txnOp revision op => cases ha
    | readHistory w => cases ha
    | read r => cases ha
    | _ => cases howner
  relink := fun hm => absurd rfl hm
  live := fun _ _ => harmless_index

/-- The step calls an operation of the server, and not the lease manager to attach or detach a key;
and no put that it starts names a lease that is still to be granted. -/
def NamesGranted {T : Type} (y : Locks.State T Mutex Act Server) : Locks.Event T Op → Prop
  | .call _ op => op.relinks = false
  | .resume t =>
    match y.prog t with
    | .act a :: _ => ∀ L ∈ a.names, L < y.data.leaseManager.nextLeaseId
    | _ => True

theorem keySetsExact_new (env : Env) : KeySetsExact (.new env) := by
  refine ⟨rfl, ⟨?_, Int.one_pos, ?_, ?_⟩⟩
  · intro L S hS
    cases hS
  · intro L hL
    cases hL
  · intro k L hL
    cases hL

theorem keySetsExact_run {T : Type} [DecidableEq T] (env : Env) {evs : List (Locks.Event T Op)}
    (hevs : Run.Along (Locks.step system) NamesGranted (start T env) evs)
    (hfree : (Locks.run system (start T env) evs).holder .store = none) :
    KeySetsExact (Locks.run system (start T env) evs).data := by
  have hpermitted : Run.Along (Locks.step system)
      (Permitted indexContract fun op => op.relinks = false) (start T env) evs := by
    refine Run.along_imp _ (fun y e he => ?_) hevs
    cases e with
    | call t op => exact he
    | resume t =>
      intro a p hp
      rwa [NamesGranted, hp] at he
  have hsettled := settled_run (fun _ => keySetsExact_stable)
    (fun op hop => enforced_index.keeps_program op (fun hlink => by simp [hop] at hlink)
      fun _ _ => harmless_index)
    (keySetsExact_new env) hpermitted
  exact hsettled.free hfree

/-- **The lease index is exact whenever the lock of the store is free.** In any interleaving of any
operations of any number of threads, where no client calls `AttachKey` or `DetachKey` itself and no
put names a lease that is still to be granted: the keys of a lease are those bound to it. -/
theorem lease_index_locked {T : Type} [DecidableEq T] (env : Env) (evs : List (Locks.Event T Op))
    (hevs : Run.Along (Locks.step system) NamesGranted (start T env) evs) :
    let s := (Locks.run system (start T env) evs).data
    (Locks.run system (start T env) evs).holder .store = none →
      ∀ L lease, s.leaseManager.leases.find? L = some lease → ∀ k,
        k ∈ lease.keys ↔ ∃ info, s.kvStore.data.find? k = some info ∧ info.kv.lease = L := by
  intro s hfree L lease hL k
  have hkeys := (keySetsExact_run env hevs hfree).2.keys L _ (LeaseManager.keySet_of_find? hL) k
  simpa [leasesOf] using hkeys

/-- A lease is granted, and a key is put under it. -/
theorem lease_index_locked_put :
    let s := (Locks.run system (start ℕ .plain)
      ([.call 0 (.grant 0 60), .resume 0, .resume 0, .resume 0, .call 1 (.put [107] [118] 1)] ++
        List.replicate 11 (.resume 1))).data
    ∀ L lease, s.leaseManager.leases.find? L = some lease → ∀ k,
      k ∈ lease.keys ↔ ∃ info, s.kvStore.data.find? k = some info ∧ info.kv.lease = L := by
  refine lease_index_locked .plain _ ⟨rfl, trivial, nofun, trivial, rfl, trivial, ?_, trivial, nofun,
    trivial, nofun, nofun, trivial, nofun, trivial, trivial, trivial⟩ rfl
  intro L hL
  obtain rfl : 1 = L := Option.some.inj hL
  show (1 : Int) < 2
  decide

end EtcdLite.Threads
