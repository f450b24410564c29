import EtcdLite.Kv.History
import EtcdLite.Model.KVService

/-!
# What is sent to whom

The operations that send to watchers, each as the list of the responses it sends
(`WatchAct.sends`), and what a watcher is delivered: the events of the responses that carry
its id, on its stream (`delivered`). Every operation delivers to a watcher exactly the events
of its own responses (`delivered_sendAll`), whatever becomes of the writes to other streams.
-/

namespace EtcdLite

open Server

/-! ### Sending -/

/-- The responses are sent, in turn. -/
def sendAll (streams : Streams) (sends : List (Watcher × WatchResponse)) : Streams :=
  sends.foldl (fun streams e => (sendWatchResponse e.1 e.2 streams).2) streams

/-- Every write to the stream succeeds. -/
def Writable (streams : Streams) (sid : StreamId) : Prop :=
  ∀ n, (streams sid).outcomes n = true

/-- The events a watcher has been delivered. -/
def delivered (streams : Streams) (sid : StreamId) (watchId : Int) : List Event :=
  ((streams sid).written.filter fun r => r.watchId = watchId).flatMap WatchResponse.events

/-- Every response that has been written carries an id below `n`. -/
def IdsBelow (streams : Streams) (n : Int) : Prop :=
  ∀ sid, ∀ r ∈ (streams sid).written, r.watchId < n

/-- What a response delivers to a watcher. -/
def deliveredBy (sid : StreamId) (watchId : Int) (e : Watcher × WatchResponse) : List Event :=
  if e.1.stream = some sid ∧ e.2.watchId = watchId then e.2.events else []

section Send

variable {streams : Streams} {sid : StreamId}

theorem send_writable (h : Writable streams sid) (w : Watcher) (r : WatchResponse) :
    Writable (sendWatchResponse w r streams).2 sid := by
  unfold sendWatchResponse
  cases hw : w.stream with
  | none => exact h
  | some sid' =>
    intro n
    by_cases hsid : sid = sid'
    · subst hsid
      simpa [Stream.write] using h (n + 1)
    · simpa [Function.update_of_ne hsid] using h n

theorem send_delivered (h : Writable streams sid) (watchId : Int) (w : Watcher) (r : WatchResponse) :
    delivered (sendWatchResponse w r streams).2 sid watchId =
      delivered streams sid watchId ++ deliveredBy sid watchId (w, r) := by
  unfold sendWatchResponse deliveredBy delivered
  cases hw : w.stream with
  | none => simp
  | some sid' =>
    by_cases hsid : sid = sid'
    · subst hsid
      have hok : (streams sid).outcomes 0 = true := h 0
      by_cases hid : r.watchId = watchId <;> simp [Stream.write, hok, hid]
    · simp [Function.update_of_ne hsid, Ne.symm hsid]

theorem send_idsBelow {n : Int} (h : IdsBelow streams n) (w : Watcher) {r : WatchResponse}
    (hr : r.watchId < n) : IdsBelow (sendWatchResponse w r streams).2 n := by
  unfold sendWatchResponse
  cases hw : w.stream with
  | none => exact h
  | some sid' =>
    intro sid₁ r₁ hr₁
    by_cases hsid : sid₁ = sid'
    · subst hsid
      simp only [Function.update_self, Stream.write] at hr₁
      split_ifs at hr₁
      · rcases List.mem_append.mp hr₁ with hold | hnew
        · exact h sid₁ r₁ hold
        · rw [List.mem_singleton.mp hnew]
          exact hr
      · exact h sid₁ r₁ hr₁
    · simp only [Function.update_of_ne hsid] at hr₁
      exact h sid₁ r₁ hr₁

theorem sendAll_writable (h : Writable streams sid) (sends : List (Watcher × WatchResponse)) :
    Writable (sendAll streams sends) sid := by
  induction sends generalizing streams with
  | nil => exact h
  | cons e sends ih => exact ih (send_writable h e.1 e.2)

/-- **A watcher is delivered its own responses**, when the writes to its stream succeed. -/
theorem delivered_sendAll (h : Writable streams sid) (watchId : Int)
    (sends : List (Watcher × WatchResponse)) :
    delivered (sendAll streams sends) sid watchId =
      delivered streams sid watchId ++ sends.flatMap (deliveredBy sid watchId) := by
  induction sends generalizing streams with
  | nil => simp [sendAll]
  | cons e sends ih =>
    rw [List.flatMap_cons, ← List.append_assoc, ← send_delivered h]
    exact ih (send_writable h e.1 e.2)

theorem sendAll_idsBelow {n : Int} (h : IdsBelow streams n)
    {sends : List (Watcher × WatchResponse)} (hs : ∀ e ∈ sends, e.2.watchId < n) :
    IdsBelow (sendAll streams sends) n := by
  induction sends generalizing streams with
  | nil => exact h
  | cons e sends ih =>
    exact ih (send_idsBelow h e.1 (hs e List.mem_cons_self)) fun e' he' =>
      hs e' (List.mem_cons_of_mem _ he')

/-- A watcher whose id no response carries has been delivered nothing. -/
theorem delivered_of_idsBelow {n : Int} (h : IdsBelow streams n) : delivered streams sid n = [] := by
  unfold delivered
  rw [List.filter_eq_nil_iff.mpr, List.flatMap_nil]
  intro r hr
  have hlt := h sid r hr
  simp only [decide_eq_true_eq]
  omega

end Send

/-! ### Notifications -/

namespace WatchManager

/-- The responses of a notification. -/
def notices (wm : WatchManager) (key : Bytes) (response : Watcher → WatchResponse) :
    List (Watcher × WatchResponse) :=
  (wm.watchers.toList.filter fun e => e.2.active && keyMatchesWatcher key e.2).map fun e =>
    (e.2, response e.2)

theorem notify_eq (wm : WatchManager) (key : Bytes) (response : Watcher → WatchResponse)
    (streams : Streams) :
    wm.notify key response streams = sendAll streams (wm.notices key response) := by
  unfold notify notices sendAll
  rw [List.foldl_map, List.foldl_filter]
  congr 1
  funext streams e
  cases e.2.active <;> cases keyMatchesWatcher key e.2 <;> rfl

/-- The registry is in order: each watcher is under its own id, given out already, and is
active. -/
structure InOrder (wm : WatchManager) : Prop where
  id_eq : ∀ i w, wm.watchers.find? i = some w → w.watchId = i
  id_lt : ∀ i w, wm.watchers.find? i = some w → i < wm.nextWatchId
  active : ∀ i w, wm.watchers.find? i = some w → w.active = true

/-- The registry stays in order when each watcher found in it was there before, or is active and
under its own id. -/
theorem InOrder.of_found {wm wm' : WatchManager} (h : wm.InOrder)
    (hnext : wm.nextWatchId ≤ wm'.nextWatchId)
    (hfound : ∀ i w, wm'.watchers.find? i = some w → wm.watchers.find? i = some w ∨
      w.watchId = i ∧ i < wm'.nextWatchId ∧ w.active = true) : wm'.InOrder where
  id_eq i w hw := by
    rcases hfound i w hw with hw | ⟨hid, -, -⟩
    · exact h.id_eq i w hw
    · exact hid
  id_lt i w hw := by
    rcases hfound i w hw with hw | ⟨-, hlt, -⟩
    · have hlt := h.id_lt i w hw
      omega
    · exact hlt
  active i w hw := by
    rcases hfound i w hw with hw | ⟨-, -, hactive⟩
    · exact h.active i w hw
    · exact hactive

/-- A notification delivers to a registered watcher its one response, if the key matches. -/
theorem notices_deliveredBy {wm : WatchManager} (h : wm.InOrder) {i : Int} {w : Watcher}
    (hw : wm.watchers.find? i = some w) {sid : StreamId} (hsid : w.stream = some sid)
    (key : Bytes) {response : Watcher → WatchResponse}
    (hresponse : ∀ w', (response w').watchId = w'.watchId) :
    (wm.notices key response).flatMap (deliveredBy sid i) =
      if keyMatchesWatcher key w then (response w).events else [] := by
  have hflat : (wm.notices key response).flatMap (deliveredBy sid i) =
      wm.watchers.toList.flatMap fun e =>
        if e.2.active && keyMatchesWatcher key e.2 then deliveredBy sid i (e.2, response e.2)
        else [] := by
    rw [notices, List.flatMap_map, UnorderedMap.flatMap_filter]
  rw [hflat, UnorderedMap.flatMap_toList wm.watchers i, hw]
  · simp [deliveredBy, hsid, hresponse, h.id_eq i w hw, h.active i w hw]
  · rintro ⟨i', w'⟩ hmem hne
    have hid := h.id_eq i' w' (UnorderedMap.mem_toList.mp hmem)
    have hno : deliveredBy sid i (w', response w') = [] := by
      refine if_neg fun hboth => hne ?_
      rw [← hid, ← hresponse w']
      exact hboth.2
    simp [hno]

/-- The ids that the responses of a notification carry have been given out. -/
theorem notices_id_lt {wm : WatchManager} (h : wm.InOrder) {key : Bytes}
    {response : Watcher → WatchResponse} (hresponse : ∀ w', (response w').watchId = w'.watchId) :
    ∀ e ∈ wm.notices key response, e.2.watchId < wm.nextWatchId := by
  intro e he
  obtain ⟨⟨i, w⟩, hmem, rfl⟩ := List.mem_map.mp he
  have hfind := UnorderedMap.mem_toList.mp (List.mem_filter.mp hmem).1
  rw [hresponse, h.id_eq i w hfind]
  exact h.id_lt i w hfind

end WatchManager

end EtcdLite
