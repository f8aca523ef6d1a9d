import Harikube.Spec.WatchServer

/-!
# The responses of a watch stream, and its progress channels

`Cancel` is called by the receive loop and by the goroutine of the watch. It sends the Canceled
response at once, whatever the goroutine is about to send.

* `Locked`: the channels that a progress goroutine has still to offer to are in the map, and so
  open, since the map changes only under the write lock.
* `Shape`, `WatchOK`: how far the responses of a watch have got, and what this says of the watch.
* `stream_ordered`: no send on a closed progress channel, in any run; and responses in order in the
  runs where a cancel finds its watch silent.
* `replies_after_canceled`: without that, events follow the Canceled response.
-/

namespace Harikube.WatchServer

variable {x : WatchServer} {i j : ℕ} {w : ServerWatch}

/-! ## The watches and the log after a step -/

theorem update_get (x : WatchServer) (f : ServerWatch → ServerWatch) (i j : ℕ) :
    (x.update i f).watches[j]? = if i = j then x.watches[j]?.map f else x.watches[j]? := by
  unfold update
  rw [List.getElem?_modify]
  split
  · rfl
  · rw [Option.map_eq_map, Option.map_id']

theorem update_get_self {f : ServerWatch → ServerWatch} (hw : x.watches[i]? = some w) :
    (x.update i f).watches[i]? = some (f w) := by
  rw [update_get, if_pos rfl, hw]
  rfl

theorem update_get_ne {f : ServerWatch → ServerWatch} (h : i ≠ j) : (x.update i f).watches[j]? = x.watches[j]? := by
  rw [update_get, if_neg h]

theorem length_update (x : WatchServer) (i : ℕ) (f : ServerWatch → ServerWatch) :
    (x.update i f).watches.length = x.watches.length := List.length_modify _ _ _

/-- What a send adds to the log: the response, up to the revision of its header. -/
theorem send_log (x : WatchServer) (wr : WatchResponse) (ok : Bool) :
    ∃ r : WatchResponse, (r.watchId = wr.watchId ∧ r.created = wr.created ∧ r.canceled = wr.canceled) ∧
      (x.send wr ok).log = if ok then x.log ++ [r] else x.log := by
  refine ⟨_, ?_, rfl⟩
  split <;> exact ⟨rfl, rfl, rfl⟩

/-! ## The progress channels -/

/-- The entries of the map `progress` are open channels of registered watches, and those that a
progress goroutine has still to offer to are among them. -/
structure Locked (x : WatchServer) : Prop where
  safe : x.panicked = false
  maps : ∀ w ∈ x.watches, w.inProgress = true → w.registered = true ∧ w.progressClosed = false
  left : ∀ rev left, x.tick = .offering rev left ∨ x.all = .offering rev left → ∀ i ∈ left,
    ∃ w, x.watches[i]? = some w ∧ w.inProgress = true

/-- A step that leaves the entries of the maps as they are. -/
def Frames (f : ServerWatch → ServerWatch) : Prop :=
  ∀ w, (f w).registered = w.registered ∧ (f w).inProgress = w.inProgress ∧ (f w).progressClosed = w.progressClosed

theorem Locked.update (h : Locked x) (i : ℕ) {f : ServerWatch → ServerWatch} (hf : Frames f) : Locked (x.update i f) := by
  refine ⟨h.safe, ?_, ?_⟩
  · intro w' hw' hin
    obtain ⟨j, hj⟩ := List.getElem?_of_mem hw'
    rw [update_get] at hj
    split at hj
    · obtain ⟨w, hw, rfl⟩ := Option.map_eq_some_iff.1 hj
      obtain ⟨hreg, hprog, hclosed⟩ := hf w
      rw [hreg, hclosed]
      rw [hprog] at hin
      exact h.maps w (List.mem_of_getElem? hw) hin
    · exact h.maps w' (List.mem_of_getElem? hj) hin
  · intro rev left hoff j hj
    obtain ⟨w, hw, hin⟩ := h.left rev left hoff j hj
    by_cases hij : i = j
    · subst hij
      exact ⟨f w, update_get_self hw, (hf w).2.1.trans hin⟩
    · exact ⟨w, (update_get_ne hij).trans hw, hin⟩

theorem Locked.send (h : Locked x) (wr : WatchResponse) (ok : Bool) : Locked (x.send wr ok) := ⟨h.safe, h.maps, h.left⟩

theorem remove_maps (w : ServerWatch) : w.remove.inProgress = true → w.remove.registered = true ∧
    w.remove.progressClosed = false := by
  intro h
  cases h

/-- Without a reader, the maps may change. -/
theorem Locked.unlocked (h : Locked x) (hl : x.locked = false) (watches : List ServerWatch)
    (hmaps : ∀ w ∈ watches, w.inProgress = true → w.registered = true ∧ w.progressClosed = false) :
    Locked { x with watches := watches } := by
  refine ⟨h.safe, hmaps, ?_⟩
  intro rev left hoff
  unfold locked at hl
  rw [Bool.or_eq_false_iff] at hl
  rcases hoff with hoff | hoff
  · rw [show x.tick = .offering rev left from hoff] at hl
    cases hl.1
  · rw [show x.all = .offering rev left from hoff] at hl
    cases hl.2

theorem Locked.modify (h : Locked x) (hl : x.locked = false) (i : ℕ) {f : ServerWatch → ServerWatch}
    (hf : ∀ w, (f w).inProgress = false) : Locked (x.update i f) := by
  refine h.unlocked hl _ fun w' hw' hin => ?_
  obtain ⟨j, hj⟩ := List.getElem?_of_mem hw'
  have hget := update_get x f i j
  unfold WatchServer.update at hget
  rw [hget] at hj
  split at hj
  · obtain ⟨w, -, rfl⟩ := Option.map_eq_some_iff.1 hj
    rw [hf w] at hin
    cases hin
  · exact h.maps w' (List.mem_of_getElem? hj) hin

theorem takeProgress_frames (rev : ℤ) : Frames fun w => w.takeProgress rev := fun _ => ⟨rfl, rfl, rfl⟩

/-- An offer to a channel of the map does not panic. -/
theorem Locked.offer (h : Locked x) (hw : x.watches[i]? = some w) (hin : w.inProgress = true) (rev : ℤ) :
    Locked (x.offer i rev).1 := by
  have hopen : ¬ w.progressClosed = true := by
    rw [(h.maps w (List.mem_of_getElem? hw) hin).2]
    exact Bool.false_ne_true
  unfold WatchServer.offer
  rw [hw]
  simp only
  rw [if_neg hopen]
  split
  · exact h.update i (takeProgress_frames rev)
  · exact h

theorem mem_progressIds (hi : i ∈ x.progressIds) : ∃ w, x.watches[i]? = some w ∧ w.inProgress = true := by
  unfold progressIds at hi
  have hin := (List.mem_filter.1 hi).2
  cases hw : x.watches[i]? with
  | none =>
    rw [hw] at hin
    cases hin
  | some w =>
    rw [hw] at hin
    exact ⟨w, rfl, hin⟩

theorem offer_stages (x : WatchServer) (i : ℕ) (rev : ℤ) :
    (x.offer i rev).1.tick = x.tick ∧ (x.offer i rev).1.all = x.all := by
  unfold WatchServer.offer
  split
  · exact ⟨rfl, rfl⟩
  · split
    · exact ⟨rfl, rfl⟩
    · split <;> exact ⟨rfl, rfl⟩

theorem Locked.setTick (h : Locked x) {t : TickStage}
    (ht : ∀ rev left, t = .offering rev left → ∀ i ∈ left, ∃ w, x.watches[i]? = some w ∧ w.inProgress = true) :
    Locked { x with tick := t } := by
  refine ⟨h.safe, h.maps, fun rev left hoff => ?_⟩
  rcases hoff with hoff | hoff
  · exact ht rev left hoff
  · exact h.left rev left (.inr hoff)

theorem Locked.setAll (h : Locked x) {t : TickStage}
    (ht : ∀ rev left, t = .offering rev left → ∀ i ∈ left, ∃ w, x.watches[i]? = some w ∧ w.inProgress = true) :
    Locked { x with all := t } := by
  refine ⟨h.safe, h.maps, fun rev left hoff => ?_⟩
  rcases hoff with hoff | hoff
  · exact h.left rev left (.inl hoff)
  · exact ht rev left hoff

theorem Locked.tickOffer (h : Locked x) (i : ℕ) : Locked (x.tickOffer i) := by
  unfold WatchServer.tickOffer
  split
  · rename_i rev left hoff
    split
    · rename_i hi
      obtain ⟨w, hw, hin⟩ := h.left rev left (.inl hoff) i hi
      have hoffer := h.offer hw hin rev
      refine hoffer.setTick fun rev' left' heq j hj => ?_
      obtain ⟨rfl, rfl⟩ := TickStage.offering.inj heq
      exact hoffer.left rev left (.inl ((offer_stages x i rev).1.trans hoff)) j (List.mem_of_mem_erase hj)
    · exact h
  · exact h

theorem Locked.allOffer (h : Locked x) (i : ℕ) : Locked (x.allOffer i) := by
  unfold WatchServer.allOffer
  split
  · rename_i rev left hoff
    split
    · rename_i hi
      obtain ⟨w, hw, hin⟩ := h.left rev left (.inr hoff) i hi
      have hoffer := h.offer hw hin 0
      refine hoffer.setAll fun rev' left' heq j hj => ?_
      split at heq
      · obtain ⟨rfl, rfl⟩ := TickStage.offering.inj heq
        exact hoffer.left rev left (.inr ((offer_stages x i 0).2.trans hoff)) j (List.mem_of_mem_erase hj)
      · cases heq
    · exact h
  · exact h

theorem read_frames : Frames ServerWatch.read := by
  intro w
  unfold ServerWatch.read
  split
  · exact ⟨rfl, rfl, rfl⟩
  · split <;> exact ⟨rfl, rfl, rfl⟩
  · exact ⟨rfl, rfl, rfl⟩

theorem readMore_frames : Frames ServerWatch.readMore := by
  intro w
  unfold ServerWatch.readMore
  split <;> exact ⟨rfl, rfl, rfl⟩

theorem readClosed_frames : Frames ServerWatch.readClosed := by
  intro w
  unfold ServerWatch.readClosed
  split
  · split <;> exact ⟨rfl, rfl, rfl⟩
  · exact ⟨rfl, rfl, rfl⟩

theorem openWatch_frames (compacted : Option (ℤ × ℤ)) : Frames fun w => w.openWatch compacted := by
  intro w
  simp only [ServerWatch.openWatch]
  split
  · split <;> exact ⟨rfl, rfl, rfl⟩
  · exact ⟨rfl, rfl, rfl⟩

theorem deliver_frames (events : List Event) : Frames fun w => w.deliver events := by
  intro w
  simp only [ServerWatch.deliver]
  split <;> exact ⟨rfl, rfl, rfl⟩

theorem closeQueue_frames : Frames ServerWatch.closeQueue := by
  intro w
  unfold ServerWatch.closeQueue
  split <;> exact ⟨rfl, rfl, rfl⟩

/-- **No step panics**, and the maps stay as the readers have found them. -/
theorem step_locked (h : Locked x) (a : Act) : Locked (x.step a) := by
  cases a with
  | create startRevision progressNotify =>
    simp only [step, create]
    split
    · rename_i hc
      refine h.unlocked hc.2.2 _ fun w hw hin => ?_
      rcases List.mem_append.1 hw with hw | hw
      · exact h.maps w hw hin
      · rw [List.mem_singleton.1 hw]
        exact ⟨rfl, rfl⟩
    · exact h
  | reject rev ok =>
    simp only [step, reject]
    split
    · exact h.send _ _
    · exact h
  | cancelRequest id =>
    simp only [step, cancelRequest]
    split
    · exact ⟨h.safe, h.maps, h.left⟩
    · exact h
  | recvRemove =>
    simp only [step, recvRemove]
    split
    · split
      · exact h
      · rename_i id _ hl
        have hmod := h.modify (Bool.eq_false_of_not_eq_true hl) id (f := ServerWatch.remove) fun w => rfl
        exact ⟨hmod.safe, hmod.maps, hmod.left⟩
    · exact h
  | recvAnnounce ok =>
    simp only [step, recvAnnounce]
    split
    · exact ⟨h.safe, h.maps, h.left⟩
    · exact h
  | progressRequest => exact ⟨h.safe, h.maps, h.left⟩
  | close =>
    simp only [step, close]
    split
    · rename_i hc
      have hun := h.unlocked hc.2 (x.watches.map ServerWatch.remove) fun w hw hin => by
        obtain ⟨v, -, rfl⟩ := List.mem_map.1 hw
        exact remove_maps v hin
      exact ⟨hun.safe, hun.maps, hun.left⟩
    · exact h
  | tickBegin rev =>
    simp only [step, tickBegin]
    split
    · exact h.setTick nofun
    · exact h
  | tickLock =>
    simp only [step, tickLock]
    split
    · refine h.setTick fun rev left heq i hi => ?_
      obtain ⟨-, rfl⟩ := TickStage.offering.inj heq
      exact mem_progressIds hi
    · exact h
  | tickOffer i => exact h.tickOffer i
  | tickUnlock =>
    simp only [step, tickUnlock]
    split
    · exact h.setTick nofun
    · exact h
  | allBegin rev =>
    simp only [step, allBegin]
    split
    · exact h.setAll nofun
    · exact h
  | allLock =>
    simp only [step, allLock]
    split
    · rename_i rev _
      have hall := h.setAll (t := .offering rev x.progressIds) fun rev left heq i hi => by
        obtain ⟨-, rfl⟩ := TickStage.offering.inj heq
        exact mem_progressIds hi
      exact ⟨hall.safe, hall.maps, hall.left⟩
    · exact h
  | allOffer i => exact h.allOffer i
  | allUnlock =>
    simp only [step, allUnlock]
    split
    · have hall := h.setAll (t := .idle) nofun
      exact ⟨hall.safe, hall.maps, hall.left⟩
    · exact h
  | broadcast j ok =>
    simp only [step, broadcast]
    split
    · exact ⟨h.safe, h.maps, h.left⟩
    · exact h
  | deliver i events => exact h.update i (deliver_frames events)
  | closeQueue i => exact h.update i closeQueue_frames
  | sendCreated i ok =>
    simp only [step, sendCreated]
    split
    · exact h
    · split
      · exact (h.send _ _).update i fun w => ⟨rfl, rfl, rfl⟩
      · exact h
  | openWatch i compacted => exact h.update i (openWatch_frames compacted)
  | read i => exact h.update i read_frames
  | readMore i => exact h.update i readMore_frames
  | readClosed i => exact h.update i readClosed_frames
  | reply i ok =>
    simp only [step, reply]
    split
    · exact h
    · split
      · split
        · exact (h.send _ _).update i fun w => ⟨rfl, rfl, rfl⟩
        · exact h.update i fun w => ⟨rfl, rfl, rfl⟩
      · exact h
  | remove i =>
    simp only [step, remove]
    split
    · exact h
    · split
      · split
        · exact h
        · rename_i hl
          exact h.modify (Bool.eq_false_of_not_eq_true hl) i fun w => rfl
      · exact h
  | announce i ok =>
    simp only [step, announce]
    split
    · exact h
    · split
      · exact (h.send _ _).update i fun w => ⟨rfl, rfl, rfl⟩
      · exact h

/-! ## How far the responses of a watch have got -/

inductive Phase
  | fresh
  | running
  | canceled
deriving DecidableEq

/-- The responses of a watch, up to a phase. -/
inductive Shape : List WatchResponse → Phase → Prop
  | fresh : Shape [] .fresh
  | created {r : WatchResponse} (hc : r.created = true) (hd : r.canceled = false) : Shape [r] .running
  | reply {rs : List WatchResponse} {r : WatchResponse} (h : Shape rs .running) (hc : r.created = false)
      (hd : r.canceled = false) : Shape (rs ++ [r]) .running
  | canceled {rs : List WatchResponse} {r : WatchResponse} (h : Shape rs .running) (hc : r.created = false)
      (hd : r.canceled = true) : Shape (rs ++ [r]) .canceled

/-- The responses of a running watch: the first one, and replies. -/
theorem Shape.running_form {rs : List WatchResponse} (h : Shape rs .running) :
    ∃ first replies, rs = first :: replies ∧ (first.created = true ∧ first.canceled = false) ∧
      ∀ r ∈ replies, r.created = false ∧ r.canceled = false := by
  generalize hp : Phase.running = p at h
  induction h with
  | fresh => cases hp
  | created hc hd => exact ⟨_, [], rfl, ⟨hc, hd⟩, nofun⟩
  | @reply rs r _ hc hd ih =>
    obtain ⟨first, replies, rfl, hfirst, hall⟩ := ih rfl
    refine ⟨first, replies ++ [r], rfl, hfirst, fun r' hr' => ?_⟩
    rcases List.mem_append.1 hr' with hr' | hr'
    · exact hall r' hr'
    · rw [List.mem_singleton.1 hr']
      exact ⟨hc, hd⟩
  | canceled => cases hp

theorem Shape.inOrder {rs : List WatchResponse} {p : Phase} (h : Shape rs p) : InOrder rs := by
  have hrunning : ∀ {rs}, Shape rs .running → InOrder rs := fun h => by
    obtain ⟨first, replies, rfl, hfirst, hall⟩ := h.running_form
    exact .inr ⟨first, replies, [], by rw [List.append_nil], hfirst, hall, .inl rfl⟩
  cases h with
  | fresh => exact .inl rfl
  | created hc hd => exact hrunning (.created hc hd)
  | reply h hc hd => exact hrunning (.reply h hc hd)
  | @canceled rs r h hc hd =>
    obtain ⟨first, replies, rfl, hfirst, hall⟩ := h.running_form
    exact .inr ⟨first, replies, [r], rfl, hfirst, hall, .inr ⟨r, rfl, hc, hd⟩⟩

/-- A canceled watch is in the last phase. -/
theorem Shape.phase_of_canceled {rs : List WatchResponse} {p : Phase} (h : Shape rs p) {r : WatchResponse}
    (hr : r ∈ rs) (hd : r.canceled = true) : p = .canceled := by
  have hrunning : ∀ {rs}, Shape rs .running → ∀ r ∈ rs, r.canceled = false := fun h r hr => by
    obtain ⟨first, replies, rfl, hfirst, hall⟩ := h.running_form
    rcases List.mem_cons.1 hr with rfl | hr
    · exact hfirst.2
    · exact (hall r hr).2
  cases p with
  | fresh =>
    cases h
    cases hr
  | running =>
    rw [hrunning h r hr] at hd
    cases hd
  | canceled => rfl

/-- The last phase has a Canceled response. -/
theorem Shape.canceled_mem {rs : List WatchResponse} (h : Shape rs .canceled) : ∃ r ∈ rs, r.canceled = true := by
  cases h with
  | @canceled rs r h hc hd => exact ⟨r, List.mem_append_right _ List.mem_cons_self, hd⟩

theorem Shape.eq_nil {rs : List WatchResponse} (h : Shape rs .fresh) : rs = [] := by
  cases h
  rfl

theorem Shape.ne_fresh {rs : List WatchResponse} {p : Phase} (h : Shape rs p) {r : WatchResponse} (hr : r ∈ rs) :
    p ≠ .fresh := by
  rintro rfl
  rw [h.eq_nil] at hr
  cases hr

/-! ## What is known of a watch -/

/-- The goroutine is about to send the Canceled response. -/
def announces : WatchStage → Bool
  | .announcing _ _ _ => true
  | _ => false

/-- The stages before the Created response, and those of a watch whose Created response has failed. -/
def early : WatchStage → Bool
  | .creating => true
  | .canceling _ _ .stop => true
  | .announcing _ _ .stop => true
  | .returned => true
  | _ => false

/-- A watch in a phase; `announced` if the receive loop is about to send its Canceled response. The
Canceled response has one sender, the watch is unregistered by then, and it is silent from then on. -/
structure WatchOK (announced : Prop) (w : ServerWatch) (p : Phase) : Prop where
  registered : w.registered = true → p ≠ .canceled ∧ ¬ announced ∧ announces w.stage = false
  recv_alone : announced → p ≠ .canceled ∧ announces w.stage = false
  own_alone : announces w.stage = true → p ≠ .canceled
  silent : p = .canceled ∨ announced ∨ announces w.stage = true → w.silent = true
  early : p = .fresh → early w.stage = true
  creating : w.stage = .creating → p = .fresh

structure OK (x : WatchServer) : Prop where
  watches : ∀ i w, x.watches[i]? = some w →
    ∃ p, Shape (responsesOf x.log i) p ∧ WatchOK (x.recv = .announcing i) w p
  known : ∀ r ∈ x.log, ∀ i, r.watchId = some i → i < x.watches.length
  recv : ∀ i, x.recv = .announcing i → i < x.watches.length

theorem OK.ordered (h : OK x) : x.Ordered := by
  intro id
  by_cases hid : id < x.watches.length
  · obtain ⟨p, hshape, -⟩ := h.watches id _ (List.getElem?_eq_getElem hid)
    exact hshape.inOrder
  · -- an id that has not been given out has no responses
    refine .inl (List.filter_eq_nil_iff.2 fun r hr hwatch => hid ?_)
    exact h.known r hr id (of_decide_eq_true hwatch)

theorem OK.silent_of_canceled (h : OK x) (hw : x.watches[i]? = some w) (hc : x.Canceled i) : w.silent = true := by
  obtain ⟨p, hshape, hok⟩ := h.watches i w hw
  apply hok.silent
  rcases hc with ⟨r, hr, hid, hd⟩ | hrecv | ⟨w', revision, compactRev, next, hw', hst⟩
  · exact .inl (hshape.phase_of_canceled (List.mem_filter.2 ⟨hr, decide_eq_true hid⟩) hd)
  · exact .inr (.inl hrecv)
  · rw [hw] at hw'
    obtain rfl : w = w' := Option.some.inj hw'
    rw [hst]
    exact .inr (.inr rfl)

/-- A step that changes at most one watch, its responses and what the receive loop does for it. -/
theorem OK.change (h : OK x) {y : WatchServer} (i : ℕ) (hlen : y.watches.length = x.watches.length)
    (hother : ∀ j, i ≠ j → y.watches[j]? = x.watches[j]? ∧ responsesOf y.log j = responsesOf x.log j ∧
      (y.recv = .announcing j → x.recv = .announcing j))
    (hknown : ∀ r ∈ y.log, r ∈ x.log ∨ (r.watchId = some i ∧ i < x.watches.length))
    (hrecv : y.recv = .announcing i → i < x.watches.length)
    (hself : ∀ w', y.watches[i]? = some w' →
      ∃ p, Shape (responsesOf y.log i) p ∧ WatchOK (y.recv = .announcing i) w' p) : OK y := by
  refine ⟨?_, ?_, ?_⟩
  · intro j w hw
    by_cases hij : i = j
    · subst hij
      exact hself w hw
    · obtain ⟨hget, hlog, hann⟩ := hother j hij
      rw [hget] at hw
      obtain ⟨p, hshape, hok⟩ := h.watches j w hw
      rw [hlog]
      exact ⟨p, hshape, fun hr => ⟨(hok.registered hr).1, fun ha => (hok.registered hr).2.1 (hann ha),
        (hok.registered hr).2.2⟩, fun ha => hok.recv_alone (hann ha), hok.own_alone,
        fun hc => hok.silent (hc.imp_right (Or.imp_left hann)), hok.early, hok.creating⟩
  · intro r hr j hj
    rw [hlen]
    rcases hknown r hr with hr | ⟨hi, hlt⟩
    · exact h.known r hr j hj
    · rw [hi] at hj
      rw [← Option.some.inj hj]
      exact hlt
  · intro j hj
    rw [hlen]
    by_cases hij : i = j
    · subst hij
      exact hrecv hj
    · exact h.recv j ((hother j hij).2.2 hj)

theorem OK.update (h : OK x) (i : ℕ) {f : ServerWatch → ServerWatch}
    (hf : ∀ w p, x.watches[i]? = some w → Shape (responsesOf x.log i) p → WatchOK (x.recv = .announcing i) w p →
      WatchOK (x.recv = .announcing i) (f w) p) : OK (x.update i f) := by
  refine h.change i (length_update x i f) (fun j hij => ⟨update_get_ne hij, rfl, id⟩) (fun r hr => .inl hr) (h.recv i) ?_
  intro w' hw'
  rw [update_get, if_pos rfl] at hw'
  obtain ⟨w, hw, rfl⟩ := Option.map_eq_some_iff.1 hw'
  obtain ⟨p, hshape, hok⟩ := h.watches i w hw
  exact ⟨p, hshape, hf w p hw hshape hok⟩

/-- A move of the goroutine that sends nothing. -/
theorem WatchOK.move {announced : Prop} {w w' : ServerWatch} {p : Phase} (h : WatchOK announced w p)
    (hreg : w'.registered = true → w.registered = true) (hann : announces w'.stage = false)
    (hcreating : w'.stage ≠ .creating) (hearly : WatchServer.early w.stage = true → WatchServer.early w'.stage = true)
    (hsilent : p = .canceled ∨ announced ∨ announces w.stage = true → w.silent = true → w'.silent = true) :
    WatchOK announced w' p where
  registered hr := ⟨(h.registered (hreg hr)).1, (h.registered (hreg hr)).2.1, hann⟩
  recv_alone ha := ⟨(h.recv_alone ha).1, hann⟩
  own_alone ha := absurd ha (by rw [hann]; exact Bool.false_ne_true)
  silent hc := by
    rcases hc with hc | hc | hc
    · exact hsilent (.inl hc) (h.silent (.inl hc))
    · exact hsilent (.inr (.inl hc)) (h.silent (.inr (.inl hc)))
    · rw [hann] at hc
      cases hc
  early hp := hearly (h.early hp)
  creating hst := absurd hst hcreating

theorem silent_queue (h : w.silent = true) : w.queue = [] := by
  unfold ServerWatch.silent at h
  exact List.isEmpty_iff.1 (Bool.and_eq_true_iff.1 h).1

/-- The stages from which an empty queue leads to no response. -/
def quiet : WatchStage → Bool
  | .creating => false
  | .reading events => events.isEmpty
  | .replying _ revision _ => revision = 0
  | _ => true

theorem silent_of_quiet (hq : w.queue = []) (hst : quiet w.stage = true) : w.silent = true := by
  unfold ServerWatch.silent
  rw [hq]
  cases hstage : w.stage with
  | replying events revision last =>
    rw [hstage] at hst
    have hzero : revision = 0 := of_decide_eq_true hst
    simp [ServerWatch.replies, hzero]
  | _ =>
    rw [hstage] at hst
    exact hst

/-- A silent watch stays silent as it goes on to a quiet stage. -/
theorem silent_move {w' : ServerWatch} (h : w.silent = true) (hq : w'.queue = w.queue) (hst : quiet w'.stage = true) :
    w'.silent = true := silent_of_quiet (hq.trans (silent_queue h)) hst

/-! ## Moves of the goroutine -/

section Moves

variable {announced : Prop} {p : Phase}

theorem WatchOK.closeQueue (h : WatchOK announced w p) : WatchOK announced w.closeQueue p := by
  unfold ServerWatch.closeQueue
  split
  · exact ⟨h.registered, h.recv_alone, h.own_alone, h.silent, h.early, h.creating⟩
  · exact h

/-- Nothing is delivered to a canceled watch. -/
theorem WatchOK.deliver (h : WatchOK announced w p) (hc : ¬ (p = .canceled ∨ announced ∨ announces w.stage = true))
    (events : List Event) : WatchOK announced (w.deliver events) p := by
  unfold ServerWatch.deliver
  split
  · exact ⟨h.registered, h.recv_alone, h.own_alone, fun hc' => absurd hc' hc, h.early, h.creating⟩
  · exact h

theorem WatchOK.openWatch (h : WatchOK announced w p) (compacted : Option (ℤ × ℤ)) :
    WatchOK announced (w.openWatch compacted) p := by
  unfold ServerWatch.openWatch
  split
  · rename_i hst
    have hnot : ¬ WatchServer.early w.stage = true := by rw [hst]; exact Bool.false_ne_true
    split
    · exact h.move id rfl nofun (fun he => absurd he hnot) fun _ hs =>
        silent_move hs rfl rfl
    · exact h.move id rfl nofun (fun he => absurd he hnot) fun _ hs => silent_move hs rfl rfl
  · exact h

theorem WatchOK.read (h : WatchOK announced w p) : WatchOK announced w.read p := by
  unfold ServerWatch.read
  split
  · rename_i events queue hst hq
    have hnot : ¬ WatchServer.early w.stage = true := by rw [hst]; exact Bool.false_ne_true
    refine h.move id rfl nofun (fun he => absurd he hnot) fun _ hs => ?_
    rw [silent_queue hs] at hq
    cases hq
  · rename_i hst hq
    have hnot : ¬ WatchServer.early w.stage = true := by rw [hst]; exact Bool.false_ne_true
    split
    · exact h.move id rfl nofun (fun he => absurd he hnot) fun _ hs =>
        silent_move hs rfl rfl
    · exact h
  · exact h

theorem WatchOK.readMore (h : WatchOK announced w p) : WatchOK announced w.readMore p := by
  unfold ServerWatch.readMore
  split
  · rename_i events more queue hst hq
    have hnot : ¬ WatchServer.early w.stage = true := by rw [hst]; exact Bool.false_ne_true
    refine h.move id rfl nofun (fun he => absurd he hnot) fun _ hs => ?_
    rw [silent_queue hs] at hq
    cases hq
  · rename_i events hst hq
    have hnot : ¬ WatchServer.early w.stage = true := by rw [hst]; exact Bool.false_ne_true
    refine h.move id rfl nofun (fun he => absurd he hnot) fun _ hs => ?_
    have hnil : events = [] := by
      unfold ServerWatch.silent at hs
      rw [hst] at hs
      exact List.isEmpty_iff.1 (Bool.and_eq_true_iff.1 hs).2
    subst hnil
    exact silent_of_quiet hq rfl
  · exact h

theorem takeProgress_zero (w : ServerWatch) : w.takeProgress 0 = { w with stage := .replying [] 0 false } := by
  unfold ServerWatch.takeProgress
  rw [ite_self]

theorem WatchOK.readClosed (h : WatchOK announced w p) : WatchOK announced w.readClosed p := by
  unfold ServerWatch.readClosed
  split
  · rename_i hst
    have hnot : ¬ WatchServer.early w.stage = true := by rw [hst]; exact Bool.false_ne_true
    split
    · rw [takeProgress_zero]
      exact h.move id rfl nofun (fun he => absurd he hnot) fun _ hs =>
        silent_move hs rfl rfl
    · exact h
  · exact h

/-- Progress is offered to a registered watch. -/
theorem WatchOK.takeProgress (h : WatchOK announced w p) (hreg : w.registered = true) (hparked : w.parked = true)
    (rev : ℤ) : WatchOK announced (w.takeProgress rev) p := by
  have hst : w.stage = .waiting := by
    unfold ServerWatch.parked at hparked
    exact of_decide_eq_true (Bool.and_eq_true_iff.1 (Bool.and_eq_true_iff.1 hparked).1).1
  have hnot : ¬ WatchServer.early w.stage = true := by rw [hst]; exact Bool.false_ne_true
  refine h.move id rfl nofun (fun he => absurd he hnot) fun hc => ?_
  obtain ⟨hp, ha, hown⟩ := h.registered hreg
  rcases hc with hc | hc | hc
  · exact absurd hc hp
  · exact absurd hc ha
  · rw [hown] at hc
    cases hc

theorem WatchOK.remove (h : WatchOK announced w p) : WatchOK announced w.remove p :=
  ⟨nofun, h.recv_alone, h.own_alone, h.silent, h.early, h.creating⟩

/-- The receive loop has removed a registered watch that is silent. -/
theorem WatchOK.recvRemove (h : WatchOK announced w p) (hreg : w.registered = true) (hs : w.silent = true) :
    WatchOK True w.remove p := by
  obtain ⟨hp, -, hown⟩ := h.registered hreg
  exact ⟨nofun, fun _ => ⟨hp, hown⟩, h.own_alone, fun _ => hs, h.early, h.creating⟩

/-- The goroutine has removed its own watch. -/
theorem WatchOK.ownRemove (h : WatchOK announced w p) {revision compactRev : ℤ} {next : AfterCancel}
    (hst : w.stage = .canceling revision compactRev next) (hq : w.registered = true → w.queue = []) :
    WatchOK announced { w.remove with
      stage := if w.registered then .announcing revision compactRev next else ServerWatch.afterCancel next } p := by
  by_cases hreg : w.registered = true
  · rw [if_pos hreg]
    obtain ⟨hp, ha, -⟩ := h.registered hreg
    refine ⟨nofun, fun ha' => absurd ha' ha, fun _ => hp, fun _ => silent_of_quiet (hq hreg) rfl, fun hfresh => ?_, nofun⟩
    have hearly := h.early hfresh
    rw [hst] at hearly
    cases next with
    | stop => rfl
    | again => cases hearly
    | final => cases hearly
  · rw [if_neg hreg]
    refine h.move nofun ?_ ?_ (fun hearly => ?_) fun _ hs => silent_move hs rfl ?_
    · cases next <;> rfl
    · cases next <;> nofun
    · rw [hst] at hearly
      cases next with
      | stop => rfl
      | again => cases hearly
      | final => cases hearly
    · cases next <;> rfl

/-- The goroutine goes on after its Canceled response, which may have failed. -/
theorem WatchOK.goesOn (h : WatchOK announced w p) {revision compactRev : ℤ} {next : AfterCancel}
    (hst : w.stage = .announcing revision compactRev next) {p' : Phase} (hp' : p' = p ∨ p' = .canceled) :
    WatchOK announced { w with stage := ServerWatch.afterCancel next } p' := by
  have hann : announces w.stage = true := by rw [hst]; rfl
  have hafter : announces (ServerWatch.afterCancel next) = false := by cases next <;> rfl
  have hs : w.silent = true := h.silent (.inr (.inr hann))
  refine ⟨fun hreg => ?_, fun ha => ?_, fun ha => ?_, fun _ => silent_move hs rfl ?_, fun hfresh => ?_, ?_⟩
  · rw [(h.registered hreg).2.2] at hann
    cases hann
  · rw [(h.recv_alone ha).2] at hann
    cases hann
  · rw [show announces (ServerWatch.afterCancel next) = true from ha] at hafter
    cases hafter
  · cases next <;> rfl
  · have hearly : WatchServer.early w.stage = true := by
      rcases hp' with rfl | rfl
      · exact h.early hfresh
      · cases hfresh
    rw [hst] at hearly
    cases next with
    | stop => rfl
    | again => cases hearly
    | final => cases hearly
  · cases next <;> nofun

/-- A goroutine that is about to send its first response or a reply is not canceled. -/
theorem WatchOK.not_canceled (h : WatchOK announced w p) (hs : w.silent = false) :
    p ≠ .canceled ∧ ¬ announced ∧ announces w.stage = false := by
  have hnot : ¬ (p = .canceled ∨ announced ∨ announces w.stage = true) := fun hc => by
    rw [h.silent hc] at hs
    cases hs
  rw [not_or, not_or] at hnot
  exact ⟨hnot.1, hnot.2.1, Bool.eq_false_of_not_eq_true hnot.2.2⟩

/-- The next stage of such a goroutine, after the response. -/
theorem WatchOK.sent (h : WatchOK announced w p) (hs : w.silent = false) {w' : ServerWatch} {p' : Phase}
    (hp' : p' ≠ .canceled) (hann : announces w'.stage = false)
    (hcreating : w'.stage ≠ .creating) (hearly : p' = .fresh → WatchServer.early w'.stage = true) :
    WatchOK announced w' p' := by
  obtain ⟨-, ha, -⟩ := h.not_canceled hs
  refine ⟨fun _ => ⟨hp', ha, hann⟩, fun ha' => absurd ha' ha, fun hc => ?_, fun hc => ?_, hearly,
    fun hst => absurd hst hcreating⟩
  · exact hp'
  · rcases hc with hc | hc | hc
    · exact absurd hc hp'
    · exact absurd hc ha
    · rw [hann] at hc
      cases hc

end Moves

/-! ## Responses -/

theorem responsesOf_append (log : List WatchResponse) (r : WatchResponse) (i : ℕ) :
    responsesOf (log ++ [r]) i = if r.watchId = some i then responsesOf log i ++ [r] else responsesOf log i := by
  unfold responsesOf
  rw [List.filter_append]
  split
  · rename_i heq
    rw [List.filter_cons_of_pos (by simpa using heq), List.filter_nil]
  · rename_i hne
    rw [List.filter_cons_of_neg (by simpa using hne), List.filter_nil, List.append_nil]

/-- The responses of a watch after a send. -/
theorem responsesOf_send (x : WatchServer) {wr : WatchResponse} (hid : wr.watchId = some i) (ok : Bool) :
    ∃ r : WatchResponse, (r.watchId = some i ∧ r.created = wr.created ∧ r.canceled = wr.canceled) ∧
      responsesOf (x.send wr ok).log i = (if ok then responsesOf x.log i ++ [r] else responsesOf x.log i) ∧
      (∀ j, i ≠ j → responsesOf (x.send wr ok).log j = responsesOf x.log j) ∧
      ∀ r' ∈ (x.send wr ok).log, r' ∈ x.log ∨ r' = r := by
  obtain ⟨r, ⟨hwatch, hc, hd⟩, hlog⟩ := send_log x wr ok
  rw [hid] at hwatch
  refine ⟨r, ⟨hwatch, hc, hd⟩, ?_⟩
  rw [hlog]
  cases ok with
  | false => exact ⟨rfl, fun j _ => rfl, fun r' hr' => .inl hr'⟩
  | true =>
    refine ⟨?_, fun j hij => ?_, fun r' hr' => ?_⟩
    · simp only [if_true]
      rw [responsesOf_append, if_pos hwatch]
    · simp only [if_true]
      rw [responsesOf_append, if_neg fun h => hij (Option.some.inj (hwatch.symm.trans h))]
    · exact (List.mem_append.1 hr').imp_right List.mem_singleton.1

/-- A response of a goroutine, and its next stage. -/
theorem OK.sends (h : OK x) (hw : x.watches[i]? = some w) {wr : WatchResponse} (hid : wr.watchId = some i) (ok : Bool)
    {f : ServerWatch → ServerWatch}
    (hf : ∀ p, Shape (responsesOf x.log i) p → WatchOK (x.recv = .announcing i) w p → ∀ r : WatchResponse,
      r.created = wr.created → r.canceled = wr.canceled →
      ∃ p', Shape (if ok then responsesOf x.log i ++ [r] else responsesOf x.log i) p' ∧
        WatchOK (x.recv = .announcing i) (f w) p') : OK ((x.send wr ok).update i f) := by
  obtain ⟨r, ⟨hwatch, hc, hd⟩, hself, hother, hmem⟩ := responsesOf_send x hid ok
  have hlt : i < x.watches.length := (List.getElem?_eq_some_iff.1 hw).1
  refine h.change i (length_update _ i f) (fun j hij => ⟨update_get_ne hij, hother j hij, id⟩) ?_ (fun _ => hlt) ?_
  · intro r' hr'
    rcases hmem r' hr' with hr' | rfl
    · exact .inl hr'
    · exact .inr ⟨hwatch, hlt⟩
  · intro w' hw'
    have hget : ((x.send wr ok).update i f).watches[i]? = some (f w) := update_get_self hw
    rw [hget] at hw'
    rw [← Option.some.inj hw']
    obtain ⟨p, hshape, hok⟩ := h.watches i w hw
    obtain ⟨p', hshape', hok'⟩ := hf p hshape hok r hc hd
    refine ⟨p', ?_, hok'⟩
    show Shape (responsesOf (x.send wr ok).log i) p'
    rw [hself]
    exact hshape'

/-- A response for no watch. -/
theorem OK.sendNone (h : OK x) {wr : WatchResponse} (hid : wr.watchId = none) (ok : Bool) : OK (x.send wr ok) := by
  obtain ⟨r, ⟨hwatch, -⟩, hlog⟩ := send_log x wr ok
  rw [hid] at hwatch
  have hrs : ∀ i, responsesOf (x.send wr ok).log i = responsesOf x.log i := by
    intro i
    rw [hlog]
    cases ok with
    | false => rfl
    | true =>
      simp only [if_true]
      rw [responsesOf_append, if_neg (by rw [hwatch]; nofun)]
  refine ⟨fun i w hw => ?_, fun r' hr' i hi => ?_, h.recv⟩
  · rw [hrs]
    exact h.watches i w hw
  · rw [hlog] at hr'
    cases ok with
    | false => exact h.known r' hr' i hi
    | true =>
      rcases List.mem_append.1 hr' with hr' | hr'
      · exact h.known r' hr' i hi
      · rw [List.mem_singleton.1 hr', hwatch] at hi
        cases hi

/-! ## Steps -/

theorem OK.create (h : OK x) (startRevision : ℤ) (progressNotify : Bool) :
    OK (x.create startRevision progressNotify) := by
  unfold WatchServer.create
  split
  · rename_i hidle
    refine ⟨?_, ?_, ?_⟩
    · intro i w hw
      by_cases hi : i < x.watches.length
      · have hget : (x.watches ++ [ServerWatch.new startRevision progressNotify])[i]? = x.watches[i]? :=
          List.getElem?_append_left hi
        exact h.watches i w (hget.symm.trans hw)
      · -- the new watch has no responses yet
        have hnil : responsesOf x.log i = [] :=
          List.filter_eq_nil_iff.2 fun r hr hid => hi (h.known r hr i (of_decide_eq_true hid))
        have hnew : w = ServerWatch.new startRevision progressNotify := by
          have hmem := hw
          rw [List.getElem?_append_right (Nat.le_of_not_lt hi)] at hmem
          exact List.mem_singleton.1 (List.mem_of_getElem? hmem)
        have hrecv : ¬ x.recv = .announcing i := by rw [hidle.1]; nofun
        subst hnew
        refine ⟨.fresh, ?_, fun _ => ⟨nofun, hrecv, rfl⟩, fun ha => absurd ha hrecv, nofun, ?_, fun _ => rfl, fun _ => rfl⟩
        · show Shape (responsesOf x.log i) .fresh
          rw [hnil]
          exact .fresh
        · rintro (hc | hc | hc)
          · cases hc
          · exact absurd hc hrecv
          · cases hc
    · intro r hr i hi
      have hlt := h.known r hr i hi
      simp only [List.length_append, List.length_singleton]
      omega
    · intro i hi
      have hlt := h.recv i hi
      simp only [List.length_append, List.length_singleton]
      omega
  · exact h

theorem OK.recvRemove (h : OK x) (hord : x.Orderly .recvRemove) : OK x.recvRemove := by
  unfold WatchServer.recvRemove
  split
  · rename_i id hrecv
    split
    · exact h
    · have hnone : ∀ j, (if x.registered id = true then RecvStage.announcing id else .idle) = .announcing j → id = j := by
        intro j hj
        split at hj
        · exact RecvStage.announcing.inj hj
        · cases hj
      refine h.change id (length_update x id ServerWatch.remove)
        (fun j hij => ⟨update_get_ne hij, rfl, fun hj => absurd (hnone j hj) hij⟩) (fun r hr => .inl hr) ?_ ?_
      · intro hj
        by_contra hlt
        have hget : x.watches[id]? = none := List.getElem?_eq_none (Nat.le_of_not_lt hlt)
        simp only [registered, hget, Option.map_none, Option.getD_none, Bool.false_eq_true, if_false] at hj
        cases hj
      · intro w' hw'
        have hget := update_get x ServerWatch.remove id id
        rw [if_pos rfl] at hget
        obtain ⟨w, hw, rfl⟩ := Option.map_eq_some_iff.1 (hget.symm.trans hw')
        obtain ⟨p, hshape, hok⟩ := h.watches id w hw
        refine ⟨p, hshape, ?_⟩
        have hreg : x.registered id = w.registered := by
          unfold registered
          rw [hw]
          rfl
        simp only [hreg]
        by_cases hr : w.registered = true
        · rw [if_pos hr]
          have htrue : (RecvStage.announcing id = .announcing id) = True := eq_self _
          rw [htrue]
          exact hok.recvRemove hr (hord.recv id w rfl hrecv hw hr)
        · rw [if_neg hr]
          have hfalse : ¬ (RecvStage.idle = .announcing id) := nofun
          exact ⟨nofun, fun ha => absurd ha hfalse, hok.own_alone,
            fun hc => hok.silent (hc.imp_right (Or.imp_left fun ha => absurd ha hfalse)), hok.early, hok.creating⟩
  · exact h

/-- The phase of a watch whose Canceled response is sent: the Created one has been sent before. -/
theorem running_of_announced {p : Phase} (hshape : Shape (responsesOf x.log i) p) (hp : p ≠ .canceled)
    (hann : x.Announced i) : p = .running := by
  obtain ⟨r, hr, hid, -⟩ := hann
  have hfresh := hshape.ne_fresh (List.mem_filter.2 ⟨hr, decide_eq_true hid⟩)
  cases p with
  | fresh => exact absurd rfl hfresh
  | running => rfl
  | canceled => exact absurd rfl hp

theorem OK.recvAnnounce (h : OK x) (ok : Bool) (hord : x.Orderly (.recvAnnounce ok)) : OK (x.recvAnnounce ok) := by
  unfold WatchServer.recvAnnounce
  split
  · rename_i id hrecv
    have hlt := h.recv id hrecv
    have hid : (⟨some id, 0, false, true, 0, []⟩ : WatchResponse).watchId = some id := rfl
    obtain ⟨r, ⟨hwatch, hc, hd⟩, hself, hother, hmem⟩ := responsesOf_send x hid ok
    refine h.change id rfl (fun j hij => ⟨rfl, hother j hij, nofun⟩) ?_ nofun ?_
    · intro r' hr'
      rcases hmem r' hr' with hr' | rfl
      · exact .inl hr'
      · exact .inr ⟨hwatch, hlt⟩
    · intro w hw
      obtain ⟨p, hshape, hok⟩ := h.watches id w hw
      obtain ⟨hp, hown⟩ := hok.recv_alone hrecv
      have hsilent := hok.silent (.inr (.inl hrecv))
      have hunreg : ¬ w.registered = true := fun hr => (hok.registered hr).2.1 hrecv
      have hrest : ∀ p', p' = p ∨ p' = .canceled → WatchOK (RecvStage.idle = .announcing id) w p' := by
        intro p' hp'
        refine ⟨fun hr => absurd hr hunreg, nofun, fun ha => ?_, fun _ => hsilent, fun hf => ?_, fun hst => ?_⟩
        · rw [hown] at ha
          cases ha
        · rcases hp' with rfl | rfl
          · exact hok.early hf
          · cases hf
        · unfold ServerWatch.silent at hsilent
          rw [hst, Bool.and_false] at hsilent
          cases hsilent
      show ∃ p', Shape (responsesOf (x.send ⟨some id, 0, false, true, 0, []⟩ ok).log id) p' ∧ _
      rw [hself]
      cases ok with
      | false => exact ⟨p, hshape, hrest p (.inl rfl)⟩
      | true =>
        obtain rfl := running_of_announced hshape hp (hord.recvAnnounce id rfl hrecv)
        exact ⟨.canceled, .canceled hshape hc hd, hrest .canceled (.inr rfl)⟩
  · exact h

theorem OK.close (h : OK x) : OK x.close := by
  unfold WatchServer.close
  split
  · refine ⟨fun i w' hw' => ?_, fun r hr i hi => ?_, fun i hi => ?_⟩
    · have hmap : (x.watches.map ServerWatch.remove)[i]? = x.watches[i]?.map ServerWatch.remove := List.getElem?_map
      obtain ⟨w, hw, rfl⟩ := Option.map_eq_some_iff.1 (hmap.symm.trans hw')
      obtain ⟨p, hshape, hok⟩ := h.watches i w hw
      exact ⟨p, hshape, hok.remove⟩
    · rw [List.length_map]
      exact h.known r hr i hi
    · rw [List.length_map]
      exact h.recv i hi
  · exact h

/-- The Created response: the watch has no responses before it. -/
theorem OK.sendCreated (h : OK x) (i : ℕ) (ok : Bool) : OK (x.sendCreated i ok) := by
  unfold WatchServer.sendCreated
  split
  · exact h
  · rename_i w hw
    split
    · rename_i hst
      refine h.sends hw rfl ok fun p hshape hok r hc hd => ?_
      have hs : w.silent = false := by
        unfold ServerWatch.silent
        rw [hst, Bool.and_false]
      obtain rfl := hok.creating hst
      cases ok with
      | false => exact ⟨.fresh, hshape, hok.sent hs nofun rfl nofun fun _ => rfl⟩
      | true =>
        refine ⟨.running, ?_, hok.sent hs nofun rfl nofun nofun⟩
        simp only [if_true]
        rw [hshape.eq_nil]
        exact .created hc hd
    · exact h

/-- A reply: the watch is running, since it is not silent. -/
theorem OK.reply (h : OK x) (i : ℕ) (ok : Bool) : OK (x.reply i ok) := by
  unfold WatchServer.reply
  split
  · exact h
  · rename_i w hw
    split
    · rename_i events revision last hst
      have hnot : WatchServer.early w.stage = false := by rw [hst]; rfl
      split
      · rename_i hreplies
        refine h.sends hw rfl ok fun p hshape hok r hc hd => ?_
        have hs : w.silent = false := by
          unfold ServerWatch.silent
          rw [hst]
          simp only [hreplies, Bool.not_true, Bool.and_false]
        have hrunning : p = .running := by
          cases p with
          | fresh => rw [hok.early rfl] at hnot; cases hnot
          | running => rfl
          | canceled => exact absurd rfl (hok.not_canceled hs).1
        subst hrunning
        cases ok with
        | false => exact ⟨.running, hshape, hok.sent hs nofun rfl nofun nofun⟩
        | true =>
          refine ⟨.running, .reply hshape hc hd, hok.sent hs nofun ?_ ?_ nofun⟩
          · cases last <;> rfl
          · cases last <;> nofun
      · refine h.update i fun w' p hw' _ hok => ?_
        obtain rfl : w = w' := Option.some.inj (hw.symm.trans hw')
        refine hok.move id ?_ ?_ (fun he => absurd (hnot.symm.trans he) Bool.false_ne_true) fun _ hs => silent_move hs rfl ?_
        · cases last <;> rfl
        · cases last <;> nofun
        · cases last <;> rfl
    · exact h

theorem OK.remove (h : OK x) (i : ℕ) (hord : x.Orderly (.remove i)) : OK (x.remove i) := by
  unfold WatchServer.remove
  split
  · exact h
  · rename_i w hw
    split
    · rename_i revision compactRev next hst
      split
      · exact h
      · refine h.update i fun w' p hw' _ hok => ?_
        obtain rfl : w = w' := Option.some.inj (hw.symm.trans hw')
        exact hok.ownRemove hst (hord.own i w rfl hw)
    · exact h

theorem OK.announce (h : OK x) (i : ℕ) (ok : Bool) (hord : x.Orderly (.announce i ok)) : OK (x.announce i ok) := by
  unfold WatchServer.announce
  split
  · exact h
  · rename_i w hw
    split
    · rename_i revision compactRev next hst
      refine h.sends hw rfl ok fun p hshape hok r hc hd => ?_
      cases ok with
      | false => exact ⟨p, hshape, hok.goesOn hst (.inl rfl)⟩
      | true =>
        have hann : announces w.stage = true := by rw [hst]; rfl
        obtain rfl := running_of_announced hshape (hok.own_alone hann) (hord.announce i rfl)
        exact ⟨.canceled, .canceled hshape hc hd, hok.goesOn hst (.inr rfl)⟩
    · exact h

/-- Progress that is offered to a registered watch. -/
theorem OK.offer (h : OK x) (hw : x.watches[i]? = some w) (hreg : w.registered = true) (rev : ℤ) :
    OK (x.offer i rev).1 := by
  unfold WatchServer.offer
  rw [hw]
  simp only
  split
  · exact ⟨h.watches, h.known, h.recv⟩
  · split
    · rename_i hparked
      refine h.update i fun w' p hw' _ hok => ?_
      obtain rfl : w = w' := Option.some.inj (hw.symm.trans hw')
      exact hok.takeProgress hreg hparked rev
    · exact h

theorem OK.tickOffer (h : OK x) (hl : Locked x) (i : ℕ) : OK (x.tickOffer i) := by
  unfold WatchServer.tickOffer
  split
  · rename_i rev left hoff
    split
    · rename_i hi
      obtain ⟨w, hw, hin⟩ := hl.left rev left (.inl hoff) i hi
      have hoffer := h.offer hw (hl.maps w (List.mem_of_getElem? hw) hin).1 rev
      exact ⟨hoffer.watches, hoffer.known, hoffer.recv⟩
    · exact h
  · exact h

theorem OK.allOffer (h : OK x) (hl : Locked x) (i : ℕ) : OK (x.allOffer i) := by
  unfold WatchServer.allOffer
  split
  · rename_i rev left hoff
    split
    · rename_i hi
      obtain ⟨w, hw, hin⟩ := hl.left rev left (.inr hoff) i hi
      have hoffer := h.offer hw (hl.maps w (List.mem_of_getElem? hw) hin).1 0
      exact ⟨hoffer.watches, hoffer.known, hoffer.recv⟩
    · exact h
  · exact h

theorem OK.deliver (h : OK x) (i : ℕ) (events : List Event) (hord : x.Orderly (.deliver i events)) :
    OK (x.update i fun w => w.deliver events) := by
  refine h.update i fun w p hw hshape hok => hok.deliver (fun hc => ?_) events
  refine hord.deliver i events rfl ?_
  rcases hc with rfl | hc | hc
  · obtain ⟨r, hr, hd⟩ := hshape.canceled_mem
    obtain ⟨hr, hid⟩ := List.mem_filter.1 hr
    exact .inl ⟨r, hr, of_decide_eq_true hid, hd⟩
  · exact .inr (.inl hc)
  · cases hst : w.stage with
    | announcing revision compactRev next => exact .inr (.inr ⟨w, revision, compactRev, next, hw, hst⟩)
    | _ => rw [hst] at hc; cases hc

/-- **An orderly step keeps the responses in order.** -/
theorem step_ok (h : OK x) (hl : Locked x) (a : Act) (hord : x.Orderly a) : OK (x.step a) := by
  cases a with
  | create startRevision progressNotify => exact h.create startRevision progressNotify
  | reject rev ok =>
    simp only [step, reject]
    split
    · exact h.sendNone rfl ok
    · exact h
  | cancelRequest id =>
    simp only [step, cancelRequest]
    split
    · refine h.change id rfl (fun j _ => ⟨rfl, rfl, nofun⟩) (fun r hr => .inl hr) nofun fun w hw => ?_
      obtain ⟨p, hshape, hok⟩ := h.watches id w hw
      exact ⟨p, hshape, fun hr => ⟨(hok.registered hr).1, nofun, (hok.registered hr).2.2⟩, nofun, hok.own_alone,
        fun hc => hok.silent (hc.imp_right (Or.imp_left nofun)), hok.early, hok.creating⟩
    · exact h
  | recvRemove => exact h.recvRemove hord
  | recvAnnounce ok => exact h.recvAnnounce ok hord
  | progressRequest => exact ⟨h.watches, h.known, h.recv⟩
  | close => exact h.close
  | tickBegin rev =>
    simp only [step, tickBegin]
    split <;> exact ⟨h.watches, h.known, h.recv⟩
  | tickLock =>
    simp only [step, tickLock]
    split <;> exact ⟨h.watches, h.known, h.recv⟩
  | tickOffer i => exact h.tickOffer hl i
  | tickUnlock =>
    simp only [step, tickUnlock]
    split <;> exact ⟨h.watches, h.known, h.recv⟩
  | allBegin rev =>
    simp only [step, allBegin]
    split <;> exact ⟨h.watches, h.known, h.recv⟩
  | allLock =>
    simp only [step, allLock]
    split <;> exact ⟨h.watches, h.known, h.recv⟩
  | allOffer i => exact h.allOffer hl i
  | allUnlock =>
    simp only [step, allUnlock]
    split <;> exact ⟨h.watches, h.known, h.recv⟩
  | broadcast j ok =>
    simp only [step, broadcast]
    split
    · rename_i rev _
      have hsend : OK (x.send ⟨none, rev, false, false, 0, []⟩ ok) := h.sendNone rfl ok
      exact ⟨hsend.watches, hsend.known, hsend.recv⟩
    · exact h
  | deliver i events => exact h.deliver i events hord
  | closeQueue i => exact h.update i fun w p _ _ hok => hok.closeQueue
  | sendCreated i ok => exact h.sendCreated i ok
  | openWatch i compacted => exact h.update i fun w p _ _ hok => hok.openWatch compacted
  | read i => exact h.update i fun w p _ _ hok => hok.read
  | readMore i => exact h.update i fun w p _ _ hok => hok.readMore
  | readClosed i => exact h.update i fun w p _ _ hok => hok.readClosed
  | reply i ok => exact h.reply i ok
  | remove i => exact h.remove i hord
  | announce i ok => exact h.announce i ok hord

/-! ## Runs -/

theorem init_locked : Locked init := by
  refine ⟨rfl, fun w hw => absurd hw List.not_mem_nil, fun rev left h => ?_⟩
  rcases h with h | h <;> cases h

theorem init_ok : OK init := by
  refine ⟨fun i w hw => ?_, fun r hr => absurd hr List.not_mem_nil, fun i h => ?_⟩
  · cases hw
  · cases h

/-- **No goroutine sends on a closed progress channel**, in any run; **and the responses of every
watch are in order**: one Created response, then events and progress, then at most one Canceled
response, in every run whose steps are orderly. -/
theorem stream_ordered (acts : List Act) :
    Lts.Always step (fun x => x.panicked = false) init acts ∧
      (Lts.Guarded step Orderly init acts → Lts.Always step Ordered init acts) := by
  constructor
  · have hlocked : Lts.Always step Locked init acts := Lts.invariant (fun x a hx => step_locked hx a) acts _ init_locked
    exact hlocked.mono fun x hx => hx.safe
  · intro hord
    have hok : Lts.Always step (fun x => OK x ∧ Locked x) init acts :=
      Lts.invariant_of_guarded (fun x a ha hx => ⟨step_ok hx.1 hx.2 a ha, step_locked hx.2 a⟩) acts _
        ⟨init_ok, init_locked⟩ hord
    exact hok.mono fun x hx => hx.1.ordered

/-- The steps that are orderly in any state. -/
def free : Act → Bool
  | .recvRemove => false
  | .remove _ => false
  | .deliver _ _ => false
  | .recvAnnounce _ => false
  | .announce _ _ => false
  | _ => true

theorem orderly_of_free {a : Act} (ha : free a = true) : x.Orderly a := by
  constructor
  · rintro id w rfl
    cases ha
  · rintro i w rfl
    cases ha
  · rintro i events rfl
    cases ha
  · rintro id rfl
    cases ha
  · rintro i rfl
    cases ha

theorem orderly_deliver (h : ¬ x.Canceled i) (events : List Event) : x.Orderly (.deliver i events) where
  recv _ _ ha := by cases ha
  own _ _ ha := by cases ha
  deliver j _ ha := by
    obtain ⟨rfl, -⟩ := Act.deliver.inj ha
    exact h
  recvAnnounce _ ha := by cases ha
  announce _ ha := by cases ha

theorem orderly_recvRemove (hs : ∀ w ∈ x.watches, w.silent = true) : x.Orderly .recvRemove where
  recv _ w _ _ hw _ := hs w (List.mem_of_getElem? hw)
  own _ _ ha := by cases ha
  deliver _ _ ha := by cases ha
  recvAnnounce _ ha := by cases ha
  announce _ ha := by cases ha

theorem orderly_recvAnnounce (hrecv : x.recv = .announcing i) (hann : x.Announced i) (ok : Bool) :
    x.Orderly (.recvAnnounce ok) where
  recv _ _ ha := by cases ha
  own _ _ ha := by cases ha
  deliver _ _ ha := by cases ha
  recvAnnounce id _ hrecv' := by
    obtain rfl : i = id := RecvStage.announcing.inj (hrecv.symm.trans hrecv')
    exact hann
  announce _ ha := by cases ha

theorem orderly_remove (hq : ∀ w ∈ x.watches, w.queue = []) : x.Orderly (.remove i) where
  recv _ _ ha := by cases ha
  own _ w _ hw _ := hq w (List.mem_of_getElem? hw)
  deliver _ _ ha := by cases ha
  recvAnnounce _ ha := by cases ha
  announce _ ha := by cases ha

theorem not_canceled_of (hlog : ∀ r ∈ x.log, r.canceled = false) (hrecv : x.recv = .idle)
    (hst : ∀ w ∈ x.watches, announces w.stage = false) : ¬ x.Canceled i := by
  rintro (⟨r, hr, -, hd⟩ | hr | ⟨w, revision, compactRev, next, hw, hann⟩)
  · rw [hlog r hr] at hd
    cases hd
  · rw [hrecv] at hr
    cases hr
  · have hno := hst w (List.mem_of_getElem? hw)
    rw [hann] at hno
    cases hno

/-- An event of a pod. -/
def podEvent (rev : ℤ) : Event := ⟨false, true, ⟨ascii "/pods/a", [], 0, rev, rev, 0⟩, none⟩

/-- A watch is created and is sent an event and progress; the client cancels it, and its goroutine
ends. -/
def quietCancel : List Act :=
  [.create 0 true, .sendCreated 0 true, .openWatch 0 none, .deliver 0 [podEvent 5], .read 0, .readMore 0, .reply 0 true,
    .tickBegin 7, .tickLock, .tickOffer 0, .tickUnlock, .reply 0 true, .cancelRequest 0, .recvRemove, .recvAnnounce true,
    .closeQueue 0, .read 0, .readMore 0, .reply 0 true, .remove 0]

theorem stream_ordered_quiet :
    ((Lts.exec step init quietCancel).log.map fun r => (r.created, r.canceled, r.revision)) =
        [(true, false, 0), (false, false, 5), (false, false, 7), (false, true, 0)] ∧
      Lts.Always step Ordered init quietCancel := by
  have hfree : ∀ {a : Act} {y : WatchServer}, free a = true → y.Orderly a := orderly_of_free
  have hlive : ¬ (Lts.exec step init (quietCancel.take 3)).Canceled 0 := 
    not_canceled_of (by decide +kernel) (by decide +kernel) (by decide +kernel)
  have hsilent : ∀ w ∈ (Lts.exec step init (quietCancel.take 13)).watches, w.silent = true := by decide +kernel
  have hann : (Lts.exec step init (quietCancel.take 14)).Announced 0 :=
    ⟨⟨some 0, 0, true, false, 0, []⟩, by decide +kernel, rfl, rfl⟩
  have hrecv : (Lts.exec step init (quietCancel.take 14)).recv = .announcing 0 := by decide +kernel
  have hqueue : ∀ w ∈ (Lts.exec step init (quietCancel.take 19)).watches, w.queue = [] := by decide +kernel
  refine ⟨by decide +kernel, (stream_ordered quietCancel).2 ?_⟩
  exact ⟨hfree rfl, hfree rfl, hfree rfl, orderly_deliver hlive _, hfree rfl, hfree rfl, hfree rfl, hfree rfl, hfree rfl,
    hfree rfl, hfree rfl, hfree rfl, hfree rfl, orderly_recvRemove hsilent, orderly_recvAnnounce hrecv hann _, hfree rfl,
    hfree rfl, hfree rfl, hfree rfl, orderly_remove hqueue, trivial⟩

/-- The client cancels a watch whose goroutine has read an event and not sent it. -/
def busyCancel : List Act :=
  [.create 0 false, .sendCreated 0 true, .openWatch 0 none, .deliver 0 [podEvent 5], .read 0, .readMore 0,
    .cancelRequest 0, .recvRemove, .recvAnnounce true, .reply 0 true]

/-- The client cancels a watch whose goroutine has not run yet. -/
def earlyCancel : List Act := [.create 0 false, .cancelRequest 0, .recvRemove, .recvAnnounce true, .sendCreated 0 true]

theorem InOrder.second {r r' r'' : WatchResponse} {rs : List WatchResponse} (h : InOrder (r :: r' :: r'' :: rs)) :
    r'.canceled = false := by
  rcases h with h | ⟨first, replies, rest, heq, -, hreplies, hrest⟩
  · cases h
  · have htail := (List.cons.inj heq).2
    cases replies with
    | nil =>
      rcases hrest with rfl | ⟨last, rfl, -⟩
      · cases htail
      · cases (List.cons.inj htail).2
    | cons s replies =>
      rw [(List.cons.inj htail).1]
      exact (hreplies s List.mem_cons_self).2

theorem InOrder.first {r : WatchResponse} {rs : List WatchResponse} (h : InOrder (r :: rs)) : r.created = true := by
  rcases h with h | ⟨first, replies, rest, heq, hfirst, -⟩
  · cases h
  · rw [(List.cons.inj heq).1]
    exact hfirst.1

/-- **Responses after the Canceled response**: a watch is sent events after it has been canceled,
and one is canceled before it has been created. -/
theorem replies_after_canceled :
    (responsesOf (Lts.exec step init busyCancel).log 0 =
      [⟨some 0, 0, true, false, 0, []⟩, ⟨some 0, 0, false, true, 0, []⟩, ⟨some 0, 5, false, false, 0, [podEvent 5]⟩] ∧
      ¬ (Lts.exec step init busyCancel).Ordered) ∧
    responsesOf (Lts.exec step init earlyCancel).log 0 =
      [⟨some 0, 0, false, true, 0, []⟩, ⟨some 0, 0, true, false, 0, []⟩] ∧
      ¬ (Lts.exec step init earlyCancel).Ordered := by
  have hbusy : responsesOf (Lts.exec step init busyCancel).log 0 =
      [⟨some 0, 0, true, false, 0, []⟩, ⟨some 0, 0, false, true, 0, []⟩, ⟨some 0, 5, false, false, 0, [podEvent 5]⟩] := by
    decide +kernel
  have hearly : responsesOf (Lts.exec step init earlyCancel).log 0 =
      [⟨some 0, 0, false, true, 0, []⟩, ⟨some 0, 0, true, false, 0, []⟩] := by decide +kernel
  refine ⟨⟨hbusy, fun h => ?_⟩, hearly, fun h => ?_⟩
  · have hord := h 0
    rw [hbusy] at hord
    cases hord.second
  · have hord := h 0
    rw [hearly] at hord
    cases hord.first

end Harikube.WatchServer
