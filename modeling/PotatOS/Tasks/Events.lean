import PotatOS.Mem.VectorNodes
import PotatOS.Tasks.Tasklist

/-!
# Event queues (`events.c`, `syscall_poll`, `syscall_peek`)

A queue is a vector of the addresses of heap blocks that hold the events. The
system calls copy an event to the caller and free its block; the copy is their
result here.
-/

namespace PotatOS.Tasks.Events

open Memory Prog Mem Mem.VectorNodes

def sizeofEvent : Nat := 32

def loadEvent (m : Mem) (a : Nat) : Event :=
  { doHandle := load m a 1 ≠ 0, eventId := load m (a + 8) 8, data0 := load m (a + 16) 8, data1 := load m (a + 24) 8 }

/-- `*a = event`. -/
def setEvent (a : Nat) (event : Event) : KernelM Unit := do
  assign a 0 1 event.doHandle.toNat
  assign a 8 8 event.eventId
  assign a 16 8 event.data0
  assign a 24 8 event.data1

/-- `(Event) {.do_handle = false}`. -/
def noEvent : Event := { doHandle := false, eventId := 0, data0 := 0, data1 := 0 }

/-- The event that `add_event` makes of its arguments. -/
def newEvent (eventType data0 data1 : UInt64) : Event :=
  { doHandle := true, eventId := eventType.toNat, data0 := data0.toNat, data1 := data1.toNat }

section events

variable (kmalloc : Owner → Nat → KernelM Nat)

def newEventQueue : KernelM Nat := newVector kmalloc sizeofEvent

def addEvent (q : Nat) (eventType data0 data1 : UInt64) : KernelM Unit := do
  let eventAddr ← malloc kmalloc sizeofEvent
  setEvent eventAddr (newEvent eventType data0 data1)
  vectorPush kmalloc q eventAddr

/-- The branch of `poll` and `peek` for an empty queue. -/
def emptyEvent : KernelM Nat := do
  let toReturn ← malloc kmalloc sizeofEvent
  setEvent toReturn noEvent
  return toReturn

def poll (q : Nat) : KernelM Nat := do
  if (← deref q 8 8) = 0 then emptyEvent kmalloc
  else
    let thisEvent ← vectorAt q (sub64 (← deref q 8 8) 1)
    vectorPop q (sub64 (← deref q 8 8) 1)
    return thisEvent

def peek (q : Nat) : KernelM Nat := do
  if (← deref q 8 8) = 0 then emptyEvent kmalloc
  else
    let thisEvent ← vectorAt q (sub64 (← deref q 8 8) 1)
    return thisEvent

/-- The end of both system calls. -/
def copyAndFree (thisEvent : Nat) : KernelM Event := do
  if thisEvent = 0 then Prog.stop .fault
  else
    let event := loadEvent (← get).mem thisEvent
    free thisEvent
    return event

def syscallPoll (q : Nat) : KernelM Event := do copyAndFree (← poll kmalloc q)

def syscallPeek (q : Nat) : KernelM Event := do copyAndFree (← peek kmalloc q)

end events

/-! ### What each operation does -/

/-- The memory after `setEvent`. -/
def withEvent (m : Mem) (a : Nat) (event : Event) : Mem :=
  store (store (store (store m (a + 0) 1 event.doHandle.toNat) (a + 8) 8 event.eventId) (a + 16) 8 event.data0)
    (a + 24) 8 event.data1

theorem setEvent_run {k : Kernel} {a : Nat} {event : Event} (valid : 0 < a) :
    setEvent a event k = .ok ((), k.setMem (withEvent k.mem a event)) := by
  rw [setEvent, bind_eq (assign_run valid), bind_eq (assign_run valid), bind_eq (assign_run valid), assign_run valid]
  rfl

theorem withEvent_outside {m : Mem} {a x : Nat} {event : Event} (outside : ¬ InRange a 32 x) :
    withEvent m a event x = m x := by
  unfold InRange at outside
  rw [withEvent, store_outside (by unfold InRange; omega), store_outside (by unfold InRange; omega),
    store_outside (by unfold InRange; omega), store_outside (by unfold InRange; omega)]

theorem loadEvent_withEvent {m : Mem} {a : Nat} {event : Event} (eventId : event.eventId < 2 ^ 64)
    (data0 : event.data0 < 2 ^ 64) (data1 : event.data1 < 2 ^ 64) : loadEvent (withEvent m a event) a = event := by
  have flag : load (withEvent m a event) a 1 = event.doHandle.toNat := by
    rw [withEvent, load_store_apart (by unfold Apart; omega), load_store_apart (by unfold Apart; omega),
      load_store_apart (by unfold Apart; omega)]
    refine load_store_same ?_
    cases event.doHandle <;> decide
  have first : load (withEvent m a event) (a + 8) 8 = event.eventId := by
    rw [withEvent, load_store_apart (by unfold Apart; omega), load_store_apart (by unfold Apart; omega),
      load_store_same eventId]
  have second : load (withEvent m a event) (a + 16) 8 = event.data0 := by
    rw [withEvent, load_store_apart (by unfold Apart; omega), load_store_same data0]
  have third : load (withEvent m a event) (a + 24) 8 = event.data1 := load_store_same data1
  rw [loadEvent, flag, first, second, third]
  cases event with
  | mk doHandle _ _ _ => cases doHandle <;> rfl

theorem loadEvent_noEvent (m : Mem) (a : Nat) : loadEvent (withEvent m a noEvent) a = noEvent :=
  loadEvent_withEvent (by decide) (by decide) (by decide)

theorem loadEvent_newEvent (m : Mem) (a : Nat) (eventType data0 data1 : UInt64) :
    loadEvent (withEvent m a (newEvent eventType data0 data1)) a = newEvent eventType data0 data1 :=
  loadEvent_withEvent eventType.toNat_lt data0.toNat_lt data1.toNat_lt

theorem loadEvent_congr {m m' : Mem} {a : Nat} (same : ∀ x, InRange a 32 x → m' x = m x) :
    loadEvent m' a = loadEvent m a := by
  have field : ∀ b n, a ≤ b → b + n ≤ a + 32 → load m' b n = load m b n := by
    intro b n lower upper
    exact load_congr fun x inside => same x (by unfold InRange at *; omega)
  rw [loadEvent, loadEvent, field a 1 (by omega) (by omega), field (a + 8) 8 (by omega) (by omega),
    field (a + 16) 8 (by omega) (by omega), field (a + 24) 8 (by omega) (by omega)]

def eventBlocks (slots : List Slot) : List (Nat × Nat) := slots.map fun s => (s.data, 32)

/-- The queue `q` with its slots, in a heap whose other blocks are `live`. -/
structure Queue (A : PageAllocator) (k : Kernel) (q : Nat) (slots : List Slot) (live : List (Nat × Nat)) : Prop where
  heap : Heap A k (vectorBlocks q slots ++ (eventBlocks slots ++ live))
  rep : VectorRep k.mem q slots

/-- The events in the queue. -/
def pending (m : Mem) (slots : List Slot) : List Event := slots.map fun s => loadEvent m s.data

theorem pending_keeps {k k' : Kernel} {slots : List Slot} (keeps : Keeps k k' (eventBlocks slots)) :
    pending k'.mem slots = pending k.mem slots := by
  refine List.map_congr_left fun s member => loadEvent_congr fun x inside => ?_
  exact keeps (s.data, 32) (List.mem_map_of_mem member) x inside

section steps

variable {A : PageAllocator} {k k' : Kernel} {live : List (Nat × Nat)} {q : Nat} {slots : List Slot}

theorem newEventQueue_ok (heap : Heap A k live) (h : newEventQueue A.kmalloc k = .ok (q, k')) :
    Queue A k' q [] live ∧ Keeps k k' live := by
  obtain ⟨after, kept, rep⟩ := newVector_ok heap h
  exact ⟨⟨after, rep⟩, kept⟩

theorem Queue.valid (queue : Queue A k q slots live) : 0 < q :=
  (queue.heap.bounds (b := (q, 24)) (by simp [vectorBlocks])).1

theorem malloc_event {a : Nat} {k₁ : Kernel} (event : Event) (heap : Heap A k live)
    (got : malloc A.kmalloc sizeofEvent k = .ok (a, k₁)) :
    0 < a ∧ Heap A (k₁.setMem (withEvent k₁.mem a event)) ((a, 32) :: live) ∧
      Keeps k (k₁.setMem (withEvent k₁.mem a event)) live := by
  obtain ⟨heap₁, kept⟩ := heap.malloc (by decide) got
  refine ⟨(heap₁.bounds List.mem_cons_self).1, heap₁.write List.mem_cons_self fun x => withEvent_outside, ?_⟩
  intro b member x inside
  have separate := (List.pairwise_cons.mp heap₁.pairwise).1 b member
  exact (withEvent_outside (not_inRange_of_apart (apart_comm.mp separate) inside)).trans (kept b member x inside)

theorem perm_add (node a : Nat) :
    (vectorBlocks q (slots ++ [⟨node, a⟩]) ++ (a, 32) :: (eventBlocks slots ++ live)).Perm
      (vectorBlocks q (slots ++ [⟨node, a⟩]) ++ (eventBlocks (slots ++ [⟨node, a⟩]) ++ live)) := by
  refine List.Perm.append_left _ ?_
  rw [eventBlocks, eventBlocks, List.map_append, List.append_assoc]
  exact List.perm_middle.symm

theorem addEvent_ok {eventType data0 data1 : UInt64} (queue : Queue A k q slots live)
    (h : addEvent A.kmalloc q eventType data0 data1 k = .ok ((), k')) :
    ∃ s, Queue A k' q (slots ++ [s]) live ∧ Keeps k k' live ∧
      pending k'.mem (slots ++ [s]) = pending k.mem slots ++ [newEvent eventType data0 data1] := by
  unfold addEvent at h
  obtain ⟨a, k₁, got, h⟩ := bind_ok h
  obtain ⟨valid, heap₁, kept⟩ := malloc_event (newEvent eventType data0 data1) queue.heap got
  rw [bind_eq (setEvent_run valid)] at h
  have rep₁ := queue.rep.keeps (kept.mono fun b member => List.mem_append_left _ member)
  have limits := heap₁.bounds (b := (a, 32)) List.mem_cons_self
  have queued : Heap A (k₁.setMem (withEvent k₁.mem a (newEvent eventType data0 data1)))
      (vectorBlocks q slots ++ (a, 32) :: (eventBlocks slots ++ live)) := heap₁.perm List.perm_middle.symm
  obtain ⟨node, heap₂, kept', rep₂⟩ := vectorPush_ok queued rep₁ limits.2.1 h
  have keeps : Keeps k k' (eventBlocks slots ++ live) :=
    (kept.mono fun b member => List.mem_append_right _ member).trans
      (kept'.mono fun b member => List.mem_cons_of_mem _ member)
  refine ⟨⟨node, a⟩, ⟨heap₂.perm (perm_add node a), rep₂⟩, keeps.mono fun b member => List.mem_append_right _ member, ?_⟩
  have old := pending_keeps (keeps.mono fun b member => List.mem_append_left _ member)
  have new : loadEvent k'.mem a = newEvent eventType data0 data1 := by
    rw [← loadEvent_newEvent k₁.mem a]
    exact loadEvent_congr fun x inside => kept' (a, 32) List.mem_cons_self x inside
  rw [pending, List.map_append, List.map_singleton, new]
  exact congrArg (· ++ _) old

theorem addEvent_error {eventType data0 data1 : UInt64} {reason : Stop} (queue : Queue A k q slots live)
    (h : addEvent A.kmalloc q eventType data0 data1 k = .error reason) :
    ∃ n k₁, A.kmalloc .heap n k₁ = .error reason := by
  unfold addEvent at h
  cases got : malloc A.kmalloc sizeofEvent k with
  | error e =>
    rw [bind_error got] at h
    obtain rfl := Except.error.inj h
    obtain ⟨n, stopped⟩ := queue.heap.malloc_error (by decide) got
    exact ⟨n, k, stopped⟩
  | ok pair =>
    obtain ⟨a, k₁⟩ := pair
    obtain ⟨valid, heap₁, kept⟩ := malloc_event (newEvent eventType data0 data1) queue.heap got
    rw [bind_eq got, bind_eq (setEvent_run valid)] at h
    have rep₁ := queue.rep.keeps (kept.mono fun b member => List.mem_append_left _ member)
    have queued : Heap A (k₁.setMem (withEvent k₁.mem a (newEvent eventType data0 data1)))
        (vectorBlocks q slots ++ (a, 32) :: (eventBlocks slots ++ live)) := heap₁.perm List.perm_middle.symm
    obtain ⟨n, stopped⟩ := vectorPush_error queued rep₁ h
    exact ⟨n, _, stopped⟩

theorem emptyEvent_ok {a : Nat} (heap : Heap A k live) (h : emptyEvent A.kmalloc k = .ok (a, k')) :
    Heap A k' ((a, 32) :: live) ∧ Keeps k k' live ∧ loadEvent k'.mem a = noEvent := by
  unfold emptyEvent at h
  obtain ⟨p, k₁, got, h⟩ := bind_ok h
  obtain ⟨valid, after, kept⟩ := malloc_event noEvent heap got
  rw [bind_eq (setEvent_run valid)] at h
  obtain ⟨rfl, rfl⟩ := pure_ok h
  exact ⟨after, kept, loadEvent_noEvent k₁.mem p⟩

theorem emptyEvent_error {reason : Stop} (heap : Heap A k live) (h : emptyEvent A.kmalloc k = .error reason) :
    ∃ n, A.kmalloc .heap n k = .error reason := by
  unfold emptyEvent at h
  cases got : malloc A.kmalloc sizeofEvent k with
  | error e =>
    rw [bind_error got] at h
    obtain rfl := Except.error.inj h
    exact heap.malloc_error (by decide) got
  | ok pair =>
    obtain ⟨p, k₁⟩ := pair
    rw [bind_eq got, bind_eq (setEvent_run (malloc_event noEvent heap got).1)] at h
    cases h

theorem poll_empty (queue : Queue A k q [] live) : poll A.kmalloc q k = emptyEvent A.kmalloc k := by
  rw [poll, bind_eq (deref_run queue.valid), if_pos (show load k.mem (q + 8) 8 = 0 from queue.rep.length)]

theorem peek_empty (queue : Queue A k q [] live) : peek A.kmalloc q k = emptyEvent A.kmalloc k := by
  rw [peek, bind_eq (deref_run queue.valid), if_pos (show load k.mem (q + 8) 8 = 0 from queue.rep.length)]

/-- On a queue with events, both read the last slot. -/
theorem poll_pending {front : List Slot} {s : Slot} (queue : Queue A k q (front ++ [s]) live) :
    poll A.kmalloc q k = (vectorPop q front.length >>= fun _ => pure s.data) k ∧ peek A.kmalloc q k = .ok (s.data, k) := by
  have count : load k.mem (q + 8) 8 = front.length + 1 := by
    rw [queue.rep.length]
    simp
  have few := load_lt k.mem (q + 8) 8
  have last : sub64 (front.length + 1) 1 = front.length := by
    rw [sub64_of_le (by omega)]
    omega
  have read := vectorAt_run queue.heap queue.rep
  constructor
  · rw [poll, bind_eq (deref_run queue.valid), count, if_neg (by omega), bind_eq (deref_run queue.valid), count, last,
      bind_eq read, bind_eq (deref_run queue.valid), count, last]
  · rw [peek, bind_eq (deref_run queue.valid), count, if_neg (by omega), bind_eq (deref_run queue.valid), count, last,
      read]

theorem poll_one {s : Slot} (queue : Queue A k q [s] live) :
    ∃ k', poll A.kmalloc q k = .ok (s.data, k') ∧ Queue A k' q [] ((s.node, 24) :: (s.data, 32) :: live) ∧
      Keeps k k' ((s.data, 32) :: live) := by
  obtain ⟨k', popped, heap, kept, rep⟩ := vectorPop_first queue.heap queue.rep
  have alone : Queue A k q ([] ++ [s]) live := queue
  have run := (poll_pending alone).1
  refine ⟨k', ?_, ⟨heap, rep⟩, kept.mono fun b member => List.mem_cons_of_mem _ member⟩
  rw [run, List.length_nil, bind_eq popped]
  rfl

/-- With several events `poll` follows a null pointer. -/
theorem poll_many {front : List Slot} {s : Slot} (several : front ≠ []) (queue : Queue A k q (front ++ [s]) live) :
    poll A.kmalloc q k = .error .fault := by
  rw [(poll_pending queue).1]
  exact bind_error (vectorPop_beyond (by simpa using several) (by simp) (by simp) queue.heap queue.rep)

theorem copyAndFree_ok {a : Nat} (heap : Heap A k ((a, 32) :: live)) :
    ∃ k', copyAndFree a k = .ok (loadEvent k.mem a, k') ∧ Heap A k' live ∧ Keeps k k' live := by
  have valid : a ≠ 0 := Nat.ne_of_gt (heap.bounds List.mem_cons_self).1
  obtain ⟨k', freed, after, kept⟩ := heap.free
  refine ⟨k', ?_, after, kept.mono fun b member => List.mem_cons_of_mem _ member⟩
  rw [copyAndFree, if_neg valid, bind_eq run_get, bind_eq freed]
  rfl

end steps

/-! ### Runs of one queue -/

/-- The events that `poll` returned from the queue. -/
def handled (returned : List Event) : List Event := returned.filter Event.doHandle

/-- The invariant: what was added is either handled or still in the queue. The
nodes of removed events are never freed; they are in `lost`. -/
structure QueueInv (A : PageAllocator) (k : Kernel) (q : Nat) (slots : List Slot) (lost own : List (Nat × Nat))
    (added returned : List Event) : Prop where
  queue : Queue A k q slots (lost ++ own)
  exact : added.Perm (handled returned ++ pending k.mem slots)
  flagged : ∀ e ∈ added, e.doHandle = true

namespace QueueInv

variable {A : PageAllocator} {k k' : Kernel} {q : Nat} {slots : List Slot} {lost own own' : List (Nat × Nat)}
  {added returned : List Event}

theorem length (inv : QueueInv A k q slots lost own added returned) :
    added.length = (handled returned).length + slots.length := by
  rw [inv.exact.length_eq, List.length_append, pending, List.length_map]

theorem create (heap : Heap A k own) (h : newEventQueue A.kmalloc k = .ok (q, k')) : QueueInv A k' q [] [] own [] [] :=
  ⟨(newEventQueue_ok heap h).1, .nil, fun e member => by cases member⟩

theorem add {eventType data0 data1 : UInt64} (inv : QueueInv A k q slots lost own added returned)
    (h : addEvent A.kmalloc q eventType data0 data1 k = .ok ((), k')) :
    ∃ s, QueueInv A k' q (slots ++ [s]) lost own (added ++ [newEvent eventType data0 data1]) returned := by
  obtain ⟨s, queue, _, events⟩ := addEvent_ok inv.queue h
  refine ⟨s, queue, ?_, ?_⟩
  · rw [events, ← List.append_assoc]
    exact inv.exact.append_right _
  · intro e member
    rcases List.mem_append.mp member with old | new
    · exact inv.flagged e old
    · rw [List.mem_singleton.mp new]
      rfl

theorem other (inv : QueueInv A k q slots lost own added returned) (step : ClientStep A k own k' own') :
    QueueInv A k' q slots lost own' added returned := by
  have blocks : vectorBlocks q slots ++ (eventBlocks slots ++ (lost ++ own)) =
      vectorBlocks q slots ++ (eventBlocks slots ++ lost) ++ own := by simp
  have heap := inv.queue.heap
  rw [blocks] at heap
  obtain ⟨after, kept⟩ := step.ok heap
  refine ⟨⟨?_, inv.queue.rep.keeps (kept.mono fun b member => List.mem_append_left _ member)⟩, ?_, inv.flagged⟩
  · simpa using after
  · rw [pending_keeps (kept.mono fun b member => List.mem_append_right _ (List.mem_append_left _ member))]
    exact inv.exact

theorem empty {a : Nat} (inv : QueueInv A k q [] lost own added returned) (h : emptyEvent A.kmalloc k = .ok (a, k')) :
    loadEvent k'.mem a = noEvent ∧ QueueInv A k' q [] lost ((a, 32) :: own) added returned := by
  obtain ⟨after, kept, event⟩ := emptyEvent_ok inv.queue.heap h
  refine ⟨event, ⟨?_, inv.queue.rep.keeps (kept.mono fun b member => List.mem_append_left _ member)⟩, inv.exact,
    inv.flagged⟩
  exact after.perm ((@List.perm_middle _ (a, 32) (vectorBlocks q [] ++ (eventBlocks [] ++ lost)) own).symm.trans (by simp))

theorem pollEmpty {a : Nat} (inv : QueueInv A k q [] lost own added returned) (h : poll A.kmalloc q k = .ok (a, k')) :
    loadEvent k'.mem a = noEvent ∧ QueueInv A k' q [] lost ((a, 32) :: own) added (returned ++ [noEvent]) := by
  rw [poll_empty inv.queue] at h
  obtain ⟨event, after⟩ := inv.empty h
  refine ⟨event, after.queue, ?_, after.flagged⟩
  rw [handled, List.filter_append]
  exact inv.exact.trans (by simp [handled, noEvent, pending])

theorem pollOne {s : Slot} (inv : QueueInv A k q [s] lost own added returned) :
    ∃ k', poll A.kmalloc q k = .ok (s.data, k') ∧ loadEvent k'.mem s.data = loadEvent k.mem s.data ∧
      QueueInv A k' q [] ((s.node, 24) :: lost) ((s.data, 32) :: own) added (returned ++ [loadEvent k.mem s.data]) := by
  obtain ⟨k', run, queue, kept⟩ := poll_one inv.queue
  have same : loadEvent k'.mem s.data = loadEvent k.mem s.data :=
    loadEvent_congr fun x inside => kept (s.data, 32) List.mem_cons_self x inside
  have flag : (loadEvent k.mem s.data).doHandle = true := by
    refine inv.flagged _ (inv.exact.mem_iff.mpr (List.mem_append_right _ ?_))
    simp [pending]
  refine ⟨k', run, same, ⟨?_, queue.rep⟩, ?_, inv.flagged⟩
  · refine queue.heap.perm (List.Perm.append_left _ (List.Perm.append_left _ ?_))
    exact List.Perm.cons _ List.perm_middle.symm
  · rw [handled, List.filter_append]
    simpa [handled, pending, flag] using inv.exact

theorem copyAndFree {a : Nat} (inv : QueueInv A k q slots lost ((a, 32) :: own) added returned) :
    ∃ k', copyAndFree a k = .ok (loadEvent k.mem a, k') ∧ QueueInv A k' q slots lost own added returned := by
  have front : (vectorBlocks q slots ++ (eventBlocks slots ++ (lost ++ (a, 32) :: own))).Perm
      ((a, 32) :: (vectorBlocks q slots ++ (eventBlocks slots ++ (lost ++ own)))) := by
    have middle := @List.perm_middle _ (a, 32) (vectorBlocks q slots ++ (eventBlocks slots ++ lost)) own
    simpa using middle
  obtain ⟨k', run, after, kept⟩ := copyAndFree_ok (inv.queue.heap.perm front)
  refine ⟨k', run, ⟨after, inv.queue.rep.keeps (kept.mono fun b member => List.mem_append_left _ member)⟩, ?_, inv.flagged⟩
  rw [pending_keeps (kept.mono fun b member => List.mem_append_right _ (List.mem_append_left _ member))]
  exact inv.exact

theorem syscallPollEmpty {e : Event} (inv : QueueInv A k q [] lost own added returned)
    (h : syscallPoll A.kmalloc q k = .ok (e, k')) :
    e = noEvent ∧ QueueInv A k' q [] lost own added (returned ++ [noEvent]) := by
  obtain ⟨a, k₁, polled, h⟩ := bind_ok h
  obtain ⟨event, inv₁⟩ := inv.pollEmpty polled
  obtain ⟨k₂, run, after⟩ := inv₁.copyAndFree
  obtain ⟨rfl, rfl⟩ := Prod.mk.inj (Except.ok.inj (run.symm.trans h))
  exact ⟨event, after⟩

theorem syscallPollOne {s : Slot} (inv : QueueInv A k q [s] lost own added returned) :
    ∃ k', syscallPoll A.kmalloc q k = .ok (loadEvent k.mem s.data, k') ∧
      QueueInv A k' q [] ((s.node, 24) :: lost) own added (returned ++ [loadEvent k.mem s.data]) := by
  obtain ⟨k₁, polled, event, inv₁⟩ := inv.pollOne
  obtain ⟨k₂, run, after⟩ := inv₁.copyAndFree
  refine ⟨k₂, ?_, after⟩
  rw [syscallPoll, bind_eq polled, run, event]

theorem syscallPeekEmpty {e : Event} (inv : QueueInv A k q [] lost own added returned)
    (h : syscallPeek A.kmalloc q k = .ok (e, k')) : e = noEvent ∧ QueueInv A k' q [] lost own added returned := by
  obtain ⟨a, k₁, peeked, h⟩ := bind_ok h
  rw [peek_empty inv.queue] at peeked
  obtain ⟨event, inv₁⟩ := inv.empty peeked
  obtain ⟨k₂, run, after⟩ := inv₁.copyAndFree
  obtain ⟨rfl, rfl⟩ := Prod.mk.inj (Except.ok.inj (run.symm.trans h))
  exact ⟨event, after⟩

end QueueInv

/-- A queue between its calls, with the events added to it and the events that
`poll` returned. Every `poll` finds at most one event. The caller of `poll` owns
the block it gets; the rest of the kernel uses the heap in between. -/
inductive PollRun (A : PageAllocator) (boot : Kernel) (q : Nat) :
    Kernel → List (Nat × Nat) → List Event → List Event → Prop where
  | create {k k' : Kernel} {own : List (Nat × Nat)} (before : HeapRun A boot k own)
      (h : newEventQueue A.kmalloc k = .ok (q, k')) : PollRun A boot q k' own [] []
  | add {k k' : Kernel} {own : List (Nat × Nat)} {added returned : List Event} {eventType data0 data1 : UInt64}
      (before : PollRun A boot q k own added returned)
      (h : addEvent A.kmalloc q eventType data0 data1 k = .ok ((), k')) :
      PollRun A boot q k' own (added ++ [newEvent eventType data0 data1]) returned
  | poll {k k' : Kernel} {own : List (Nat × Nat)} {added returned : List Event} {a : Nat}
      (before : PollRun A boot q k own added returned) (few : added.length ≤ (handled returned).length + 1)
      (h : poll A.kmalloc q k = .ok (a, k')) :
      PollRun A boot q k' ((a, 32) :: own) added (returned ++ [loadEvent k'.mem a])
  | other {k k' : Kernel} {own own' : List (Nat × Nat)} {added returned : List Event}
      (before : PollRun A boot q k own added returned) (step : ClientStep A k own k' own') :
      PollRun A boot q k' own' added returned

theorem HeapRun.heap {A : PageAllocator} {boot k : Kernel} {live : List (Nat × Nat)} (ready : A.Ready boot)
    (none : ∀ g ∈ boot.granted, ¬ OfHeap g) (run : HeapRun A boot k live) : Heap A k live := by
  obtain ⟨after, rep⟩ := run.inv ready none
  exact ⟨after, rep⟩

theorem nil_or_singleton (slots : List Slot) (few : slots.length ≤ 1) : slots = [] ∨ ∃ s, slots = [s] := by
  match slots with
  | [] => exact .inl rfl
  | [s] => exact .inr ⟨s, rfl⟩
  | _ :: _ :: _ => simp at few

theorem PollRun.inv {A : PageAllocator} {boot k : Kernel} {q : Nat} {own : List (Nat × Nat)}
    {added returned : List Event} (ready : A.Ready boot) (none : ∀ g ∈ boot.granted, ¬ OfHeap g)
    (run : PollRun A boot q k own added returned) : ∃ slots lost, QueueInv A k q slots lost own added returned := by
  induction run with
  | create before h => exact ⟨[], [], .create (HeapRun.heap ready none before) h⟩
  | add before h ih =>
    obtain ⟨slots, lost, inv⟩ := ih
    obtain ⟨s, after⟩ := inv.add h
    exact ⟨slots ++ [s], lost, after⟩
  | poll before few h ih =>
    obtain ⟨slots, lost, inv⟩ := ih
    have count := inv.length
    rcases nil_or_singleton slots (by omega) with rfl | ⟨s, rfl⟩
    · obtain ⟨event, after⟩ := inv.pollEmpty h
      rw [event]
      exact ⟨[], lost, after⟩
    · obtain ⟨k', run, event, after⟩ := inv.pollOne
      obtain ⟨rfl, rfl⟩ := Prod.mk.inj (Except.ok.inj (run.symm.trans h))
      rw [event]
      exact ⟨[], (s.node, 24) :: lost, after⟩
  | other before step ih =>
    obtain ⟨slots, lost, inv⟩ := ih
    exact ⟨slots, lost, inv.other step⟩

/-- What the next calls do to the queue in a state of such a run. -/
theorem event_queue_exact {A : PageAllocator} {boot k : Kernel} {q : Nat} {own : List (Nat × Nat)}
    {added returned : List Event} (ready : A.Ready boot) (none : ∀ g ∈ boot.granted, ¬ OfHeap g)
    (run : PollRun A boot q k own added returned) :
    ∃ slots, VectorRep k.mem q slots ∧ added.Perm (handled returned ++ pending k.mem slots) ∧
      ((handled returned).length = added.length → added.Perm (handled returned) ∧ slots = []) ∧
      (∀ eventType data0 data1 reason, addEvent A.kmalloc q eventType data0 data1 k = .error reason →
        ∃ n k₁, A.kmalloc .heap n k₁ = .error reason) ∧
      (slots.length ≤ 1 → ∀ reason, poll A.kmalloc q k = .error reason →
        slots = [] ∧ ∃ n, A.kmalloc .heap n k = .error reason) ∧
      (slots.length ≤ 1 → ∀ a k', poll A.kmalloc q k = .ok (a, k') →
        slots = [] ∧ (loadEvent k'.mem a).doHandle = false ∧ VectorRep k'.mem q [] ∨
        loadEvent k'.mem a ∈ pending k.mem slots ∧ ∃ slots', VectorRep k'.mem q slots' ∧
          pending k'.mem slots' = (pending k.mem slots).erase (loadEvent k'.mem a)) ∧
      (2 ≤ slots.length → poll A.kmalloc q k = .error .fault) := by
  obtain ⟨slots, lost, inv⟩ := run.inv ready none
  have count := inv.length
  refine ⟨slots, inv.queue.rep, inv.exact, ?_, ?_, ?_, ?_, ?_⟩
  · intro all
    obtain rfl : slots = [] := List.length_eq_zero_iff.mp (by omega)
    have exact := inv.exact
    rw [pending, List.map_nil, List.append_nil] at exact
    exact ⟨exact, rfl⟩
  · intro eventType data0 data1 reason h
    exact addEvent_error inv.queue h
  · intro few reason h
    rcases nil_or_singleton _ few with rfl | ⟨s, rfl⟩
    · rw [poll_empty inv.queue] at h
      exact ⟨rfl, emptyEvent_error inv.queue.heap h⟩
    · obtain ⟨k', run, _⟩ := inv.pollOne
      rw [run] at h
      cases h
  · intro few a k' h
    rcases nil_or_singleton _ few with rfl | ⟨s, rfl⟩
    · obtain ⟨event, after⟩ := inv.pollEmpty h
      rw [event]
      exact .inl ⟨rfl, rfl, after.queue.rep⟩
    · obtain ⟨k'', run, event, after⟩ := inv.pollOne
      obtain ⟨rfl, rfl⟩ := Prod.mk.inj (Except.ok.inj (run.symm.trans h))
      rw [event]
      exact .inr ⟨by simp [pending], [], after.queue.rep, by simp [pending]⟩
  · intro many
    rcases eq_nil_or_snoc slots with rfl | ⟨front, s, rfl⟩
    · simp at many
    · refine poll_many ?_ inv.queue
      rintro rfl
      simp at many

def oneEvent : KernelM Nat := do
  initKheap pmm.kmalloc
  let q ← newEventQueue pmm.kmalloc
  addEvent pmm.kmalloc q 1 2 3
  poll pmm.kmalloc q

theorem returns {p : KernelM Nat} {k : Kernel} (h : (p k).toBool = true) : ∃ a k', p k = .ok (a, k') := by
  cases run : p k with
  | error reason =>
    rw [run] at h
    cases h
  | ok pair => exact ⟨pair.1, pair.2, rfl⟩

theorem smallMachineReady_none : ∀ g ∈ smallMachineReady.granted, ¬ OfHeap g := by
  simp [smallMachineReady, smallMachine]

theorem event_queue_exact_oneEvent : ∃ q k own returned, PollRun pmm smallMachineReady q k own [newEvent 1 2 3] returned ∧
    ∃ slots, VectorRep k.mem q slots ∧ [newEvent 1 2 3].Perm (handled returned ++ pending k.mem slots) := by
  obtain ⟨a, k', h⟩ := returns (show (oneEvent smallMachineReady).toBool = true by decide +kernel)
  unfold oneEvent at h
  obtain ⟨_, k₁, init, h⟩ := bind_ok h
  obtain ⟨q, k₂, created, h⟩ := bind_ok h
  obtain ⟨_, k₃, added, h⟩ := bind_ok h
  have run : PollRun pmm smallMachineReady q k' [(a, 32)] [newEvent 1 2 3] [loadEvent k'.mem a] :=
    .poll (.add (.create (.init init) created) added) (by decide) h
  obtain ⟨slots, rep, exact, _⟩ := event_queue_exact smallMachineReady_ready smallMachineReady_none run
  exact ⟨q, k', _, _, run, slots, rep, exact⟩

/-- Whether a call ended in a null pointer access. -/
def isFault {α : Type} : Except Stop α → Bool
  | .error .fault => true
  | _ => false

def twoEvents : KernelM Nat := do
  initKheap pmm.kmalloc
  let q ← newEventQueue pmm.kmalloc
  addEvent pmm.kmalloc q 1 2 3
  addEvent pmm.kmalloc q 1 4 5
  poll pmm.kmalloc q

/-- Two events are added and `poll` does not return. -/
theorem poll_two_events_faults : twoEvents smallMachineReady = .error .fault := by
  have check : isFault (twoEvents smallMachineReady) = true := by decide +kernel
  cases h : twoEvents smallMachineReady with
  | ok pair =>
    rw [h] at check
    cases check
  | error reason =>
    rw [h] at check
    cases reason <;> first | rfl | cases check

/-! ### The blocks of queued events -/

/-- A queue between the system calls on it. Every `syscall_poll` finds at most one
event and every `syscall_peek` an empty queue. -/
inductive SyscallRun (A : PageAllocator) (boot : Kernel) (q : Nat) :
    Kernel → List (Nat × Nat) → List Event → List Event → Prop where
  | create {k k' : Kernel} {own : List (Nat × Nat)} (before : HeapRun A boot k own)
      (h : newEventQueue A.kmalloc k = .ok (q, k')) : SyscallRun A boot q k' own [] []
  | add {k k' : Kernel} {own : List (Nat × Nat)} {added returned : List Event} {eventType data0 data1 : UInt64}
      (before : SyscallRun A boot q k own added returned)
      (h : addEvent A.kmalloc q eventType data0 data1 k = .ok ((), k')) :
      SyscallRun A boot q k' own (added ++ [newEvent eventType data0 data1]) returned
  | poll {k k' : Kernel} {own : List (Nat × Nat)} {added returned : List Event} {e : Event}
      (before : SyscallRun A boot q k own added returned) (few : added.length ≤ (handled returned).length + 1)
      (h : syscallPoll A.kmalloc q k = .ok (e, k')) : SyscallRun A boot q k' own added (returned ++ [e])
  | peek {k k' : Kernel} {own : List (Nat × Nat)} {added returned : List Event} {e : Event}
      (before : SyscallRun A boot q k own added returned) (none : added.length = (handled returned).length)
      (h : syscallPeek A.kmalloc q k = .ok (e, k')) : SyscallRun A boot q k' own added returned
  | other {k k' : Kernel} {own own' : List (Nat × Nat)} {added returned : List Event}
      (before : SyscallRun A boot q k own added returned) (step : ClientStep A k own k' own') :
      SyscallRun A boot q k' own' added returned

theorem SyscallRun.inv {A : PageAllocator} {boot k : Kernel} {q : Nat} {own : List (Nat × Nat)}
    {added returned : List Event} (ready : A.Ready boot) (none : ∀ g ∈ boot.granted, ¬ OfHeap g)
    (run : SyscallRun A boot q k own added returned) :
    ∃ slots lost, QueueInv A k q slots lost own added returned := by
  induction run with
  | create before h => exact ⟨[], [], .create (HeapRun.heap ready none before) h⟩
  | add before h ih =>
    obtain ⟨slots, lost, inv⟩ := ih
    obtain ⟨s, after⟩ := inv.add h
    exact ⟨slots ++ [s], lost, after⟩
  | poll before few h ih =>
    obtain ⟨slots, lost, inv⟩ := ih
    have count := inv.length
    rcases nil_or_singleton slots (by omega) with rfl | ⟨s, rfl⟩
    · obtain ⟨rfl, after⟩ := inv.syscallPollEmpty h
      exact ⟨[], lost, after⟩
    · obtain ⟨k', run, after⟩ := inv.syscallPollOne
      obtain ⟨rfl, rfl⟩ := Prod.mk.inj (Except.ok.inj (run.symm.trans h))
      exact ⟨[], (s.node, 24) :: lost, after⟩
  | peek before empty h ih =>
    obtain ⟨slots, lost, inv⟩ := ih
    have count := inv.length
    obtain rfl : slots = [] := List.length_eq_zero_iff.mp (by omega)
    exact ⟨[], lost, (inv.syscallPeekEmpty h).2⟩
  | other before step ih =>
    obtain ⟨slots, lost, inv⟩ := ih
    exact ⟨slots, lost, inv.other step⟩

/-- The blocks of the queued events are live and hold what was added; a system
call frees the one it took out. A `syscall_peek` of a queued event frees a block
that stays in the queue. -/
theorem queued_events_live {A : PageAllocator} {boot k : Kernel} {q : Nat} {own : List (Nat × Nat)}
    {added returned : List Event} (ready : A.Ready boot) (none : ∀ g ∈ boot.granted, ¬ OfHeap g)
    (run : SyscallRun A boot q k own added returned) :
    ∃ slots live, Heap A k live ∧ VectorRep k.mem q slots ∧ (∀ s ∈ slots, (s.data, 32) ∈ live) ∧
      added.Perm (handled returned ++ pending k.mem slots) ∧
      (∀ s, slots = [s] → ∃ k' rest, syscallPoll A.kmalloc q k = .ok (loadEvent k.mem s.data, k') ∧
        live.Perm ((s.data, 32) :: rest) ∧ Heap A k' rest ∧ VectorRep k'.mem q []) ∧
      (slots = [] → ∀ e k', syscallPoll A.kmalloc q k = .ok (e, k') ∨ syscallPeek A.kmalloc q k = .ok (e, k') →
        e = noEvent ∧ Heap A k' live ∧ VectorRep k'.mem q []) ∧
      (∀ front s, slots = front ++ [s] → ∃ k' rest, syscallPeek A.kmalloc q k = .ok (loadEvent k.mem s.data, k') ∧
        live.Perm ((s.data, 32) :: rest) ∧ Heap A k' rest ∧ VectorRep k'.mem q slots) := by
  obtain ⟨slots, lost, inv⟩ := run.inv ready none
  refine ⟨slots, _, inv.queue.heap, inv.queue.rep, ?_, inv.exact, ?_, ?_, ?_⟩
  · intro s member
    refine List.mem_append_right _ (List.mem_append_left _ ?_)
    exact List.mem_map_of_mem member
  · rintro s rfl
    obtain ⟨k', run, after⟩ := inv.syscallPollOne
    refine ⟨k', _, run, ?_, after.queue.heap, after.queue.rep⟩
    exact @List.perm_middle _ (s.data, 32) [(q, 24), (s.node, 24)] _
  · rintro rfl e k' (h | h)
    · obtain ⟨rfl, after⟩ := inv.syscallPollEmpty h
      exact ⟨rfl, after.queue.heap, after.queue.rep⟩
    · obtain ⟨rfl, after⟩ := inv.syscallPeekEmpty h
      exact ⟨rfl, after.queue.heap, after.queue.rep⟩
  · rintro front s rfl
    have front' : (vectorBlocks q (front ++ [s]) ++ (eventBlocks (front ++ [s]) ++ (lost ++ own))).Perm
        ((s.data, 32) :: (vectorBlocks q (front ++ [s]) ++ (eventBlocks front ++ (lost ++ own)))) := by
      have middle := @List.perm_middle _ (s.data, 32) (vectorBlocks q (front ++ [s]) ++ eventBlocks front) (lost ++ own)
      simpa [eventBlocks] using middle
    obtain ⟨k', run, after, kept⟩ := copyAndFree_ok (inv.queue.heap.perm front')
    refine ⟨k', _, ?_, front', after, inv.queue.rep.keeps (kept.mono fun b member => List.mem_append_left _ member)⟩
    rw [syscallPeek, bind_eq (poll_pending inv.queue).2, run]

def pollOnce : KernelM Nat := do
  initKheap pmm.kmalloc
  let q ← newEventQueue pmm.kmalloc
  addEvent pmm.kmalloc q 1 2 3
  let _ ← syscallPoll pmm.kmalloc q
  return q

theorem queued_events_live_pollOnce : ∃ q k own returned,
    SyscallRun pmm smallMachineReady q k own [newEvent 1 2 3] returned ∧
      ∃ slots live, Heap pmm k live ∧ VectorRep k.mem q slots ∧ ∀ s ∈ slots, (s.data, 32) ∈ live := by
  obtain ⟨_, k', h⟩ := returns (show (pollOnce smallMachineReady).toBool = true by decide +kernel)
  unfold pollOnce at h
  obtain ⟨_, k₁, init, h⟩ := bind_ok h
  obtain ⟨q, k₂, created, h⟩ := bind_ok h
  obtain ⟨_, k₃, added, h⟩ := bind_ok h
  obtain ⟨e, k₄, polled, h⟩ := bind_ok h
  have run : SyscallRun pmm smallMachineReady q k₄ [] [newEvent 1 2 3] [e] :=
    .poll (.add (.create (.init init) created) added) (by decide) polled
  obtain ⟨slots, live, heap, rep, held, _⟩ := queued_events_live smallMachineReady_ready smallMachineReady_none run
  exact ⟨q, k₄, _, _, run, slots, live, heap, rep, held⟩

/-- An event is added and peeked, an unrelated block is allocated and written,
and the event is polled. -/
def peekThenPoll : KernelM (Event × Event) := do
  initKheap pmm.kmalloc
  let q ← newEventQueue pmm.kmalloc
  addEvent pmm.kmalloc q 1 2 3
  let peeked ← syscallPeek pmm.kmalloc q
  let block ← malloc pmm.kmalloc 24
  modify fun k => k.setMem (store k.mem (block + 8) 8 99)
  let polled ← syscallPoll pmm.kmalloc q
  return (peeked, polled)

theorem peek_changes_event : (peekThenPoll smallMachineReady).toOption.map Prod.fst =
    some (newEvent 1 2 3, newEvent 99 2 3) := by
  decide +kernel

end PotatOS.Tasks.Events
