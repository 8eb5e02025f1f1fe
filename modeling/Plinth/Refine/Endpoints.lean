import Plinth.Ledger.Endpoints

/-!
# `Plinth.Refine.Endpoints`: what the endpoint operations do

The reference counts and the wait queues under each operation of the endpoint table.

`QueueRep ipc Q` says that the queue of each endpoint holds the list that `Q` gives. The lists
of two endpoints are disjoint in a reachable state, so an operation on one queue does not
disturb another one.
-/

set_option autoImplicit false

namespace Plinth

namespace Ipc

variable {ipc ipc' : Ipc} {id : EndpointId} {cap : Capability}

theorem setEndpoint_self (ipc : Ipc) (id : EndpointId) (ep : Endpoint) :
    (ipc.setEndpoint id ep).endpoints id = ep := Function.update_self ..

theorem setEndpoint_of_ne (ipc : Ipc) {id id' : EndpointId} (ep : Endpoint) (h : id' ≠ id) :
    (ipc.setEndpoint id ep).endpoints id' = ipc.endpoints id' := Function.update_of_ne h ..

@[simp] theorem setEndpoint_links (ipc : Ipc) (id : EndpointId) (ep : Endpoint) :
    (ipc.setEndpoint id ep).links = ipc.links := rfl

@[simp] theorem setEndpoint_failedAsserts (ipc : Ipc) (id : EndpointId) (ep : Endpoint) :
    (ipc.setEndpoint id ep).failedAsserts = ipc.failedAsserts := rfl

@[simp] theorem debugAssert_true (ipc : Ipc) : ipc.debugAssert true = ipc := rfl

/-! ### Reference counts -/

theorem reachWeight_of_object {id : EndpointId} (right : Rights)
    (h : cap.object = .endpoint id) :
    reachWeight id right cap = if cap.rights.has right then 1 else 0 := by
  unfold reachWeight Kernel.reaches
  rw [h, beq_self_eq_true, Bool.true_and]

theorem reachWeight_of_ne {id : EndpointId} (right : Rights)
    (h : cap.object ≠ .endpoint id) : reachWeight id right cap = 0 := by
  unfold reachWeight Kernel.reaches
  rw [beq_false_of_ne h]
  rfl

/-- A capability that enters a table adds its weight to the counts, and changes nothing
else. -/
theorem noteCapAdded_endpoints (ipc : Ipc) (cap : Capability) (id : EndpointId) :
    (ipc.noteCapAdded cap).endpoints id = { ipc.endpoints id with
      senders := (ipc.endpoints id).senders + reachWeight id rightSend cap
      receivers := (ipc.endpoints id).receivers + reachWeight id rightRecv cap } := by
  unfold noteCapAdded
  split
  · rename_i id' hobj
    by_cases heq : id = id'
    · subst heq
      rw [setEndpoint_self, reachWeight_of_object _ hobj, reachWeight_of_object _ hobj]
      unfold Endpoint.addCap
      split <;> split <;> rfl
    · have hne : cap.object ≠ .endpoint id := by
        rw [hobj]
        exact fun h => heq (CapObject.endpoint.inj h).symm
      rw [setEndpoint_of_ne _ _ heq, reachWeight_of_ne _ hne, reachWeight_of_ne _ hne]
      rfl
  · rename_i hno
    have hne : cap.object ≠ .endpoint id := hno id
    rw [reachWeight_of_ne _ hne, reachWeight_of_ne _ hne]
    rfl

@[simp] theorem noteCapAdded_links (ipc : Ipc) (cap : Capability) :
    (ipc.noteCapAdded cap).links = ipc.links := by
  unfold noteCapAdded
  split <;> rfl

@[simp] theorem noteCapAdded_failedAsserts (ipc : Ipc) (cap : Capability) :
    (ipc.noteCapAdded cap).failedAsserts = ipc.failedAsserts := by
  unfold noteCapAdded
  split <;> rfl

theorem noteCapAdded_of_ne (ipc : Ipc) (h : ∀ id, cap.object ≠ .endpoint id) :
    ipc.noteCapAdded cap = ipc := by
  unfold noteCapAdded
  split
  · rename_i id hobj
    exact absurd hobj (h id)
  · rfl

theorem noteCapRemoved_of_ne (ipc : Ipc) (b : Bool) (h : ∀ id, cap.object ≠ .endpoint id) :
    ipc.noteCapRemoved cap b = ipc := by
  unfold noteCapRemoved
  split
  · rename_i id hobj
    exact absurd hobj (h id)
  · rfl

/-- The counts cover what the capability weighs. -/
def Covers (ipc : Ipc) (cap : Capability) : Prop :=
  ∀ id, reachWeight id rightSend cap ≤ (ipc.endpoints id).senders ∧
    reachWeight id rightRecv cap ≤ (ipc.endpoints id).receivers

theorem Covers.removeAsserts (h : ipc.Covers cap) (hobj : cap.object = .endpoint id) :
    (ipc.endpoints id).removeAsserts cap.rights = true := by
  obtain ⟨hs, hr⟩ := h id
  rw [reachWeight_of_object _ hobj] at hs hr
  unfold Endpoint.removeAsserts
  cases hsend : cap.rights.has rightSend <;> cases hrecv : cap.rights.has rightRecv <;>
    simp [hsend, hrecv] at hs hr ⊢ <;> omega

theorem removeCap_eq (ep : Endpoint) (hobj : cap.object = .endpoint id) :
    ep.removeCap cap.rights = { ep with
      senders := ep.senders - reachWeight id rightSend cap
      receivers := ep.receivers - reachWeight id rightRecv cap } := by
  rw [reachWeight_of_object _ hobj, reachWeight_of_object _ hobj]
  unfold Endpoint.removeCap
  split <;> split <;> rfl

/-- A capability that leaves a table for another one takes its weight off the counts. -/
theorem noteCapRemoved_endpoints (h : ipc.Covers cap) (id : EndpointId) :
    (ipc.noteCapRemoved cap false).endpoints id = { ipc.endpoints id with
      senders := (ipc.endpoints id).senders - reachWeight id rightSend cap
      receivers := (ipc.endpoints id).receivers - reachWeight id rightRecv cap } := by
  unfold noteCapRemoved
  split
  · rename_i id' hobj
    dsimp only
    rw [h.removeAsserts hobj, debugAssert_true, Bool.false_and]
    by_cases heq : id = id'
    · subst heq
      rw [setEndpoint_self, removeCap_eq _ hobj]
      rfl
    · have hne : cap.object ≠ .endpoint id := by
        rw [hobj]
        exact fun h => heq (CapObject.endpoint.inj h).symm
      rw [setEndpoint_of_ne _ _ heq, reachWeight_of_ne _ hne, reachWeight_of_ne _ hne]
      rfl
  · rename_i hno
    have hne : cap.object ≠ .endpoint id := hno id
    rw [reachWeight_of_ne _ hne, reachWeight_of_ne _ hne]
    rfl

theorem noteCapRemoved_links (ipc : Ipc) (cap : Capability) (b : Bool) :
    (ipc.noteCapRemoved cap b).links = ipc.links := by
  unfold noteCapRemoved debugAssert
  split
  · dsimp only
    split <;> rfl
  · rfl

theorem noteCapRemoved_failedAsserts (h : ipc.Covers cap) (b : Bool) :
    (ipc.noteCapRemoved cap b).failedAsserts = ipc.failedAsserts := by
  unfold noteCapRemoved
  split
  · rename_i id hobj
    dsimp only
    rw [h.removeAsserts hobj, debugAssert_true]
    rfl
  · rfl

/-! ### Wait queues -/

/-- The queue of each endpoint holds the list that `Q` gives. -/
def QueueRep (ipc : Ipc) (Q : EndpointId → List ProcSlot) : Prop :=
  ∀ id, Fifo.Holds ipc.links (ipc.endpoints id).queue.head (ipc.endpoints id).queue.tail (Q id)

variable {Q : EndpointId → List ProcSlot}

/-- The lists are what the model reads back from the links. -/
theorem QueueRep.waiting_eq (h : ipc.QueueRep Q) : ipc.waiting = Q := by
  funext id
  exact (h id).walk_eq (le_of_eq (Fintype.card_fin maxProcesses))

theorem QueueRep.congr (h : ipc.QueueRep Q) (hlinks : ipc'.links = ipc.links)
    (hqueue : ∀ id, (ipc'.endpoints id).queue = (ipc.endpoints id).queue) :
    ipc'.QueueRep Q := by
  intro id
  rw [hlinks, hqueue]
  exact h id

theorem QueueRep.isEmpty_iff (h : ipc.QueueRep Q) (id : EndpointId) :
    (ipc.endpoints id).queue.isEmpty = true ↔ Q id = [] := by
  unfold WaitQueue.isEmpty
  rw [(h id).head_eq]
  cases Q id with
  | nil => simp
  | cons p rest => simp

/-- What a dequeue does: the head of the list leaves. -/
theorem dequeueWaiter_some (h : ipc.QueueRep Q) {p : ProcSlot}
    (hdeq : ipc.dequeueWaiter id = some (p, ipc')) :
    ∃ rest, Q id = p :: rest ∧ ipc'.QueueRep (Function.update Q id rest) ∧
      ipc'.links = ipc.links ∧ ipc'.failedAsserts = ipc.failedAsserts ∧
      ∀ id', (ipc'.endpoints id').inUse = (ipc.endpoints id').inUse ∧
        (ipc'.endpoints id').senders = (ipc.endpoints id').senders ∧
        (ipc'.endpoints id').receivers = (ipc.endpoints id').receivers ∧
        (ipc'.endpoints id').queue.areSenders = (ipc.endpoints id').queue.areSenders := by
  unfold dequeueWaiter WaitQueue.dequeue at hdeq
  cases hhead : (ipc.endpoints id).queue.head with
  | none =>
    rw [hhead] at hdeq
    cases hdeq
  | some head =>
    rw [hhead] at hdeq
    simp only [Option.some.injEq, Prod.mk.injEq] at hdeq
    obtain ⟨rfl, rfl⟩ := hdeq
    have hid := h id
    rw [hhead] at hid
    obtain ⟨rest, hrest⟩ := hid.eq_cons_of_head
    rw [hrest] at hid
    refine ⟨rest, hrest, fun id' => ?_, rfl, rfl, fun id' => ?_⟩
    · by_cases heq : id' = id
      · subst heq
        rw [setEndpoint_self, Function.update_self]
        exact hid.pop
      · rw [setEndpoint_of_ne _ _ heq, Function.update_of_ne heq]
        exact h id'
    · by_cases heq : id' = id
      · subst heq
        rw [setEndpoint_self]
        exact ⟨rfl, rfl, rfl, rfl⟩
      · rw [setEndpoint_of_ne _ _ heq]
        exact ⟨rfl, rfl, rfl, rfl⟩

theorem dequeueWaiter_none (h : ipc.QueueRep Q) (hdeq : ipc.dequeueWaiter id = none) :
    Q id = [] := by
  unfold dequeueWaiter WaitQueue.dequeue at hdeq
  cases hhead : (ipc.endpoints id).queue.head with
  | none =>
    have hid := h id
    rw [hhead] at hid
    exact hid.eq_nil_of_head
  | some head =>
    rw [hhead] at hdeq
    cases hdeq

/-- `take_waiting` is a dequeue from a queue of the wanted side. -/
theorem takeWaiting_some {b : Bool} {p : ProcSlot}
    (htake : ipc.takeWaiting id b = some (p, ipc')) :
    (ipc.endpoints id).queue.areSenders = b ∧ ipc.dequeueWaiter id = some (p, ipc') := by
  unfold takeWaiting WaitQueue.takeIf at htake
  by_cases hcond : ((ipc.endpoints id).queue.head.isSome &&
      (ipc.endpoints id).queue.areSenders == b) = true
  · rw [if_pos hcond] at htake
    rw [Bool.and_eq_true, beq_iff_eq] at hcond
    exact ⟨hcond.2, htake⟩
  · rw [if_neg hcond] at htake
    cases htake

theorem takeWaiting_none (h : ipc.QueueRep Q) {b : Bool} (htake : ipc.takeWaiting id b = none) :
    Q id = [] ∨ (ipc.endpoints id).queue.areSenders = !b := by
  unfold takeWaiting WaitQueue.takeIf at htake
  by_cases hcond : ((ipc.endpoints id).queue.head.isSome &&
      (ipc.endpoints id).queue.areSenders == b) = true
  · rw [if_pos hcond] at htake
    exact Or.inl (dequeueWaiter_none h htake)
  · rw [Bool.and_eq_true, not_and_or, beq_iff_eq] at hcond
    rcases hcond with hhead | hside
    · left
      have hid := h id
      cases hh : (ipc.endpoints id).queue.head with
      | none =>
        rw [hh] at hid
        exact hid.eq_nil_of_head
      | some head =>
        rw [hh] at hhead
        exact absurd rfl hhead
    · right
      cases hb : (ipc.endpoints id).queue.areSenders <;> cases b <;> simp_all

/-- What an enqueue does: the list gets a new last member, and the other queues stay. -/
theorem enqueueWaiter_queueRep (h : ipc.QueueRep Q) {p : ProcSlot} (b : Bool)
    (hfree : ∀ id', p ∉ Q id') (hdisj : ∀ id', id' ≠ id → ∀ x ∈ Q id', x ∉ Q id) :
    (ipc.enqueueWaiter id p b).QueueRep (Function.update Q id (Q id ++ [p])) := by
  intro id'
  unfold enqueueWaiter WaitQueue.enqueue
  dsimp only
  by_cases heq : id' = id
  · subst heq
    rw [setEndpoint_self, Function.update_self]
    exact (h id').push (hfree id')
  · rw [setEndpoint_of_ne _ _ heq, Function.update_of_ne heq]
    exact (h id').push_frame (hfree id') (h id).tail_eq (hdisj id' heq)

theorem enqueueWaiter_endpoints (ipc : Ipc) (id : EndpointId) (p : ProcSlot) (b : Bool)
    (id' : EndpointId) :
    ((ipc.enqueueWaiter id p b).endpoints id').inUse = (ipc.endpoints id').inUse ∧
      ((ipc.enqueueWaiter id p b).endpoints id').senders = (ipc.endpoints id').senders ∧
      ((ipc.enqueueWaiter id p b).endpoints id').receivers = (ipc.endpoints id').receivers ∧
      ((ipc.enqueueWaiter id p b).endpoints id').queue.areSenders
        = if id' = id then b else (ipc.endpoints id').queue.areSenders := by
  unfold enqueueWaiter WaitQueue.enqueue
  dsimp only
  by_cases heq : id' = id
  · subst heq
    rw [setEndpoint_self, if_pos rfl]
    exact ⟨rfl, rfl, rfl, rfl⟩
  · rw [setEndpoint_of_ne _ _ heq, if_neg heq]
    exact ⟨rfl, rfl, rfl, rfl⟩

/-- The link of a slot that waits nowhere can be cleared. -/
theorem clearLink_queueRep (h : ipc.QueueRep Q) {p : ProcSlot} (hfree : ∀ id, p ∉ Q id) :
    (ipc.clearLink p).QueueRep Q :=
  fun id => (h id).update_of_notMem (hfree id) none

/-! ### Creation and release -/

theorem createEndpoint_some (hcreate : ipc.createEndpoint = some (id, ipc')) :
    (ipc.endpoints id).inUse = false ∧
      ipc' = ipc.setEndpoint id { Endpoint.empty with inUse := true } := by
  unfold createEndpoint at hcreate
  split at hcreate
  · rename_i i hfind
    simp only [Option.some.injEq, Prod.mk.injEq] at hcreate
    obtain ⟨rfl, rfl⟩ := hcreate
    have hfree := List.find?_some hfind
    exact ⟨by simpa using hfree, rfl⟩
  · cases hcreate

/-- An endpoint whose queue is empty can be replaced by a fresh one. -/
theorem setEndpoint_queueRep (h : ipc.QueueRep Q) (hnil : Q id = []) {ep : Endpoint}
    (hhead : ep.queue.head = none) (htail : ep.queue.tail = none) :
    (ipc.setEndpoint id ep).QueueRep Q := by
  intro id'
  by_cases heq : id' = id
  · subst heq
    rw [setEndpoint_self, hhead, htail, hnil]
    exact Fifo.Holds.nil _
  · rw [setEndpoint_of_ne _ _ heq]
    exact h id'

end Ipc

end Plinth
