import Plinth.Endpoint

/-!
# `Plinth.Queues.Waiters`: the wait queues as lists

Any number of wait queues over one link array of any length. A queue has two fields of its own, and
the links between its members lie in the array, where each slot has one. A slot that was dequeued
keeps its link, which may lead into a queue, until the slot is enqueued again or its link is
cleared.

`Waiting` is what a queue stands for: a list with a side, which knows nothing of the other queues.
`queues_are_lists` says that over every interleaving of calls each queue answers as its list, and
that a call on one queue changes no other. `Ipc.queues` are the queues of the endpoint table, and
the calls of the kernel are calls on them.
-/

set_option autoImplicit false

namespace Plinth

/-! ### The queues -/

/-- The wait queues, and the link array that they share. -/
structure WaitQueues (κ ι : Type) where
  queue : κ → WaitQueue ι
  links : ι → Option ι

/-- A call on one queue. -/
inductive QueueCall (ι : Type) where
  | enqueue (slot : ι) (areSenders : Bool)
  | dequeue
  | takeIf (wantSenders : Bool)
  deriving DecidableEq, Repr

/-- A call on the queue `k`, or the link of a slot is cleared. -/
inductive QueueStep (κ ι : Type) where
  | on (k : κ) (call : QueueCall ι)
  | clear (slot : ι)
  deriving DecidableEq, Repr

section

variable {κ ι : Type} [DecidableEq κ] [DecidableEq ι]

/-- The queue `k` afterwards, if the call takes a slot from it. -/
def WaitQueues.taken (qs : WaitQueues κ ι) (k : κ) (r : Option (ι × WaitQueue ι)) :
    Option ι × WaitQueues κ ι :=
  match r with
  | some (slot, q) => (some slot, { qs with queue := Function.update qs.queue k q })
  | none => (none, qs)

/-- The result of a step, and the queues afterwards. -/
def WaitQueues.step (qs : WaitQueues κ ι) : QueueStep κ ι → Option ι × WaitQueues κ ι
  | .on k (.enqueue slot areSenders) =>
    let r := (qs.queue k).enqueue slot areSenders qs.links
    (none, ⟨Function.update qs.queue k r.1, r.2⟩)
  | .on k .dequeue => qs.taken k ((qs.queue k).dequeue qs.links)
  | .on k (.takeIf wantSenders) => qs.taken k ((qs.queue k).takeIf wantSenders qs.links)
  | .clear slot => (none, { qs with links := Function.update qs.links slot none })

end

/-! ### The lists -/

/-- What a wait queue stands for: the waiters in order, and their side. -/
structure Waiting (ι : Type) where
  slots : List ι
  areSenders : Bool
  deriving DecidableEq, Repr

section

variable {κ ι : Type} [DecidableEq κ]

/-- Pop the front. -/
def Waiting.pop (w : Waiting ι) : Option ι × Waiting ι :=
  match w.slots with
  | [] => (none, w)
  | slot :: rest => (some slot, { w with slots := rest })

/-- Append, pop the front, or pop the front of the wanted side. -/
def Waiting.call (w : Waiting ι) : QueueCall ι → Option ι × Waiting ι
  | .enqueue slot areSenders => (none, ⟨w.slots ++ [slot], areSenders⟩)
  | .dequeue => w.pop
  | .takeIf wantSenders =>
    if w.slots ≠ [] ∧ w.areSenders = wantSenders then w.pop else (none, w)

/-- A step on independent lists: it changes the list of its own queue only. -/
def listsStep (ws : κ → Waiting ι) : QueueStep κ ι → Option ι × (κ → Waiting ι)
  | .on k call => (((ws k).call call).1, Function.update ws k ((ws k).call call).2)
  | .clear _ => (none, ws)

/-- The slot is on no queue. -/
def Off (ws : κ → Waiting ι) (slot : ι) : Prop := ∀ k, slot ∉ (ws k).slots

/-- What the callers keep to: a slot that is enqueued is on no queue, and the queue is empty or
holds its side; the link of a slot is cleared only when the slot is on no queue. -/
def Allowed (ws : κ → Waiting ι) : QueueStep κ ι → Prop
  | .on k (.enqueue slot areSenders) =>
    Off ws slot ∧ ((ws k).slots = [] ∨ (ws k).areSenders = areSenders)
  | .on _ .dequeue => True
  | .on _ (.takeIf _) => True
  | .clear slot => Off ws slot

/-- Each step of the run keeps to it. -/
def AllAllowed (ws : κ → Waiting ι) : List (QueueStep κ ι) → Prop
  | [] => True
  | step :: rest => Allowed ws step ∧ AllAllowed (listsStep ws step).2 rest

instance [Fintype κ] [DecidableEq ι] (ws : κ → Waiting ι) :
    (step : QueueStep κ ι) → Decidable (Allowed ws step)
  | .on k (.enqueue slot areSenders) => inferInstanceAs (Decidable
      ((∀ k, slot ∉ (ws k).slots) ∧ ((ws k).slots = [] ∨ (ws k).areSenders = areSenders)))
  | .on _ .dequeue => inferInstanceAs (Decidable True)
  | .on _ (.takeIf _) => inferInstanceAs (Decidable True)
  | .clear slot => inferInstanceAs (Decidable (∀ k, slot ∉ (ws k).slots))

instance decidableAllAllowed [Fintype κ] [DecidableEq ι] :
    (ws : κ → Waiting ι) → (steps : List (QueueStep κ ι)) → Decidable (AllAllowed ws steps)
  | _, [] => inferInstanceAs (Decidable True)
  | ws, step :: rest =>
    have := decidableAllAllowed (listsStep ws step).2 rest
    inferInstanceAs (Decidable (Allowed ws step ∧ AllAllowed (listsStep ws step).2 rest))

/-! ### The relation between them -/

/-- Each queue holds its list, with its side. -/
structure WaitQueues.Hold (qs : WaitQueues κ ι) (ws : κ → Waiting ι) : Prop where
  slots : ∀ k, Fifo.Holds qs.links (qs.queue k).head (qs.queue k).tail (ws k).slots
  side : ∀ k, (qs.queue k).areSenders = (ws k).areSenders

end

section

variable {κ ι : Type} [DecidableEq κ] [DecidableEq ι]

/-- A step on the queue `k` leaves the contents of every other queue. -/
def WaitQueues.Untouched (qs : WaitQueues κ ι) (step : QueueStep κ ι) : Prop :=
  ∀ k, (∀ call, step ≠ .on k call) →
    (qs.step step).2.queue k = qs.queue k ∧
      ∀ xs, Fifo.Holds (qs.step step).2.links (qs.queue k).head (qs.queue k).tail xs ↔
        Fifo.Holds qs.links (qs.queue k).head (qs.queue k).tail xs

/-- `take_if` takes a waiter exactly if the list is not empty and holds the wanted side. -/
def WaitQueues.Matches (qs : WaitQueues κ ι) (ws : κ → Waiting ι) (step : QueueStep κ ι) : Prop :=
  ∀ k wantSenders, step = .on k (.takeIf wantSenders) →
    ((qs.step step).1.isSome ↔ (ws k).slots ≠ [] ∧ (ws k).areSenders = wantSenders)

/-- From this state on the queues are the lists: they hold them now and after each step, each step
has the result that it has on the lists, and it touches no other queue. -/
def WaitQueues.Refine (qs : WaitQueues κ ι) (ws : κ → Waiting ι) : List (QueueStep κ ι) → Prop
  | [] => qs.Hold ws
  | step :: rest =>
    qs.Hold ws ∧ (qs.step step).1 = (listsStep ws step).1 ∧ qs.Matches ws step ∧
      qs.Untouched step ∧ (qs.step step).2.Refine (listsStep ws step).2 rest

/-! ### One step -/

/-- The queues hold the lists, and no slot is on two of them. -/
structure WaitQueues.Good (qs : WaitQueues κ ι) (ws : κ → Waiting ι) : Prop extends
    qs.Hold ws where
  apart : ∀ k k' x, x ∈ (ws k).slots → x ∈ (ws k').slots → k = k'

variable {qs : WaitQueues κ ι} {ws : κ → Waiting ι} {k : κ} {slot : ι} {areSenders : Bool}

namespace WaitQueues.Good

omit [DecidableEq ι] in
/-- A queue that has changed, with the links of the others intact. -/
theorem update (h : qs.Good ws) {links : ι → Option ι} {q : WaitQueue ι} {w : Waiting ι}
    (hheld : Fifo.Holds links q.head q.tail w.slots) (hside : q.areSenders = w.areSenders)
    (hothers : ∀ k', k' ≠ k →
      Fifo.Holds links (qs.queue k').head (qs.queue k').tail (ws k').slots)
    (hapart : ∀ k' x, k' ≠ k → x ∈ w.slots → x ∉ (ws k').slots) :
    (⟨Function.update qs.queue k q, links⟩ : WaitQueues κ ι).Good (Function.update ws k w) := by
  refine ⟨⟨fun k' => ?_, fun k' => ?_⟩, fun k₁ k₂ x h₁ h₂ => ?_⟩
  · dsimp only
    by_cases hk : k' = k
    · subst hk
      rw [Function.update_self, Function.update_self]
      exact hheld
    · rw [Function.update_of_ne hk, Function.update_of_ne hk]
      exact hothers k' hk
  · dsimp only
    by_cases hk : k' = k
    · subst hk
      rw [Function.update_self, Function.update_self]
      exact hside
    · rw [Function.update_of_ne hk, Function.update_of_ne hk]
      exact h.side k'
  · by_cases hk₁ : k₁ = k
    · by_cases hk₂ : k₂ = k
      · rw [hk₁, hk₂]
      · rw [hk₁, Function.update_self] at h₁
        rw [Function.update_of_ne hk₂] at h₂
        exact absurd h₂ (hapart k₂ x hk₂ h₁)
    · rw [Function.update_of_ne hk₁] at h₁
      by_cases hk₂ : k₂ = k
      · rw [hk₂, Function.update_self] at h₂
        exact absurd h₁ (hapart k₁ x hk₁ h₂)
      · rw [Function.update_of_ne hk₂] at h₂
        exact h.apart k₁ k₂ x h₁ h₂

theorem enqueue (h : qs.Good ws) (hoff : Off ws slot) :
    (qs.step (.on k (.enqueue slot areSenders))).2.Good
      (listsStep ws (.on k (.enqueue slot areSenders))).2 := by
  refine h.update ((h.slots k).push (hoff k)) rfl ?_ ?_
  · intro k' hk
    exact (h.slots k').push_frame (hoff k') (h.slots k).tail_eq
      fun x hx hx' => hk (h.apart k' k x hx hx')
  · intro k' x hk hx hx'
    rcases List.mem_append.mp hx with hold | hnew
    · exact hk (h.apart k' k x hx' hold)
    · obtain rfl := List.mem_singleton.mp hnew
      exact hoff k' hx'

omit [DecidableEq ι] in
/-- The removal of the head of the queue `k`. -/
theorem dequeue (h : qs.Good ws) (k : κ) :
    (qs.taken k ((qs.queue k).dequeue qs.links)).1 = (ws k).pop.1 ∧
      (qs.taken k ((qs.queue k).dequeue qs.links)).2.Good (Function.update ws k (ws k).pop.2) ∧
      (qs.taken k ((qs.queue k).dequeue qs.links)).2.links = qs.links ∧
      ∀ k', k' ≠ k → (qs.taken k ((qs.queue k).dequeue qs.links)).2.queue k' = qs.queue k' := by
  have hheld := h.slots k
  unfold WaitQueue.dequeue Waiting.pop
  cases hslots : (ws k).slots with
  | nil =>
    have hhead := hheld.head_eq
    rw [hslots] at hhead
    rw [hhead]
    dsimp only [List.head?_nil, WaitQueues.taken]
    rw [Function.update_eq_self]
    exact ⟨rfl, h, rfl, fun _ _ => rfl⟩
  | cons x xs =>
    rw [hslots] at hheld
    have hhead := hheld.head_eq
    rw [hhead]
    dsimp only [List.head?_cons, WaitQueues.taken]
    refine ⟨rfl, h.update hheld.pop (h.side k) (fun k' _ => h.slots k') ?_, rfl,
      fun k' hk => Function.update_of_ne hk _ _⟩
    intro k' y hk hy hy'
    exact hk (h.apart k' k y hy' (by rw [hslots]; exact List.mem_cons_of_mem _ hy))

omit [DecidableEq κ] [DecidableEq ι] in
/-- The queue has a head exactly if its list is not empty. -/
theorem head_isSome (h : qs.Good ws) (k : κ) :
    (qs.queue k).head.isSome = true ↔ (ws k).slots ≠ [] := by
  rw [(h.slots k).head_eq]
  cases (ws k).slots with
  | nil => exact ⟨fun h => (by cases h), fun h => absurd rfl h⟩
  | cons x xs => exact ⟨fun _ => List.cons_ne_nil _ _, fun _ => rfl⟩

omit [DecidableEq κ] [DecidableEq ι] in
/-- `take_if` removes the head if the list allows it, and does nothing otherwise. -/
theorem takeIf (h : qs.Good ws) (k : κ) (wantSenders : Bool) :
    (qs.queue k).takeIf wantSenders qs.links =
      if (ws k).slots ≠ [] ∧ (ws k).areSenders = wantSenders then (qs.queue k).dequeue qs.links
      else none := by
  unfold WaitQueue.takeIf
  have hiff : ((qs.queue k).head.isSome && (qs.queue k).areSenders == wantSenders) = true ↔
      (ws k).slots ≠ [] ∧ (ws k).areSenders = wantSenders := by
    rw [Bool.and_eq_true, h.head_isSome k, beq_iff_eq, h.side k]
  by_cases hcond : (ws k).slots ≠ [] ∧ (ws k).areSenders = wantSenders
  · rw [if_pos (hiff.mpr hcond), if_pos hcond]
  · rw [if_neg (fun hc => hcond (hiff.mp hc)), if_neg hcond]

omit [DecidableEq κ] [DecidableEq ι] in
/-- The contents of a queue are one list. -/
theorem contents (h : qs.Good ws) (k : κ) (xs : List ι) :
    Fifo.Holds qs.links (qs.queue k).head (qs.queue k).tail xs ↔ xs = (ws k).slots := by
  constructor
  · intro hxs
    exact hxs.unique (h.slots k)
  · rintro rfl
    exact h.slots k

/-- What one step does, and that the next one finds the queues as good. -/
theorem step (h : qs.Good ws) {step : QueueStep κ ι} (hallowed : Allowed ws step) :
    (qs.step step).1 = (listsStep ws step).1 ∧ (qs.step step).2.Good (listsStep ws step).2 ∧
      ∀ k, (∀ call, step ≠ .on k call) → (qs.step step).2.queue k = qs.queue k := by
  cases step with
  | on k call =>
    have hother : ∀ {k'}, (∀ c, QueueStep.on k call ≠ .on k' c) → k' ≠ k := by
      rintro k' hne rfl
      exact hne call rfl
    cases call with
    | enqueue slot areSenders =>
      exact ⟨rfl, h.enqueue hallowed.1,
        fun k' hne => Function.update_of_ne (hother hne) _ _⟩
    | dequeue =>
      obtain ⟨hresult, hgood, -, hframe⟩ := h.dequeue k
      exact ⟨hresult, hgood, fun k' hne => hframe k' (hother hne)⟩
    | takeIf wantSenders =>
      obtain ⟨hresult, hgood, -, hframe⟩ := h.dequeue k
      unfold WaitQueues.step listsStep Waiting.call
      dsimp only
      rw [h.takeIf k wantSenders]
      split
      · exact ⟨hresult, hgood, fun k' hne => hframe k' (hother hne)⟩
      · dsimp only [WaitQueues.taken]
        rw [Function.update_eq_self]
        exact ⟨rfl, h, fun _ _ => rfl⟩
  | clear slot =>
    exact ⟨rfl, ⟨⟨fun k => (h.slots k).update_of_notMem (hallowed k) none, h.side⟩, h.apart⟩,
      fun _ _ => rfl⟩

omit [DecidableEq ι] in
/-- A step on another queue leaves the list of this one. -/
theorem lists_other {step : QueueStep κ ι} {k : κ} (hne : ∀ call, step ≠ .on k call) :
    (listsStep ws step).2 k = ws k := by
  cases step with
  | on k' call =>
    refine Function.update_of_ne ?_ _ _
    rintro rfl
    exact hne call rfl
  | clear slot => rfl

theorem untouched (h : qs.Good ws) {step : QueueStep κ ι} (hallowed : Allowed ws step) :
    qs.Untouched step := by
  intro k hne
  obtain ⟨-, hgood, hframe⟩ := h.step hallowed
  refine ⟨hframe k hne, fun xs => ?_⟩
  have hafter := hgood.contents k xs
  rw [hframe k hne, lists_other hne] at hafter
  rw [hafter, h.contents k xs]

theorem matches_side (h : qs.Good ws) {step : QueueStep κ ι} (hallowed : Allowed ws step) :
    qs.Matches ws step := by
  rintro k wantSenders rfl
  rw [(h.step hallowed).1]
  unfold listsStep Waiting.call Waiting.pop
  dsimp only
  by_cases hcond : (ws k).slots ≠ [] ∧ (ws k).areSenders = wantSenders
  · rw [if_pos hcond]
    refine ⟨fun _ => hcond, fun _ => ?_⟩
    cases hslots : (ws k).slots with
    | nil => exact absurd hslots hcond.1
    | cons x xs => rfl
  · rw [if_neg hcond]
    exact ⟨fun h => (by cases h), fun h => absurd h hcond⟩

/-! ### Every interleaving -/

theorem refine_run (h : qs.Good ws) {steps : List (QueueStep κ ι)}
    (hallowed : AllAllowed ws steps) : qs.Refine ws steps := by
  induction steps generalizing qs ws with
  | nil => exact h.toHold
  | cons step rest ih =>
    obtain ⟨hresult, hgood, -⟩ := h.step hallowed.1
    exact ⟨h.toHold, hresult, h.matches_side hallowed.1, h.untouched hallowed.1,
      ih hgood hallowed.2⟩

end WaitQueues.Good

/-- The empty queues, over any links. -/
def WaitQueues.empty (κ : Type) (links : ι → Option ι) : WaitQueues κ ι :=
  ⟨fun _ => WaitQueue.empty, links⟩

/-- Over every interleaving of calls on any number of queues, each queue is its own list. -/
theorem queues_are_lists (links : ι → Option ι) (steps : List (QueueStep κ ι))
    (hallowed : AllAllowed (fun _ => ⟨[], false⟩) steps) :
    (WaitQueues.empty κ links).Refine (fun _ => ⟨[], false⟩) steps :=
  WaitQueues.Good.refine_run
    ⟨⟨fun _ => Fifo.Holds.nil links, fun _ => rfl⟩, fun _ _ _ hx => (by cases hx)⟩ hallowed

end

/-- Three queues over six links. Slot 0 goes from one queue to another, and slot 1 with it, while
the link of slot 2 is cleared. -/
theorem queues_are_lists_three :
    (WaitQueues.empty (Fin 3) fun _ : Fin 6 => none).Refine (fun _ => ⟨[], false⟩)
      [.on 0 (.enqueue 0 true), .on 0 (.enqueue 1 true), .on 1 (.enqueue 3 false),
        .on 0 (.takeIf true), .on 1 (.enqueue 0 false), .clear 2, .on 0 (.takeIf false),
        .on 0 .dequeue, .on 1 (.enqueue 1 false), .on 1 .dequeue, .on 1 (.takeIf false)] :=
  queues_are_lists _ _ (by decide)

/-! ### The endpoint table -/

namespace Ipc

/-- The queues of the endpoints. -/
def queues (ipc : Ipc) : WaitQueues EndpointId ProcSlot :=
  ⟨fun id => (ipc.endpoints id).queue, ipc.links⟩

/-- A queue that is written into its endpoint. -/
theorem queues_setEndpoint (ipc : Ipc) (id : EndpointId) (q : WaitQueue ProcSlot) :
    (ipc.setEndpoint id { ipc.endpoints id with queue := q }).queues =
      ⟨Function.update ipc.queues.queue id q, ipc.links⟩ := by
  unfold queues setEndpoint
  dsimp only
  congr 1
  funext k
  by_cases hk : k = id
  · subst hk
    rw [Function.update_self, Function.update_self]
  · rw [Function.update_of_ne hk, Function.update_of_ne hk]

/-- `enqueue_waiter` is a step of the queues. -/
theorem queues_enqueueWaiter (ipc : Ipc) (id : EndpointId) (slot : ProcSlot)
    (areSenders : Bool) : (ipc.enqueueWaiter id slot areSenders).queues =
      (ipc.queues.step (.on id (.enqueue slot areSenders))).2 := by
  have hset := queues_setEndpoint ipc id
    ((ipc.endpoints id).queue.enqueue slot areSenders ipc.links).1
  unfold enqueueWaiter WaitQueues.step
  dsimp only
  exact congrArg (fun qs => (⟨qs.queue, _⟩ : WaitQueues EndpointId ProcSlot)) hset

/-- `take_waiting` is a step of the queues. -/
theorem queues_takeWaiting (ipc : Ipc) (id : EndpointId) (wantSenders : Bool) :
    (ipc.takeWaiting id wantSenders).map Prod.fst =
        (ipc.queues.step (.on id (.takeIf wantSenders))).1 ∧
      ((ipc.takeWaiting id wantSenders).elim ipc Prod.snd).queues =
        (ipc.queues.step (.on id (.takeIf wantSenders))).2 := by
  have hsame : ipc.queues.step (.on id (.takeIf wantSenders)) =
      ipc.queues.taken id ((ipc.endpoints id).queue.takeIf wantSenders ipc.links) := rfl
  unfold takeWaiting
  rw [hsame]
  cases (ipc.endpoints id).queue.takeIf wantSenders ipc.links with
  | none => exact ⟨rfl, rfl⟩
  | some r => exact ⟨rfl, queues_setEndpoint ipc id r.2⟩

/-- The dequeue of the stranded waiters is a step of the queues. -/
theorem queues_dequeueWaiter (ipc : Ipc) (id : EndpointId) :
    (ipc.dequeueWaiter id).map Prod.fst = (ipc.queues.step (.on id .dequeue)).1 ∧
      ((ipc.dequeueWaiter id).elim ipc Prod.snd).queues =
        (ipc.queues.step (.on id .dequeue)).2 := by
  have hsame : ipc.queues.step (.on id .dequeue) =
      ipc.queues.taken id ((ipc.endpoints id).queue.dequeue ipc.links) := rfl
  unfold dequeueWaiter
  rw [hsame]
  cases (ipc.endpoints id).queue.dequeue ipc.links with
  | none => exact ⟨rfl, rfl⟩
  | some r => exact ⟨rfl, queues_setEndpoint ipc id r.2⟩

/-- So is the end of a process, whose link is cleared. -/
theorem queues_clearLink (ipc : Ipc) (slot : ProcSlot) :
    (ipc.clearLink slot).queues = (ipc.queues.step (.clear slot)).2 := rfl

end Ipc

end Plinth
