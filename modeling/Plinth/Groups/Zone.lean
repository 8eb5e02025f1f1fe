import Plinth.Refine.Transfer
import Plinth.Syscall

/-!
# `Plinth.Groups.Zone`: the part of the kernel that belongs to a group

A `Zone` is what a group of processes has: slots of the process table, objects that its
capabilities may name, and address spaces. `Zone.Owns` says that the processes in these slots hold
nothing else.

`Zone.Inside s t` says that the change from `s` to `t` stays in the zone. What lies outside is as
it was: the slots, the running processes, the endpoints with their links, the address spaces, the
rings with their subscriptions, and the bound devices. And the processes of the zone still hold
nothing else.

`Inside` has one part for each field of the kernel state. This module gives, for each part, one
lemma for each primitive change.
-/

set_option autoImplicit false

namespace Plinth

/-- What belongs to a group. Frames and budgets are for everybody, because the kernel makes each of
them for one process. A reply capability belongs where its caller belongs. -/
structure Zone where
  slot : ProcSlot → Prop
  object : CapObject → Prop
  /-- The level-4 frames of the address spaces. -/
  space : Nat → Prop
  frame : ∀ a, object (.frame a)
  budget : ∀ n, object (.cpuTime n)
  caller : ∀ p, object (.reply p) ↔ slot p

namespace Zone

variable {z : Zone}

/-- The capability names an object of the zone, and if it is on loan its lender is in the zone. -/
structure Allows (z : Zone) (cap : Capability) : Prop where
  object : z.object cap.object
  lender : ∀ o, cap.origin = some o → z.slot o.lender

/-- A process of the zone. -/
structure Admits (z : Zone) (proc : Process) : Prop where
  caps : ∀ k cap, proc.caps.slots k = some cap → z.Allows cap
  space : z.space proc.l4

/-- The processes in the slots of the zone hold what belongs to it. -/
structure Owns (z : Zone) (P : Procs) : Prop where
  table : ∀ p proc, z.slot p → (P.table p).process = some proc → z.Admits proc
  current : ∀ c proc, z.slot (P.currentSlot c) → P.current c = some proc → z.Admits proc

/-! ### Capabilities -/

/-- A capability that the kernel makes has no lender. -/
theorem Allows.made {o : CapObject} {rights : Rights} (h : z.object o) :
    z.Allows ⟨o, rights, none⟩ := ⟨h, fun _ ho => by cases ho⟩

theorem Allows.clear {cap : Capability} (h : z.Allows cap) :
    z.Allows { cap with origin := none } := ⟨h.object, fun _ ho => by cases ho⟩

theorem Allows.lentTo {cap : Capability} {p dest : ProcSlot} {slot : Nat} (h : z.Allows cap)
    (hp : z.slot p) : z.Allows (cap.lentTo (Origin.new p slot) dest) := by
  refine ⟨by rw [Capability.lentTo_object]; exact h.object, fun o ho => ?_⟩
  unfold Capability.lentTo at ho
  split at ho
  · split at ho
    · cases ho
    · exact h.lender o ho
  · simp only [Option.some.injEq] at ho
    rw [← ho]
    exact hp

theorem Allows.spawnLoan {cap : Capability} {caller : ProcSlot} {slot : Nat} (h : z.Allows cap)
    (hcaller : z.slot caller) : z.Allows (Kernel.spawnLoan cap caller slot) := by
  refine ⟨h.object, fun o ho => ?_⟩
  unfold Kernel.spawnLoan at ho
  cases hcap : cap.origin with
  | some o' =>
    rw [hcap] at ho
    exact h.lender o (hcap.trans ho)
  | none =>
    rw [hcap] at ho
    simp only [Option.none_or, Option.some.injEq] at ho
    rw [← ho]
    exact hcaller

theorem Allows.clearLender {cap : Capability} (h : z.Allows cap) (p : ProcSlot) :
    z.Allows (CapTable.clearLender p cap) := by
  unfold CapTable.clearLender
  split
  · exact h.clear
  · exact h

/-! ### Processes -/

namespace Admits

variable {proc : Process} {t : CapTable} {cap : Capability} {k : CapSlot}

/-- A table whose capabilities are allowed. -/
theorem setCaps (h : z.Admits proc) (ht : ∀ k cap, t.slots k = some cap → z.Allows cap) :
    z.Admits (proc.setCaps t) := ⟨ht, h.space⟩

theorem places (h : z.Admits proc) (hin : CapTable.Places proc.caps cap k t)
    (hcap : z.Allows cap) : z.Admits (proc.setCaps t) := by
  refine h.setCaps fun j c hj => ?_
  rcases hin.slot_cases hj with ⟨-, rfl⟩ | ⟨-, hold⟩
  · exact hcap
  · exact h.caps j c hold

theorem empties (h : z.Admits proc) (k : CapSlot) :
    z.Admits (proc.setCaps (proc.caps.set k none)) := by
  refine h.setCaps fun j c hj => ?_
  rw [CapTable.set_slots] at hj
  by_cases hjk : j = k
  · rw [hjk, Function.update_self] at hj
    cases hj
  · rw [Function.update_of_ne hjk] at hj
    exact h.caps j c hj

/-- Only the capability table and the address space matter. -/
theorem congr (h : z.Admits proc) {proc' : Process} (hcaps : proc'.caps.slots = proc.caps.slots)
    (hspace : proc'.l4 = proc.l4) : z.Admits proc' :=
  ⟨fun k cap hk => h.caps k cap (by rw [← hcaps]; exact hk), by rw [hspace]; exact h.space⟩

theorem clearOrigin (h : z.Admits proc) (p : ProcSlot) :
    z.Admits (proc.setCaps (proc.caps.clearOrigin p)) := by
  refine h.setCaps fun k cap hk => ?_
  rw [CapTable.clearOrigin_slots] at hk
  obtain ⟨c, hc, rfl⟩ := Option.map_eq_some_iff.mp hk
  exact (h.caps k c hc).clearLender p

theorem unmapForSlot (h : z.Admits proc) (m : Mem) (cap : Capability) (slot : Nat) :
    z.Admits (Plinth.unmapForSlot m proc cap slot).1 :=
  h.congr (by rw [unmapForSlot_caps]) (unmapForSlot_l4 ..)

theorem giveAway (h : z.Admits proc) (m : Mem) (k : CapSlot) (cap : Capability) :
    z.Admits (Plinth.giveAway m proc k cap).1 := by
  have hrest := (h.empties k).unmapForSlot m cap k
  unfold Plinth.giveAway
  dsimp only
  split
  · exact hrest.congr rfl rfl
  · exact hrest

end Admits

/-! ### The process table -/

/-- The change of the process table and of the running processes stays in the zone. -/
structure Within (z : Zone) (P P' : Procs) : Prop where
  table : ∀ p, ¬ z.slot p → P'.table p = P.table p
  current : ∀ c, ¬ z.slot (P.currentSlot c) → P'.current c = P.current c
  /-- No core starts to run a process. -/
  idle : ∀ c, P.current c = none → P'.current c = none
  slots : P'.currentSlot = P.currentSlot
  owns : z.Owns P'

namespace Within

variable {P P' P'' : Procs} {p : ProcSlot} {core : Core} {proc : Process}

theorem refl (h : z.Owns P) : z.Within P P :=
  ⟨fun _ _ => rfl, fun _ _ => rfl, fun _ h => h, rfl, h⟩

theorem trans (h : z.Within P P') (h' : z.Within P' P'') : z.Within P P'' := by
  refine ⟨fun p hp => (h'.table p hp).trans (h.table p hp), fun c hc => ?_,
    fun c hc => h'.idle c (h.idle c hc), h'.slots.trans h.slots, h'.owns⟩
  exact (h'.current c (by rw [h.slots]; exact hc)).trans (h.current c hc)

/-- A slot of the zone is written. -/
theorem setSlot (h : z.Owns P) (hp : z.slot p) {x : Slot}
    (hx : ∀ proc, x.process = some proc → z.Admits proc) : z.Within P (P.setSlot p x) := by
  refine ⟨fun q hq => ?_, fun _ _ => rfl, fun _ h => h, rfl, ⟨fun q proc hq hproc => ?_, h.current⟩⟩
  · exact Procs.setSlot_table_of_ne P x fun heq => hq (by rw [heq]; exact hp)
  · by_cases heq : q = p
    · rw [heq, Procs.setSlot_table_self] at hproc
      exact hx proc hproc
    · rw [Procs.setSlot_table_of_ne P x heq] at hproc
      exact h.table q proc hq hproc

/-- A slot of the zone is written, and its process stays. -/
theorem note (h : z.Owns P) (hp : z.slot p) {x : Slot}
    (hx : x.process = (P.table p).process) : z.Within P (P.setSlot p x) :=
  setSlot h hp fun proc hproc => h.table p proc hp (by rw [← hx]; exact hproc)

/-- The running process of the zone is replaced, or its core becomes idle. -/
theorem setCurrent (h : z.Owns P) (hc : P.current core = some proc)
    (hslot : z.slot (P.currentSlot core)) {x : Option Process}
    (hx : ∀ proc', x = some proc' → z.Admits proc') : z.Within P (P.setCurrent core x) := by
  refine ⟨fun _ _ => rfl, fun c hout => ?_, fun c hidle => ?_, rfl,
    ⟨h.table, fun c proc' hin hproc => ?_⟩⟩
  · exact P.setCurrent_current_of_ne x fun heq => hout (by rw [heq]; exact hslot)
  · have hne : c ≠ core := by
      rintro rfl
      rw [hc] at hidle
      cases hidle
    rw [P.setCurrent_current_of_ne x hne]
    exact hidle
  · by_cases heq : c = core
    · rw [heq, Procs.setCurrent_current_self] at hproc
      exact hx proc' hproc
    · rw [P.setCurrent_current_of_ne x heq] at hproc
      exact h.current c proc' hin hproc

theorem setProc (h : z.Owns P) (hc : P.current core = some proc)
    (hslot : z.slot (P.currentSlot core)) {proc' : Process} (hadmits : z.Admits proc') :
    z.Within P (P.setCurrent core (some proc')) := by
  refine setCurrent h hc hslot fun x hx => ?_
  rw [← Option.some.inj hx]
  exact hadmits

/-- The running process parks in its slot. -/
theorem park (h : z.Owns P) (hc : P.current core = some proc)
    (hslot : z.slot (P.currentSlot core)) {x : Slot} (hx : x.process = some proc) :
    z.Within P ((P.setSlot (P.currentSlot core) x).setCurrent core none) := by
  have hset : z.Within P (P.setSlot (P.currentSlot core) x) := by
    refine setSlot h hslot fun proc' hproc => ?_
    rw [hx, Option.some.injEq] at hproc
    rw [← hproc]
    exact h.current core proc hslot hc
  exact hset.trans (setCurrent hset.owns hc hslot fun _ hnone => by cases hnone)

theorem blockCurrent (h : z.Owns P) (hslot : z.slot (P.currentSlot core)) :
    z.Within P (P.blockCurrent core) := by
  unfold Procs.blockCurrent
  split
  · exact refl h
  · rename_i proc hc
    exact park h hc hslot rfl

theorem setPending (h : z.Owns P) (hp : z.slot p) (msg cap : Nat) (call : Bool) :
    z.Within P (P.setPending p msg cap call) := note h hp rfl

theorem takeReclaimLanding (h : z.Owns P) (hp : z.slot p) :
    z.Within P (P.takeReclaimLanding p).2 := note h hp rfl

theorem setReclaimLanding (h : z.Owns P) (hp : z.slot p) (landing : Nat) :
    z.Within P (P.setReclaimLanding p landing) := by
  unfold Procs.setReclaimLanding
  split
  · exact note h hp rfl
  · exact refl h

theorem wakeWith (h : z.Owns P) (hp : z.slot p) (status payload landing : Nat) :
    z.Within P (P.wakeWith p status payload landing) := by
  have hnote : z.Within P (P.setSlot p { P.table p with
      state := .ready, result := ⟨status, payload, landing⟩ }) := note h hp rfl
  exact ⟨hnote.table, hnote.current, hnote.idle, hnote.slots,
    ⟨hnote.owns.table, hnote.owns.current⟩⟩

variable {α : Type} {f : CapTable → Option (α × CapTable)} {a : α}

/-- A change of the table of the running process. -/
theorem onCurrent (h : z.Owns P) (hslot : z.slot (P.currentSlot core))
    (hf : ∀ proc t, z.Admits proc → f proc.caps = some (a, t) → z.Admits (proc.setCaps t))
    (hrun : P.onCurrent core f = some (a, P')) : z.Within P P' := by
  obtain ⟨proc, t, hc, ht, rfl⟩ := Procs.onCurrent_eq_some.mp hrun
  exact setProc h hc hslot (hf proc t (h.current core proc hslot hc) ht)

/-- A change of the table of a suspended process. -/
theorem onTable (h : z.Owns P) (hp : z.slot p)
    (hf : ∀ proc t, z.Admits proc → f proc.caps = some (a, t) → z.Admits (proc.setCaps t))
    (hrun : P.onTable p f = some (a, P')) : z.Within P P' := by
  obtain ⟨proc, t, hproc, ht, rfl⟩ := Procs.onTable_eq_some.mp hrun
  refine setSlot h hp fun x hx => ?_
  rw [← Option.some.inj hx]
  exact hf proc t (h.table p proc hp hproc) ht

/-- A change of the table of a process, wherever it is. -/
theorem withLenderCaps (h : z.Owns P) (hp : z.slot p)
    (hf : ∀ proc t, z.Admits proc → f proc.caps = some (a, t) → z.Admits (proc.setCaps t))
    (hrun : P.withLenderCaps p f = some (some (a, P'))) : z.Within P P' := by
  unfold Procs.withLenderCaps at hrun
  split at hrun
  · exact onTable h hp hf (Option.some.inj hrun)
  · split at hrun
    · rename_i core hcore
      have hslot : z.slot (P.currentSlot core) := by
        rw [(Placed.coreOf_some hcore).1]
        exact hp
      exact onCurrent h hslot hf (Option.some.inj hrun)
    · cases hrun

end Within

/-! ### Endpoints -/

/-- The change of the endpoints stays in the zone. -/
structure IpcWithin (z : Zone) (ipc ipc' : Ipc) : Prop where
  endpoint : ∀ id, ¬ z.object (.endpoint id) → ipc'.endpoints id = ipc.endpoints id
  link : ∀ p, ¬ z.slot p → ipc'.links p = ipc.links p

namespace IpcWithin

variable {ipc ipc' ipc'' : Ipc} {id : EndpointId} {p : ProcSlot}

theorem refl (ipc : Ipc) : z.IpcWithin ipc ipc := ⟨fun _ _ => rfl, fun _ _ => rfl⟩

theorem trans (h : z.IpcWithin ipc ipc') (h' : z.IpcWithin ipc' ipc'') : z.IpcWithin ipc ipc'' :=
  ⟨fun id hid => (h'.endpoint id hid).trans (h.endpoint id hid),
    fun p hp => (h'.link p hp).trans (h.link p hp)⟩

theorem setEndpoint (hid : z.object (.endpoint id)) (ep : Endpoint) :
    z.IpcWithin ipc (ipc.setEndpoint id ep) := by
  refine ⟨fun id' hout => Ipc.setEndpoint_of_ne ipc ep fun heq => hout ?_, fun _ _ => rfl⟩
  rw [heq]
  exact hid

theorem debugAssert (b : Bool) : z.IpcWithin ipc (ipc.debugAssert b) := by
  unfold Ipc.debugAssert
  split
  · exact refl ipc
  · exact ⟨fun _ _ => rfl, fun _ _ => rfl⟩

theorem noteCapAdded {cap : Capability} (h : z.object cap.object) :
    z.IpcWithin ipc (ipc.noteCapAdded cap) := by
  unfold Ipc.noteCapAdded
  split
  · rename_i id hobj
    rw [hobj] at h
    exact setEndpoint h _
  · exact refl ipc

theorem noteCapRemoved {cap : Capability} (h : z.object cap.object) (free : Bool) :
    z.IpcWithin ipc (ipc.noteCapRemoved cap free) := by
  unfold Ipc.noteCapRemoved
  split
  · rename_i id hobj
    rw [hobj] at h
    exact (debugAssert _).trans (setEndpoint h _)
  · exact refl ipc

theorem releaseEndpoint (hid : z.object (.endpoint id)) :
    z.IpcWithin ipc (ipc.releaseEndpoint id) := by
  unfold Ipc.releaseEndpoint
  split
  · exact setEndpoint hid _
  · exact refl ipc

theorem dequeueWaiter (hid : z.object (.endpoint id))
    (hdeq : ipc.dequeueWaiter id = some (p, ipc')) : z.IpcWithin ipc ipc' := by
  unfold Ipc.dequeueWaiter at hdeq
  split at hdeq
  · simp only [Option.some.injEq, Prod.mk.injEq] at hdeq
    rw [← hdeq.2]
    exact setEndpoint hid _
  · cases hdeq

theorem clearLink (hp : z.slot p) : z.IpcWithin ipc (ipc.clearLink p) := by
  refine ⟨fun _ _ => rfl, fun q hq => Function.update_of_ne (fun heq => hq ?_) _ _⟩
  rw [heq]
  exact hp

/-- A slot of the zone joins a queue. The last member gets a new link, so it must be of the zone. -/
theorem enqueueWaiter (hid : z.object (.endpoint id)) (hp : z.slot p)
    (htail : ∀ q, (ipc.endpoints id).queue.tail = some q → z.slot q) (senders : Bool) :
    z.IpcWithin ipc (ipc.enqueueWaiter id p senders) := by
  refine ⟨(setEndpoint hid _).endpoint, fun q hq => ?_⟩
  unfold Ipc.enqueueWaiter WaitQueue.enqueue Fifo.pushLinks
  have hqp : q ≠ p := fun heq => hq (by rw [heq]; exact hp)
  dsimp only
  cases hlast : (ipc.endpoints id).queue.tail with
  | none => exact Function.update_of_ne hqp _ _
  | some t =>
    have hqt : q ≠ t := fun heq => hq (by rw [heq]; exact htail t hlast)
    dsimp only
    rw [Function.update_of_ne hqt, Function.update_of_ne hqp]

end IpcWithin

/-! ### Memory, rings and devices -/

/-- The change of the address spaces stays in the zone. The allocator is for everybody. -/
def MemWithin (z : Zone) (m m' : Mem) : Prop := ∀ l4, ¬ z.space l4 → m'.spaces l4 = m.spaces l4

namespace MemWithin

variable {m m' m'' : Mem} {l4 : Nat}

theorem refl (m : Mem) : z.MemWithin m m := fun _ _ => rfl

theorem trans (h : z.MemWithin m m') (h' : z.MemWithin m' m'') : z.MemWithin m m'' :=
  fun l4 hl4 => (h' l4 hl4).trans (h l4 hl4)

theorem setFa (m : Mem) (fa : FrameAlloc) : z.MemWithin m { m with fa } := fun _ _ => rfl

theorem setSpace (h : z.space l4) (sp : AddressSpace) : z.MemWithin m (m.setSpace l4 sp) := by
  intro l hl
  refine Mem.setSpace_spaces_of_ne m sp fun heq => hl ?_
  rw [heq]
  exact h

theorem mapUserPage (h : z.space l4) (va phys : Nat) (flags : PageFlags) :
    z.MemWithin m (m.mapUserPage l4 va phys flags).2 := by
  unfold Mem.mapUserPage
  dsimp only
  split
  · split
    · exact setSpace h _
    · exact setSpace h _
  · exact setSpace h _

theorem unmapAll (h : z.space l4) (vas : List Nat) : z.MemWithin m (m.unmapAll l4 vas) := by
  induction vas generalizing m with
  | nil => exact refl m
  | cons va vas ih => exact trans (setSpace h _) ih

theorem unmapForSlot {proc : Process} (h : z.space proc.l4) (cap : Capability) (slot : Nat) :
    z.MemWithin m (Plinth.unmapForSlot m proc cap slot).2 := by
  rw [unmapForSlot_mem]
  exact unmapAll h _

theorem giveAway {proc : Process} (h : z.space proc.l4) (k : CapSlot) (cap : Capability) :
    z.MemWithin m (Plinth.giveAway m proc k cap).2 := by
  have hl4 : z.space (proc.setCaps (proc.caps.set k none)).l4 := h
  exact unmapForSlot hl4 cap k

theorem mapPages (h : z.space l4) (pages : List (Nat × Nat × PageFlags)) (mapped : List Nat) :
    z.MemWithin m (Plinth.mapPages l4 pages mapped m).2 := by
  induction pages generalizing m mapped with
  | nil => exact refl m
  | cons page pages ih =>
    obtain ⟨va, phys, flags⟩ := page
    unfold Plinth.mapPages
    dsimp only
    split
    · exact (mapUserPage h va phys flags).trans (ih _)
    · exact (mapUserPage h va phys flags).trans (unmapAll h mapped)

theorem loadPages (h : z.space l4) (pages : List (Nat × PageFlags)) (boot : List (Nat × Nat)) :
    z.MemWithin m (Plinth.loadPages l4 pages m boot).2.1 := by
  induction pages generalizing m boot with
  | nil => exact refl m
  | cons page pages ih =>
    obtain ⟨va, flags⟩ := page
    unfold Plinth.loadPages
    split
    · exact refl m
    · rename_i phys fa hfa
      dsimp only
      split
      · exact (setFa m fa).trans ((mapUserPage h va phys flags).trans (ih _))
      · exact (setFa m fa).trans (mapUserPage h va phys flags)

theorem unloadPages (h : z.space l4) (boot : List (Nat × Nat)) :
    z.MemWithin m (Plinth.unloadPages l4 boot m) := by
  unfold Plinth.unloadPages
  induction boot generalizing m with
  | nil => exact refl m
  | cons e boot ih =>
    rw [List.foldl_cons]
    have hone : z.MemWithin m { m.unmapUserPage l4 e.1 with
        fa := (m.unmapUserPage l4 e.1).fa.giveBack e.2 } := setSpace h _
    exact hone.trans ih

theorem loadAndMap (h : z.space l4) (image : Option Image) :
    z.MemWithin m (Plinth.loadAndMap m image l4).2.1 := by
  unfold Plinth.loadAndMap
  cases image with
  | none => exact refl m
  | some image =>
    dsimp only
    split
    · exact loadPages h _ _
    · exact (loadPages h _ _).trans (unloadPages h _)

end MemWithin

/-- The change of the rings and subscriptions stays in the zone. -/
structure RingsWithin (z : Zone) (rt rt' : RingTable) : Prop where
  ring : ∀ id, ¬ z.object (.ring id) → rt'.rings id = rt.rings id
  sub : ∀ (i : Nat) (sub : Subscription), ¬ z.object (.ring sub.ring) →
    (rt'.subs[i]? = some (some sub) ↔ rt.subs[i]? = some (some sub))

namespace RingsWithin

variable {rt rt' rt'' : RingTable} {id : RingId}

theorem refl (rt : RingTable) : z.RingsWithin rt rt := ⟨fun _ _ => rfl, fun _ _ _ => Iff.rfl⟩

theorem trans (h : z.RingsWithin rt rt') (h' : z.RingsWithin rt' rt'') : z.RingsWithin rt rt'' :=
  ⟨fun id hid => (h'.ring id hid).trans (h.ring id hid),
    fun i sub hsub => (h'.sub i sub hsub).trans (h.sub i sub hsub)⟩

theorem setRing (h : z.object (.ring id)) (r : Ring) : z.RingsWithin rt (rt.setRing id r) := by
  refine ⟨fun id' hout => Function.update_of_ne (fun heq => hout ?_) _ _, fun _ _ _ => Iff.rfl⟩
  rw [heq]
  exact h

/-- The record at one index is replaced, and the old and the new one are of the zone or empty. -/
theorem setSub {i : Nat} {new : Option Subscription}
    (hold : ∀ sub, rt.subs[i]? = some (some sub) → z.object (.ring sub.ring))
    (hnew : ∀ sub, new = some sub → z.object (.ring sub.ring)) :
    z.RingsWithin rt { rt with subs := rt.subs.set i new } := by
  refine ⟨fun _ _ => rfl, fun j sub hout => ?_⟩
  dsimp only
  rw [List.getElem?_set]
  by_cases hij : i = j
  · subst hij
    rw [if_pos rfl]
    constructor
    · intro hafter
      split at hafter
      · exact absurd (hnew sub (Option.some.inj hafter)) hout
      · cases hafter
    · intro hbefore
      exact absurd (hold sub hbefore) hout
  · rw [if_neg hij]

theorem subscribe (h : z.object (.ring id)) {source userData : Nat}
    (hsub : rt.subscribe source id userData = some rt') : z.RingsWithin rt rt' := by
  unfold RingTable.subscribe at hsub
  split at hsub
  · cases hsub
  · split at hsub
    · rename_i i hfind
      rw [← Option.some.inj hsub]
      refine setSub (fun sub hold => ?_) fun sub hnew => ?_
      · -- The record that was found is empty.
        obtain ⟨hlt, hempty, -⟩ := List.findIdx?_eq_some_iff_getElem.mp hfind
        rw [List.getElem?_eq_getElem hlt, Option.some.injEq] at hold
        rw [hold] at hempty
        cases hempty
      · rw [← Option.some.inj hnew]
        exact h
    · cases hsub

theorem cancel (h : z.object (.ring id)) (userData : Nat) :
    z.RingsWithin rt (rt.cancel id userData) := by
  unfold RingTable.cancel
  split
  · rename_i i hfind
    refine setSub (fun sub hold => ?_) fun sub hnew => by cases hnew
    obtain ⟨hlt, hmine, -⟩ := List.findIdx?_eq_some_iff_getElem.mp hfind
    rw [List.getElem?_eq_getElem hlt, Option.some.injEq] at hold
    rw [hold, RingTable.isSub, Bool.and_eq_true, beq_iff_eq] at hmine
    rw [hmine.1]
    exact h
  · exact refl rt

theorem release (h : z.object (.ring id)) : z.RingsWithin rt (rt.release id) := by
  refine ⟨(setRing h Ring.empty).ring, fun i sub hout => ?_⟩
  have hne : sub.ring ≠ id := fun heq => hout (by rw [heq]; exact h)
  unfold RingTable.release
  dsimp only
  rw [List.getElem?_map, Option.map_eq_some_iff]
  constructor
  · rintro ⟨x, hx, hkept⟩
    cases x with
    | none => cases hkept
    | some old =>
      dsimp only at hkept
      split at hkept
      · cases hkept
      · rw [hx, hkept]
  · intro hold
    exact ⟨some sub, hold, if_neg hne⟩

theorem cqPost (h : z.object (.ring id)) (ram : Ram) (userData status : Nat) (dropIfFull : Bool) :
    z.RingsWithin rt (rt.cqPost ram id userData status dropIfFull).2.1 := by
  unfold RingTable.cqPost
  dsimp only
  split
  · exact refl rt
  · split
    · exact refl rt
    · exact setRing h _

end RingsWithin

/-- The change of the devices leaves the direct bindings outside of the zone. -/
def DevsWithin (z : Zone) (ds ds' : Devices) : Prop :=
  ∀ dev, ¬ z.object (.boundDevice dev) →
    (ds'.devices dev).bind VirtioBlk.bound = (ds.devices dev).bind VirtioBlk.bound

namespace DevsWithin

variable {ds ds' ds'' : Devices} {dev : DevId}

theorem refl (ds : Devices) : z.DevsWithin ds ds := fun _ _ => rfl

theorem trans (h : z.DevsWithin ds ds') (h' : z.DevsWithin ds' ds'') : z.DevsWithin ds ds'' :=
  fun dev hdev => (h' dev hdev).trans (h dev hdev)

theorem setDevice (h : z.object (.boundDevice dev)) (d : Option VirtioBlk) :
    z.DevsWithin ds (ds.setDevice dev d) := by
  intro dev' hout
  have hne : dev' ≠ dev := fun heq => hout (by rw [heq]; exact h)
  unfold Devices.setDevice
  dsimp only
  rw [Function.update_of_ne hne]

/-- A device changes, and its binding stays. -/
theorem setBound {d : VirtioBlk}
    (h : d.bound = (ds.devices dev).bind VirtioBlk.bound) :
    z.DevsWithin ds (ds.setDevice dev (some d)) := by
  intro dev' _
  unfold Devices.setDevice
  dsimp only
  by_cases heq : dev' = dev
  · rw [heq, Function.update_self, Option.bind_some, h]
  · rw [Function.update_of_ne heq]

theorem blockMapDma (fa : FrameAlloc) (addr : Nat) :
    z.DevsWithin ds (ds.blockMapDma fa addr).1 := by
  unfold Devices.blockMapDma
  split
  · exact refl ds
  · split
    · exact fun _ _ => rfl
    · exact refl ds

theorem ringPost {fa fa' : FrameAlloc} {sector count framePhys userData : Nat} {ring : RingId}
    {dir : Direction}
    (hpost : ds.ringPost fa dev sector count framePhys ring userData dir = some (ds', fa')) :
    z.DevsWithin ds ds' := by
  unfold Devices.ringPost at hpost
  split at hpost
  · cases hpost
  · rename_i d hd
    split at hpost
    · cases hpost
    · simp only [Option.some.injEq, Prod.mk.injEq] at hpost
      rw [← hpost.1]
      have hmap : z.DevsWithin ds
          (if d.bound.isSome then (ds, fa) else ds.blockMapDma fa framePhys).1 := by
        split
        · exact refl ds
        · exact blockMapDma fa framePhys
      refine hmap.trans (setBound ?_)
      have hdevices :
          (if d.bound.isSome then (ds, fa) else ds.blockMapDma fa framePhys).1.devices =
            ds.devices := by
        unfold Devices.blockMapDma
        split
        · rfl
        · split
          · rfl
          · split <;> rfl
      rw [hdevices, hd]
      rfl

theorem unbind (h : z.object (.boundDevice dev)) (fa : FrameAlloc) :
    z.DevsWithin ds (ds.unbind fa dev).1 := by
  unfold Devices.unbind
  split
  · exact refl ds
  · split
    · exact refl ds
    · refine (setDevice h none).trans ?_
      unfold Devices.bindTeardown
      split
      · exact refl _
      · split
        · exact refl _
        · exact fun _ _ => rfl

end DevsWithin

/-! ### The kernel -/

/-- The change of the kernel state stays in the zone. -/
structure Inside (z : Zone) (s t : Kernel) : Prop where
  procs : z.Within s.procs t.procs
  ipc : z.IpcWithin s.ipc t.ipc
  mem : z.MemWithin s.mem t.mem
  rings : z.RingsWithin s.rings t.rings
  devs : z.DevsWithin s.devs t.devs

namespace Inside

variable {s t u : Kernel}

theorem refl (h : z.Owns s.procs) : z.Inside s s := ⟨.refl h, .refl _, .refl _, .refl _, .refl _⟩

theorem trans (h : z.Inside s t) (h' : z.Inside t u) : z.Inside s u :=
  ⟨h.procs.trans h'.procs, h.ipc.trans h'.ipc, h.mem.trans h'.mem, h.rings.trans h'.rings,
    h.devs.trans h'.devs⟩

theorem ofProcs {P : Procs} (h : z.Within s.procs P) : z.Inside s { s with procs := P } :=
  ⟨h, .refl _, .refl _, .refl _, .refl _⟩

theorem ofIpc {ipc : Ipc} (hown : z.Owns s.procs) (h : z.IpcWithin s.ipc ipc) :
    z.Inside s { s with ipc } := ⟨.refl hown, h, .refl _, .refl _, .refl _⟩

theorem ofMem {mem : Mem} (hown : z.Owns s.procs) (h : z.MemWithin s.mem mem) :
    z.Inside s { s with mem } := ⟨.refl hown, .refl _, h, .refl _, .refl _⟩

theorem ofRings {rings : RingTable} (hown : z.Owns s.procs) (h : z.RingsWithin s.rings rings) :
    z.Inside s { s with rings } := ⟨.refl hown, .refl _, .refl _, h, .refl _⟩

end Inside

end Zone

end Plinth
