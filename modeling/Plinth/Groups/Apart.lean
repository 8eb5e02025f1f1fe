import Plinth.Groups.Exit
import Plinth.Runs.Boot
import Plinth.Runs.Conserved
import Plinth.Runs.Frames
import Plinth.Runs.Origins
import Plinth.Runs.Replies

/-!
# `Plinth.Groups.Apart`: groups of processes that share nothing

Every process has a color, and a child has the color of its parent. Two groups are apart if nothing
leads from one to the other: no endpoint is named in both, no loan goes from one to the other, and
no reply capability names a caller of the other one (`GroupsApart`).

`GroupsApart.covers` connects this with the zones: the zone of a color covers the state, so each
call of a process stays in the zone of its color. `groups_apart` is about every run from a state
where the groups are apart. They stay apart, and no block range, event source, framebuffer or bound
device gets from one group to another, whatever the processes do.
-/

set_option autoImplicit false

namespace Plinth

open Transition

/-- The core whose process makes the entry. A launch, the scheduler, an interrupt and a store of
user code are entries of no process. -/
def Label.caller : Label → Option Core
  | .frameAlloc core => some core
  | .frameMap core _ _ => some core
  | .fbMap core _ _ _ => some core
  | .bindDevice core _ _ _ => some core
  | .capRelease core _ => some core
  | .cpuCharge core _ _ => some core
  | .spawn core _ _ => some core
  | .spawnFromBuffer core _ _ _ _ => some core
  | .send core _ _ _ => some core
  | .recv core _ => some core
  | .call core _ _ => some core
  | .reply core _ _ => some core
  | .ringRegister core _ _ _ => some core
  | .ringSubmit core _ => some core
  | .ringWait core _ => some core
  | .bindWait core _ _ _ => some core
  | .exit core => some core
  | _ => none

/-- An object through which a process can be reached: an endpoint, a ring, a bound device. -/
def CapObject.isChannel : CapObject → Bool
  | .endpoint _ => true
  | .ring _ => true
  | .boundDevice _ => true
  | _ => false

/-- An object that no call makes: a part of a disk, an event source, a screen, a bound device. -/
def CapObject.isResource : CapObject → Bool
  | .blockRange .. => true
  | .eventSource _ => true
  | .framebuffer .. => true
  | .boundDevice _ => true
  | _ => false

namespace Kernel

variable {κ : Type} {color : ProcSlot → κ} {c : κ} {R : κ → CapObject → Prop} {s t : Kernel}
  {ℓ : Label}
  {core : Core} {p q : ProcSlot} {i j : CapSlot} {cap d : Capability}

/-- Nothing leads from a process of one color to a process of another one. -/
structure GroupsApart (color : ProcSlot → κ) (s : Kernel) : Prop where
  endpoint : ∀ p q i j cap d id, s.capAt p i = some cap → s.capAt q j = some d →
    cap.object = .endpoint id → d.object = .endpoint id → color p = color q
  lender : ∀ q j cap o, s.capAt q j = some cap → cap.origin = some o → color o.lender = color q
  caller : ∀ q j cap p, s.capAt q j = some cap → cap.object = .reply p → color p = color q

/-- A process of the color `c` holds a resource only if `R c` has it. -/
def Confined (s : Kernel) (color : ProcSlot → κ) (R : κ → CapObject → Prop) : Prop :=
  ∀ q j cap, s.capAt q j = some cap → cap.object.isResource = true → R (color q) cap.object

/-- Only processes of the color `c` hold a capability for `o`. -/
def HeldIn (s : Kernel) (color : ProcSlot → κ) (c : κ) (o : CapObject) : Prop :=
  ∀ q j cap, s.capAt q j = some cap → cap.object = o → color q = c

/-- The zone of a color: its processes and the free slots, the channels that nobody else holds, the
resources of the color, and the address spaces that are nobody else's. -/
def zoneOf (s : Kernel) (color : ProcSlot → κ) (R : κ → CapObject → Prop) (c : κ) : Zone where
  slot p := s.procs.proc p = none ∨ color p = c
  object o := (o.isChannel = true → s.HeldIn color c o) ∧ (o.isResource = true → R c o) ∧
    ∀ p, o = .reply p → s.procs.proc p = none ∨ color p = c
  space l4 := ∀ q proc, s.procs.proc q = some proc → proc.l4 = l4 → color q = c
  frame a := ⟨nofun, nofun, nofun⟩
  budget n := ⟨nofun, nofun, nofun⟩
  caller p := by
    constructor
    · rintro ⟨-, -, h⟩
      exact h p rfl
    · intro h
      refine ⟨nofun, nofun, fun q hq => ?_⟩
      cases hq
      exact h

/-! ### The zone of a color covers the state -/

/-- At most one capability names a ring, or a bound device. -/
theorem Good.holder_unique (hgood : s.Good) (hchannel : cap.object.isChannel = true)
    (hne : ∀ id, cap.object ≠ .endpoint id) (hp : s.capAt p i = some cap)
    (hq : s.capAt q j = some d) (hobj : d.object = cap.object) : q = p := by
  have hone : liveTotal (objWeight cap.object) s.procs.proc ≤ 1 := by
    cases ho : cap.object with
    | ring id =>
      have hle := hgood.base.keyed.rings id
      refine le_trans hle ?_
      split <;> omega
    | boundDevice dev => exact hgood.base.keyed.bounds dev
    | endpoint id => exact absurd ho (hne id)
    | _ =>
      rw [ho] at hchannel
      cases hchannel
  obtain ⟨x, hx, hi⟩ := capAt_some hp
  obtain ⟨y, hy, hj⟩ := capAt_some hq
  have hweight : 0 < objWeight cap.object d := by
    rw [← hobj, objWeight_self]
    omega
  exact (liveTotal_place hone hy hj hweight hx hi (by rw [objWeight_self]; omega)).1

/-- The level-4 frame of an address space is one of its frames. -/
theorem l4_count_pos (m : Mem) (l4 : Nat) : 0 < (m.spaceFrames l4).count l4 := by
  refine List.count_pos_iff.mpr ?_
  unfold Mem.spaceFrames
  exact List.mem_append_right _ List.mem_cons_self

/-- Two live processes have different address spaces. -/
theorem space_unique (howned : s.ledger.Owned) {x y : Process} (hp : s.procs.proc p = some x)
    (hq : s.procs.proc q = some y) (hsame : y.l4 = x.l4) : q = p := by
  have hmark := FrameAlloc.marked_le_one s.mem.fa x.l4
  have howners := owners_le howned x.l4
  have hone : liveSpaceCount s.mem s.procs.proc x.l4 ≤ 1 := by omega
  have hin : ∀ proc : Process, proc.l4 = x.l4 →
      0 < (s.mem.spaceFrames proc.l4).count x.l4 := by
    intro proc hl4
    rw [hl4]
    exact l4_count_pos s.mem x.l4
  exact Tally.tally_le_one_unique hone hq (hin y hsame) hp (hin x rfl)

/-- A capability names only endpoints in use. -/
theorem Good.endpoint_inUse (hgood : s.Good) {id : EndpointId} (hcap : s.capAt q j = some cap)
    (hobj : cap.object = .endpoint id) : (s.ipc.endpoints id).inUse = true := by
  by_contra hnot
  have hfree : (s.ipc.endpoints id).inUse = false := by simpa using hnot
  obtain ⟨y, hy, hj⟩ := capAt_some hcap
  have hzero : liveTotal (objWeight (.endpoint id)) s.procs.proc = 0 := hgood.base.unnamed hfree
  have hle := le_liveTotal (objWeight (.endpoint id)) hy hj
  rw [← hobj, objWeight_self, hobj, hzero] at hle
  omega

/-- A caller that a reply capability names is alive. -/
theorem Good.caller_alive (hgood : s.Good) (hq : s.capAt q j = some cap)
    (hobj : cap.object = .reply p) : s.procs.proc p ≠ none := by
  obtain ⟨y, hy, hj⟩ := capAt_some hq
  have hpos : 0 < s.replies p := by
    refine lt_of_lt_of_le ?_ (le_liveTotal (objWeight (.reply p)) hy hj)
    rw [← hobj, objWeight_self]
    omega
  obtain ⟨-, x, -, hx⟩ := hgood.rep.procs.table_of_blocked (hgood.parked_reply.mp hpos).blocked
  intro hnone
  exact absurd (hx.symm.trans hnone) (Option.some_ne_none x)

/-- What a process of the color holds belongs to the zone of the color. -/
theorem GroupsApart.allows (h : s.GroupsApart color) (hgood : s.Good)
    (hconf : s.Confined color R) (hp : s.capAt p i = some cap) (hc : color p = c) :
    (s.zoneOf color R c).Allows cap := by
  refine ⟨⟨fun hchannel q j d hq hobj => ?_, fun hres => ?_, fun q hq => Or.inr ?_⟩,
    fun o ho => Or.inr ?_⟩
  · by_cases hep : ∃ id, cap.object = .endpoint id
    · obtain ⟨id, hid⟩ := hep
      rw [h.endpoint q p j i d cap id hq hp (hobj.trans hid) hid]
      exact hc
    · rw [hgood.holder_unique hchannel (fun id hid => hep ⟨id, hid⟩) hp hq hobj]
      exact hc
  · rw [← hc]
    exact hconf p i cap hp hres
  · rw [h.caller p i cap q hp hq]
    exact hc
  · rw [h.lender p i cap o hp ho]
    exact hc

theorem GroupsApart.admits (h : s.GroupsApart color) (hgood : s.Good) (howned : s.ledger.Owned)
    (hconf : s.Confined color R) {x : Process} (hp : s.procs.proc p = some x) (hc : color p = c) :
    (s.zoneOf color R c).Admits x := by
  refine ⟨fun k cap hk => h.allows hgood hconf (capAt_eq hp hk) hc, fun q y hq hsame => ?_⟩
  rw [space_unique howned hp hq hsame]
  exact hc

/-- The zone of a color covers the state. -/
theorem GroupsApart.covers (h : s.GroupsApart color) (hgood : s.Good) (howned : s.ledger.Owned)
    (hconf : s.Confined color R) : (s.zoneOf color R c).Covers s := by
  have hplaced := hgood.rep.procs.placed
  have hlive : ∀ {p x}, s.procs.proc p = some x → (s.zoneOf color R c).slot p → color p = c :=
    fun hp hslot => hslot.resolve_left (by rw [hp]; exact Option.some_ne_none _)
  -- A loan outside of the zone comes from outside of the zone.
  have hshut : ∀ {p x}, s.procs.proc p = some x → ¬ (s.zoneOf color R c).slot p →
      ∀ k cap o, x.caps.slots k = some cap → cap.origin = some o →
        ¬ (s.zoneOf color R c).slot o.lender := by
    intro p x hp hout k cap o hk ho hslot
    have hcap := capAt_eq hp hk
    rcases hslot with hdead | hc
    · exact (hgood.lender_alive hcap ho).2 hdead
    · exact hout (Or.inr (by rw [← h.lender p k cap o hcap ho]; exact hc))
  constructor
  · refine ⟨fun p x hslot hx => ?_, fun core x hslot hx => ?_⟩
    · have hp := hplaced.proc_of_table hx
      exact h.admits hgood howned hconf hp (hlive hp hslot)
    · have hp := hplaced.proc_of_current hx
      exact h.admits hgood howned hconf hp (hlive hp hslot)
  · exact ⟨fun p x hout hx => hshut (hplaced.proc_of_table hx) hout,
      fun core x hout hx => hshut (hplaced.proc_of_current hx) hout⟩
  · refine ⟨s.ipc.waiting, hgood.rep.ipc.queue_rep, fun id hid p hp => Or.inr ?_⟩
    obtain ⟨-, k, rights, ⟨x, cap, hx, hk, hobj, -⟩, -⟩ := hgood.base.holders id p hp
    exact hid.1 rfl p k cap (capAt_eq hx hk) hobj
  · exact fun p hp => Or.inl (hplaced.proc_of_empty hp)
  · intro id hfree
    refine ⟨fun _ q j cap hq hobj => ?_, nofun, nofun⟩
    rw [hgood.endpoint_inUse hq hobj] at hfree
    cases hfree
  · intro id hfree
    refine ⟨fun _ q j cap hq hobj => ?_, nofun, nofun⟩
    obtain ⟨y, hy, hj⟩ := capAt_some hq
    have hzero : liveTotal (objWeight (.ring id)) s.procs.proc ≤
        if (s.rings.rings id).inUse then 1 else 0 := hgood.base.keyed.rings id
    have hle := le_liveTotal (objWeight (.ring id)) hy hj
    rw [hfree] at hzero
    rw [← hobj, objWeight_self, hobj] at hle
    simp only [Bool.false_eq_true, if_false] at hzero
    omega
  · intro a fa halloc q x hq hl4
    -- The frame of an address space is not free.
    have hmark := (FrameAlloc.alloc_marked halloc).1
    have howners := owners_le howned a
    have hcount : (s.mem.spaceFrames x.l4).count a ≤ liveSpaceCount s.mem s.procs.proc a :=
      Tally.le_tally (fun proc => (s.mem.spaceFrames proc.l4).count a) hq
    have hpos : 0 < (s.mem.spaceFrames x.l4).count a := by
      rw [hl4]
      exact l4_count_pos s.mem a
    omega

/-! ### What an entry does to the zones -/

/-- The entry of a process stays in a zone that covers the state and has the process. -/
theorem step_inside {z : Zone} (h : z.Runs s core) (hcaller : ℓ.caller = some core)
    (hnext : s.step ℓ = some t) : z.Inside s t := by
  have call : ∀ {u : Kernel}, s.onCore core u = some t → z.Inside s u → z.Inside s t := by
    intro u hon hin
    rw [(onCore_some hon).2]
    exact hin
  cases ℓ with
  | frameAlloc c =>
    obtain rfl : c = core := Option.some.inj hcaller
    exact call hnext (z.sysFrameAlloc_inside h)
  | frameMap c slot va =>
    obtain rfl : c = core := Option.some.inj hcaller
    exact call hnext (z.sysFrameMap_inside h slot va)
  | fbMap c slot va infoPtr =>
    obtain rfl : c = core := Option.some.inj hcaller
    exact call hnext (z.sysFbMap_inside h slot va infoPtr)
  | bindDevice c slot va infoPtr =>
    obtain rfl : c = core := Option.some.inj hcaller
    exact call hnext (z.sysBindDevice_inside h slot va infoPtr)
  | capRelease c slot =>
    obtain rfl : c = core := Option.some.inj hcaller
    exact call hnext (z.sysCapRelease_inside h slot)
  | cpuCharge c slot amount =>
    obtain rfl : c = core := Option.some.inj hcaller
    exact call hnext (z.sysCpuCharge_inside h slot amount)
  | spawn c binary slot =>
    obtain rfl : c = core := Option.some.inj hcaller
    exact call hnext (z.sysSpawn_inside h binary slot)
  | spawnFromBuffer c bufVa len image slot =>
    obtain rfl : c = core := Option.some.inj hcaller
    exact call hnext (z.sysSpawnFromBuffer_inside h bufVa len image slot)
  | send c epSlot msg capSlot =>
    obtain rfl : c = core := Option.some.inj hcaller
    exact call hnext (z.ipcSend_inside h epSlot msg capSlot)
  | recv c epSlot =>
    obtain rfl : c = core := Option.some.inj hcaller
    exact call hnext (z.ipcRecv_inside h epSlot)
  | call c epSlot req =>
    obtain rfl : c = core := Option.some.inj hcaller
    exact call hnext (z.ipcCall_inside h epSlot req)
  | reply c slot msg =>
    obtain rfl : c = core := Option.some.inj hcaller
    exact call hnext (z.ipcReply_inside h slot msg)
  | ringRegister c sqSlot cqSlot entries =>
    obtain rfl : c = core := Option.some.inj hcaller
    exact call hnext (z.ringRegister_inside h sqSlot cqSlot entries)
  | ringSubmit c slot =>
    obtain rfl : c = core := Option.some.inj hcaller
    exact call hnext (z.ringSubmit_inside h slot)
  | ringWait c slot =>
    obtain rfl : c = core := Option.some.inj hcaller
    exact call hnext (z.ringWait_inside h slot)
  | bindWait c slot seen idx =>
    obtain rfl : c = core := Option.some.inj hcaller
    exact call hnext (z.bindWait_inside h slot seen idx)
  | exit c =>
    -- An exit is not a call that returns, so the step has another form.
    obtain rfl : c = core := Option.some.inj hcaller
    exact z.onExit_inside h hnext
  | _ => cases hcaller

/-- A process outside of the zone is as it was. -/
theorem proc_of_inside {z : Zone} (h : z.Inside s t) (hs : s.Good) (ht : t.Good)
    (hq : ¬ z.slot q) : t.procs.proc q = s.procs.proc q := by
  have hcores : ∀ c x, t.procs.currentSlot c = q ∧ t.procs.current c = some x ↔
      s.procs.currentSlot c = q ∧ s.procs.current c = some x := by
    intro c x
    rw [h.procs.slots]
    by_cases hc : s.procs.currentSlot c = q
    · rw [h.procs.current c (by rw [hc]; exact hq)]
    · simp only [hc, false_and]
  ext x
  rw [ht.rep.procs.placed.proc_eq_some, hs.rep.procs.placed.proc_eq_some, h.procs.table q hq]
  simp only [hcores]

/-- What a process in a slot of the zone holds belongs to the zone. -/
theorem allows_of_inside {z : Zone} (h : z.Inside s t) (ht : t.Good) (hq : z.slot q)
    (hcap : t.capAt q j = some cap) : z.Allows cap := by
  obtain ⟨y, hy, hj⟩ := capAt_some hcap
  rcases ht.rep.procs.placed.proc_eq_some.mp hy with htab | ⟨c, rfl, hcur⟩
  · exact (h.procs.owns.table q y hq htab).caps j cap hj
  · exact (h.procs.owns.current c y hq hcur).caps j cap hj

theorem wakeAll_proc (wakes : List ProcSlot) (P : Procs) : (wakeAll P wakes).proc = P.proc := by
  induction wakes generalizing P with
  | nil => rfl
  | cons w wakes ih =>
    have hone : (P.wakeWith w 0 0 noCap).proc = P.proc := by
      unfold Procs.wakeWith
      refine Procs.proc_congr (fun q => ?_) rfl rfl
      by_cases hq : q = w
      · rw [hq, Procs.setSlot_table_self]
      · rw [Procs.setSlot_table_of_ne _ _ hq]
    exact (ih _).trans hone

/-- The entries of no process, except for a launch, change no process. -/
theorem step_proc (hgood : s.Good) (hcaller : ℓ.caller = none) (hlaunch : ℓ.launches = false)
    (hnext : s.step ℓ = some t) : t.procs.proc = s.procs.proc := by
  cases ℓ with
  | createEndpoint =>
    obtain ⟨r, -, rfl⟩ := Option.map_eq_some_iff.mp hnext
    rfl
  | preempt core =>
    obtain ⟨P, hP, rfl⟩ := Option.map_eq_some_iff.mp hnext
    unfold Procs.preempt at hP
    split at hP
    · cases hP
    · rename_i proc hc
      rw [← Option.some.inj hP]
      exact (hgood.rep.procs.placed.park hc rfl (Or.inl rfl)).2
  | resume core p =>
    obtain ⟨P, hP, rfl⟩ := Option.map_eq_some_iff.mp hnext
    exact (hgood.rep.procs.placed.resume hP).2.2.2.2.1
  | completeIrq dev used =>
    rw [← Option.some.inj hnext]
    unfold completeIrq
    split
    · rfl
    · split
      · exact wakeAll_proc ..
      · exact wakeAll_proc ..
  | deliverEvent source event =>
    have ht : s.deliverEvent source event = t := Option.some.inj hnext
    rw [← ht]
    unfold deliverEvent
    dsimp only
    exact wakeAll_proc ..
  | memory ram =>
    cases hnext
    rfl
  | run core images extra => cases hlaunch
  | _ => cases hcaller

/-! ### Runs with colors -/

/-- The colors after an entry: a process that the entry made has the color of the caller. -/
def recolor (s : Kernel) (ℓ : Label) (t : Kernel) (color : ProcSlot → κ) (q : ProcSlot) : κ :=
  match ℓ.caller with
  | some core =>
    if (s.procs.proc q).isNone && (t.procs.proc q).isSome then color (s.procs.currentSlot core)
    else color q
  | none => color q

/-- The kernel from the state `s0`, with the colors of its processes. A launch needs an empty
process table, so no launch is a part of the run. -/
def grouped (s0 : Kernel) (color0 : ProcSlot → κ) :
    System (Kernel × (ProcSlot → κ)) Label where
  init m := m = (s0, color0)
  next m ℓ :=
    if ℓ.launches then none else (m.1.step ℓ).map fun t => (t, m.1.recolor ℓ t m.2)

theorem grouped_some {s0 : Kernel} {color0 : ProcSlot → κ} {m n : Kernel × (ProcSlot → κ)}
    (h : (grouped s0 color0).next m ℓ = some n) :
    ℓ.launches = false ∧ ∃ t, m.1.step ℓ = some t ∧ n = (t, m.1.recolor ℓ t m.2) := by
  change (if ℓ.launches then none else
    (m.1.step ℓ).map fun t => (t, m.1.recolor ℓ t m.2)) = some n at h
  split at h
  · cases h
  · rename_i hlaunch
    obtain ⟨t, ht, rfl⟩ := Option.map_eq_some_iff.mp h
    exact ⟨by simpa using hlaunch, t, ht, rfl⟩

/-- A process that lives keeps its color. -/
theorem recolor_alive (hq : s.procs.proc q ≠ none) : s.recolor ℓ t color q = color q := by
  unfold recolor
  split
  · rw [if_neg]
    simp [hq]
  · rfl

/-- A process in a slot of the caller's zone has the color of the caller. -/
theorem recolor_zone (hcaller : ℓ.caller = some core) (ht : t.procs.proc q ≠ none)
    (hslot : s.procs.proc q = none ∨ color q = color (s.procs.currentSlot core)) :
    s.recolor ℓ t color q = color (s.procs.currentSlot core) := by
  by_cases hs : s.procs.proc q = none
  · unfold recolor
    rw [hcaller]
    dsimp only
    rw [if_pos]
    rw [hs, Bool.and_eq_true]
    exact ⟨rfl, Option.isSome_iff_ne_none.mpr ht⟩
  · rw [recolor_alive hs]
    exact hslot.resolve_left hs

/-- What the colors say of a state. -/
structure Divided (color : ProcSlot → κ) (R : κ → CapObject → Prop) (s : Kernel) : Prop where
  reachable : Reachable system always s
  apart : s.GroupsApart color
  confined : s.Confined color R

theorem Divided.runs (h : s.Divided color R) (core : Core) :
    (s.zoneOf color R (color (s.procs.currentSlot core))).Runs s core :=
  ⟨h.apart.covers (good_of_reachable h.reachable) (owned_of_reachable h.reachable) h.confined,
    Or.inr rfl⟩

/-- A capability after the entry of a process is allowed in the zone of the caller, or it is one
from outside of the zone, with its color. -/
theorem Divided.capAt_call (h : s.Divided color R) (hcaller : ℓ.caller = some core)
    (hnext : s.step ℓ = some t) (hcap : t.capAt q j = some cap) :
    ((s.zoneOf color R (color (s.procs.currentSlot core))).Allows cap ∧
      s.recolor ℓ t color q = color (s.procs.currentSlot core)) ∨
    (s.capAt q j = some cap ∧ s.recolor ℓ t color q = color q ∧
      color q ≠ color (s.procs.currentSlot core)) := by
  have hs := good_of_reachable h.reachable
  have ht : t.Good := good_of_reachable (h.reachable.next trivial hnext)
  have hin := step_inside (h.runs core) hcaller hnext
  obtain ⟨y, hy, hj⟩ := capAt_some hcap
  by_cases hslot : (s.zoneOf color R (color (s.procs.currentSlot core))).slot q
  · refine Or.inl ⟨allows_of_inside hin ht hslot hcap, recolor_zone hcaller ?_ hslot⟩
    rw [hy]
    exact Option.some_ne_none y
  · have hsame := proc_of_inside hin hs ht hslot
    refine Or.inr ⟨capAt_eq (hsame.symm.trans hy) hj, recolor_alive fun hnone => ?_,
      fun hc => hslot (Or.inr hc)⟩
    exact hslot (Or.inl hnone)

/-- An endpoint that is allowed in the zone of a color is named by processes of the color only. -/
theorem color_of_endpoint {id : EndpointId} (hallows : (s.zoneOf color R c).Allows cap)
    (hcap : cap.object = .endpoint id) (hd : s.capAt q j = some d)
    (hobj : d.object = .endpoint id) : color q = c := by
  have hzone := hallows.object
  rw [hcap] at hzone
  exact hzone.1 rfl q j d hd hobj

/-- The entry of a process keeps the groups apart. -/
theorem Divided.call (h : s.Divided color R) (hcaller : ℓ.caller = some core)
    (hnext : s.step ℓ = some t) : t.Divided (s.recolor ℓ t color) R := by
  have hreach : Reachable system always t := h.reachable.next trivial hnext
  have hs := good_of_reachable h.reachable
  have ht := good_of_reachable hreach
  refine ⟨hreach, ⟨?_, ?_, ?_⟩, ?_⟩
  · -- An endpoint of the zone is named in the zone only.
    intro p q i j cap d id hcap hd hobj hobj'
    rcases h.capAt_call hcaller hnext hcap with ⟨hallows, hp⟩ | ⟨hold, hp, hne⟩
    · rcases h.capAt_call hcaller hnext hd with ⟨-, hq⟩ | ⟨hold', -, hne'⟩
      · rw [hp, hq]
      · exact absurd (color_of_endpoint hallows hobj hold' hobj') hne'
    · rcases h.capAt_call hcaller hnext hd with ⟨hallows, -⟩ | ⟨hold', hq, -⟩
      · exact absurd (color_of_endpoint hallows hobj' hold hobj) hne
      · rw [hp, hq]
        exact h.apart.endpoint p q i j cap d id hold hold' hobj hobj'
  · -- A lender is alive, so a lender in the zone has the color of the zone.
    intro q j cap o hcap ho
    rcases h.capAt_call hcaller hnext hcap with ⟨hallows, hq⟩ | ⟨hold, hq, -⟩
    · rw [hq]
      exact recolor_zone hcaller (ht.lender_alive hcap ho).2 (hallows.lender o ho)
    · rw [hq, recolor_alive (hs.lender_alive hold ho).2]
      exact h.apart.lender q j cap o hold ho
  · intro q j cap p hcap hobj
    rcases h.capAt_call hcaller hnext hcap with ⟨hallows, hq⟩ | ⟨hold, hq, -⟩
    · rw [hq]
      exact recolor_zone hcaller (ht.caller_alive hcap hobj) (hallows.object.2.2 p hobj)
    · rw [hq, recolor_alive (hs.caller_alive hold hobj)]
      exact h.apart.caller q j cap p hold hobj
  · intro q j cap hcap hres
    rcases h.capAt_call hcaller hnext hcap with ⟨hallows, hq⟩ | ⟨hold, hq, -⟩
    · rw [hq]
      exact hallows.object.2.1 hres
    · rw [hq]
      exact h.confined q j cap hold hres

/-- Every entry that is no launch keeps the groups apart. -/
theorem Divided.step (h : s.Divided color R) (hlaunch : ℓ.launches = false)
    (hnext : s.step ℓ = some t) : t.Divided (s.recolor ℓ t color) R := by
  cases hcaller : ℓ.caller with
  | some core => exact h.call hcaller hnext
  | none =>
    -- Nothing that the colors speak of changes.
    have hproc := step_proc (good_of_reachable h.reachable) hcaller hlaunch hnext
    have hcap : ∀ q j, t.capAt q j = s.capAt q j := fun q j => by unfold capAt; rw [hproc]
    have hcolor : s.recolor ℓ t color = color := by
      funext q
      unfold recolor
      rw [hcaller]
    rw [hcolor]
    refine ⟨h.reachable.next trivial hnext, ⟨?_, ?_, ?_⟩, ?_⟩
    · intro p q i j cap d id hp hq
      rw [hcap] at hp hq
      exact h.apart.endpoint p q i j cap d id hp hq
    · intro q j cap o hq
      rw [hcap] at hq
      exact h.apart.lender q j cap o hq
    · intro q j cap p hq
      rw [hcap] at hq
      exact h.apart.caller q j cap p hq
    · intro q j cap hq
      rw [hcap] at hq
      exact h.confined q j cap hq

/-- In every run from a state where the groups are apart, they stay apart, and a process holds a
block range, an event source, a framebuffer or a bound device only if a process of its own group
held it at the start. -/
theorem groups_apart {s0 : Kernel} {color0 : ProcSlot → κ} (hs0 : Reachable system always s0)
    (h0 : s0.GroupsApart color0) {m : Kernel × (ProcSlot → κ)}
    (hm : Reachable (grouped s0 color0) always m) :
    m.1.GroupsApart m.2 ∧ m.1.Confined m.2 fun c o =>
      ∃ q j cap, s0.capAt q j = some cap ∧ cap.object = o ∧ color0 q = c := by
  have hdivided : m.1.Divided m.2 fun c o =>
      ∃ q j cap, s0.capAt q j = some cap ∧ cap.object = o ∧ color0 q = c := by
    refine hm.invariant (I := fun m => m.1.Divided m.2 fun c o =>
      ∃ q j cap, s0.capAt q j = some cap ∧ cap.object = o ∧ color0 q = c)
      (fun m hinit => ?_) fun m ℓ n _ ih _ hnext => ?_
    · cases hinit
      exact ⟨hs0, h0, fun q j cap hcap _ => ⟨q, j, cap, hcap, rfl, rfl⟩⟩
    · obtain ⟨hlaunch, t, ht, rfl⟩ := grouped_some hnext
      exact ih.step hlaunch ht
  exact ⟨hdivided.apart, hdivided.confined⟩

/-! ### Two groups of the small machine -/

/-- The process holds nothing on loan and no reply capability, and each endpoint that it names has
its color. -/
def keepsTo (s : Kernel) (color : ProcSlot → κ) [DecidableEq κ] (name : EndpointId → κ)
    (q : ProcSlot) : Bool :=
  ((s.procs.proc q).map fun x => x.caps.iter.all fun cap => cap.origin.isNone &&
    match cap.object with
    | .endpoint id => color q == name id
    | .reply _ => false
    | _ => true).getD true

theorem apart_of_keepsTo [DecidableEq κ] (name : EndpointId → κ)
    (h : ∀ q, s.keepsTo color name q = true) : s.GroupsApart color := by
  have hcap : ∀ q j cap, s.capAt q j = some cap → cap.origin = none ∧
      (∀ id, cap.object = .endpoint id → color q = name id) ∧ ∀ p, cap.object ≠ .reply p := by
    intro q j cap hq
    obtain ⟨x, hx, hj⟩ := capAt_some hq
    have hall := h q
    unfold keepsTo at hall
    rw [hx, Option.map_some, Option.getD_some, List.all_eq_true] at hall
    have hone := hall cap (CapTable.mem_iter.mpr ⟨j, hj⟩)
    rw [Bool.and_eq_true, Option.isNone_iff_eq_none] at hone
    refine ⟨hone.1, fun id hid => ?_, fun p hp => ?_⟩
    · have hname := hone.2
      rw [hid] at hname
      exact beq_iff_eq.mp hname
    · have hname := hone.2
      rw [hp] at hname
      cases hname
  constructor
  · intro p q i j cap d id hp hq hobj hobj'
    rw [(hcap p i cap hp).2.1 id hobj, (hcap q j d hq).2.1 id hobj']
  · intro q j cap o hq ho
    rw [(hcap q j cap hq).1] at ho
    cases ho
  · intro q j cap p hq hobj
    exact absurd hobj ((hcap q j cap hq).2.2 p)

/-- Process 0 holds a part of a disk, and process 1 waits at an endpoint. -/
def twoGroups : Kernel := smallMachine.runFrom
  [.createEndpoint,
    .run 0 [some smallImage, some smallImage]
      [some ⟨.blockRange 0 8 16, rightRead, none⟩,
        some ⟨.endpoint 0, rightSend ||| rightRecv, none⟩],
    .resume 1 1, .recv 1 1]

/-- Every process is a group of its own. -/
theorem twoGroups_apart : twoGroups.GroupsApart id :=
  apart_of_keepsTo (fun _ => 1) (by decide +kernel)

/-- Process 0 lends its part of the disk to a child and allocates a frame, and the child runs. -/
def lendingRun : Kernel × (ProcSlot → ProcSlot) :=
  (grouped twoGroups id).runFrom (twoGroups, id)
    [.spawn 0 (some (some smallImage)) 1, .frameAlloc 0, .preempt 0, .resume 0 2]

theorem groups_apart_lendingRun :
    lendingRun.1.GroupsApart lendingRun.2 ∧ lendingRun.2 2 = 0 ∧
    (lendingRun.1.capAt 2 2).map Capability.object = some (.blockRange 0 8 16) ∧
    ∃ q j cap, twoGroups.capAt q j = some cap ∧ cap.object = .blockRange 0 8 16 ∧
      q = lendingRun.2 2 := by
  have hheld : (lendingRun.1.capAt 2 2).map Capability.object = some (.blockRange 0 8 16) := by
    decide +kernel
  obtain ⟨hapart, hconf⟩ := groups_apart (reachable_small _) twoGroups_apart
    ((grouped twoGroups id).run rfl
      [.spawn 0 (some (some smallImage)) 1, .frameAlloc 0, .preempt 0, .resume 0 2]).reachable
  obtain ⟨cap, hcap, hobj⟩ := Option.map_eq_some_iff.mp hheld
  obtain ⟨q, j, d, hd, hsame, hq⟩ := hconf 2 2 cap hcap (by rw [hobj]; rfl)
  exact ⟨hapart, by decide +kernel, hheld, q, j, d, hd, hsame.trans hobj, hq⟩

end Kernel

end Plinth
