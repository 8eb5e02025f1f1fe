import Plinth.Ledger.Housed
import Plinth.Runs.Counts
import Plinth.Runs.Frames
import Plinth.Runs.Landings
import Plinth.Runs.Mappings
import Plinth.Runs.RingOwners
import Plinth.Scheduler.Vacant

/-!
# `Plinth.Runs.Exits`: what an exit gives back

`ownedFrames` lists the frames of a process: those of its Frame capabilities, its image and stack
pages, its page tables and its level-4 table. They are pairwise distinct and allocated, because
every frame has at most one owner. `onExit` gives back exactly this list.

`drainCaps_empties` says what the drain does to the frames, the rings and the devices, and
`onExit_vacates` puts the whole exit together. A process that is bound to a device leaves it bound:
`teardown` holds the lock of the allocator, which an unbind needs.
-/

set_option autoImplicit false

namespace Plinth

open Transition

/-- The frame of a Frame capability. -/
def Capability.frame? (cap : Capability) : Option Nat :=
  match cap.object with
  | .frame addr => some addr
  | _ => none

namespace Kernel

variable {s t u : Kernel} {core : Core} {ℓ : Label} {p : ProcSlot} {proc : Process}
  {cap : Capability}

/-! ### What the exit leaves alone -/

/-- The frames, the rings, the devices and the boot records are the same. -/
structure Spares (s t : Kernel) : Prop where
  mem : t.mem = s.mem
  rings : t.rings = s.rings
  devs : t.devs = s.devs
  boot : SameBoot s.procs t.procs

theorem Spares.refl (s : Kernel) : Spares s s := ⟨rfl, rfl, rfl, SameBoot.refl _⟩

theorem Spares.trans (h : Spares s t) (h' : Spares t u) : Spares s u :=
  ⟨h'.mem.trans h.mem, h'.rings.trans h.rings, h'.devs.trans h.devs, h.boot.trans h'.boot⟩

theorem reclaimLentCap_spares (cur : ProcSlot) (s : Kernel) (cap : Capability) :
    Spares s (reclaimLentCap cur s cap) := by
  have hboot : SameBoot s.procs (reclaimLentCap cur s cap).procs := reclaimLentCap_boot s cap
  refine ⟨?_, ?_, ?_, hboot⟩
  all_goals
    unfold reclaimLentCap reclaimCapHome
    repeat' split
    all_goals first
      | rfl
      | (rename_i heq; split at heq <;> cases heq <;> rfl)

theorem reclaimLentCaps_spares (cur : ProcSlot) (caps : List Capability) (s : Kernel) :
    Spares s (caps.foldl (reclaimLentCap cur) s) := by
  induction caps generalizing s with
  | nil => exact .refl s
  | cons cap caps ih => exact (reclaimLentCap_spares cur s cap).trans (ih _)

theorem wakeAllStranded_boot (id : EndpointId) (fuel : Nat) (r : Procs × Ipc) :
    SameBoot r.1 (wakeAllStranded id fuel r).1 := by
  induction fuel generalizing r with
  | zero => exact SameBoot.refl _
  | succ fuel ih =>
    obtain ⟨P, ipc⟩ := r
    unfold wakeAllStranded
    dsimp only
    split
    · exact SameBoot.refl _
    · exact ((takeReclaimLanding_boot P _).trans (wakeWith_boot _ _ _ _ _)).trans (ih _)

/-- The wakes change the states and the mail of other processes only. -/
theorem reapDying_spares (s : Kernel) (dying : CapTable) : Spares s (s.reapDying dying) := by
  have hreply : ∀ (caps : List Capability) (P : Procs), SameBoot P (caps.foldl reapReply P) := by
    intro caps
    induction caps with
    | nil => exact fun P => SameBoot.refl P
    | cons cap caps ih => exact fun P => (reapReply_boot P cap).trans (ih _)
  have hend : ∀ (ids : List EndpointId) (r : Procs × Ipc),
      SameBoot r.1 (ids.foldl (reapEndpoint dying) r).1 := by
    intro ids
    induction ids with
    | nil => exact fun r => SameBoot.refl _
    | cons id ids ih =>
      intro r
      refine SameBoot.trans ?_ (ih _)
      unfold reapEndpoint
      dsimp only
      split
      · exact wakeAllStranded_boot id maxProcesses r
      · exact SameBoot.refl _
  exact ⟨rfl, rfl, rfl, (hreply dying.iter s.procs).trans (hend _ _)⟩

/-! ### The drain -/

/-- The drain of `caps` gives back their frames and frees their rings. -/
structure Empties (caps : List Capability) (s t : Kernel) : Prop where
  fa : t.mem.fa = s.mem.fa.giveBackAll (caps.filterMap Capability.frame?)
  spaces : t.mem.spaces = s.mem.spaces
  freed : ∀ cap ∈ caps, ∀ id, cap.object = .ring id → t.rings.rings id = Ring.empty
  kept : ∀ id, (∀ cap ∈ caps, cap.object ≠ .ring id) → t.rings.rings id = s.rings.rings id
  subs : ∀ sub, some sub ∈ t.rings.subs →
    some sub ∈ s.rings.subs ∧ ∀ cap ∈ caps, cap.object ≠ .ring sub.ring
  devs : t.devs = s.devs

theorem Empties.nil (s : Kernel) : Empties [] s s :=
  ⟨rfl, rfl, nofun, fun _ _ => rfl, fun _ hsub => ⟨hsub, nofun⟩, rfl⟩

/-- A capability of another kind is dropped, and nothing else happens to these parts. -/
theorem Empties.plain (hframe : ∀ a, cap.object ≠ .frame a) (hring : ∀ id, cap.object ≠ .ring id)
    (hmem : t.mem = s.mem) (hrings : t.rings = s.rings) (hdevs : t.devs = s.devs) :
    Empties [cap] s t := by
  have hnone : cap.frame? = none := by
    unfold Capability.frame?
    split
    · rename_i a hobj
      exact absurd hobj (hframe a)
    · rfl
  refine ⟨?_, by rw [hmem], ?_, fun _ _ => by rw [hrings], fun sub hsub => ⟨?_, ?_⟩, hdevs⟩
  · rw [hmem, List.filterMap_cons_none hnone]
    rfl
  · intro c hc id hobj
    rw [List.mem_singleton.mp hc] at hobj
    exact absurd hobj (hring id)
  · rwa [← hrings]
  · intro c hc
    rw [List.mem_singleton.mp hc]
    exact hring sub.ring

theorem releaseRing_rings (rt : RingTable) (id j : RingId) :
    (rt.release id).rings j = if j = id then Ring.empty else rt.rings j := by
  unfold RingTable.release RingTable.setRing
  dsimp only
  by_cases hj : j = id
  · subst hj
    rw [Function.update_self, if_pos rfl]
  · rw [Function.update_of_ne hj, if_neg hj]

/-- A subscription that is left is an old one of another ring. -/
theorem release_subs {rt : RingTable} {id : RingId} {sub : Subscription}
    (h : some sub ∈ (rt.release id).subs) : some sub ∈ rt.subs ∧ sub.ring ≠ id := by
  unfold RingTable.release at h
  obtain ⟨old, hold, heq⟩ := List.mem_map.mp h
  cases old with
  | none => cases heq
  | some old =>
    dsimp only at heq
    split at heq
    · cases heq
    · rename_i hne
      cases heq
      exact ⟨hold, hne⟩

theorem drainCap_empties (s : Kernel) (cap : Capability) : Empties [cap] s (s.drainCap cap) := by
  cases hobj : cap.object with
  | frame a =>
    have haction : releaseAction cap = .freeFrame a := by
      simp [releaseAction, hobj, isReclaimableKind, CapObject.dropAction]
    have hframe : cap.frame? = some a := by simp [Capability.frame?, hobj]
    unfold drainCap
    rw [haction]
    refine ⟨?_, rfl, ?_, fun _ _ => rfl, fun sub hsub => ⟨hsub, ?_⟩, rfl⟩
    · rw [List.filterMap_cons_some hframe]
      rfl
    · intro c hc id hring
      rw [List.mem_singleton.mp hc, hobj] at hring
      cases hring
    · intro c hc heq
      rw [List.mem_singleton.mp hc, hobj] at heq
      cases heq
  | ring id =>
    have haction : releaseAction cap = .releaseRing id := by
      simp [releaseAction, hobj, isReclaimableKind, CapObject.dropAction]
    have hframe : cap.frame? = none := by simp [Capability.frame?, hobj]
    unfold drainCap
    rw [haction]
    refine ⟨?_, rfl, ?_, ?_, fun sub hsub => ⟨(release_subs hsub).1, ?_⟩, rfl⟩
    · rw [List.filterMap_cons_none hframe]
      rfl
    · intro c hc j hring
      rw [List.mem_singleton.mp hc, hobj, CapObject.ring.injEq] at hring
      subst hring
      exact (releaseRing_rings s.rings id id).trans (if_pos rfl)
    · intro j hnone
      have hne : j ≠ id := by
        rintro rfl
        exact hnone cap List.mem_cons_self hobj
      exact (releaseRing_rings s.rings id j).trans (if_neg hne)
    · intro c hc heq
      rw [List.mem_singleton.mp hc, hobj, CapObject.ring.injEq] at heq
      exact (release_subs hsub).2 heq.symm
  | _ =>
    -- The other kinds own no frame and no ring.
    refine .plain (fun a heq => ?_) (fun id heq => ?_) ?_ ?_ ?_
    · rw [hobj] at heq
      cases heq
    · rw [hobj] at heq
      cases heq
    all_goals
      unfold drainCap releaseAction
      rw [hobj]
      cases cap.origin <;> rfl

theorem Empties.append {caps rest : List Capability} (h : Empties caps s t)
    (h' : Empties rest t u) : Empties (caps ++ rest) s u where
  fa := by
    rw [h'.fa, h.fa, List.filterMap_append]
    exact (List.foldl_append ..).symm
  spaces := h'.spaces.trans h.spaces
  freed := by
    intro cap hcap id hobj
    by_cases hrest : ∃ c ∈ rest, c.object = .ring id
    · obtain ⟨c, hc, hring⟩ := hrest
      exact h'.freed c hc id hring
    · -- The ring was freed before, and it stays free.
      have hnone : ∀ c ∈ rest, c.object ≠ .ring id := fun c hc hring => hrest ⟨c, hc, hring⟩
      rw [h'.kept id hnone]
      rcases List.mem_append.mp hcap with hin | hin
      · exact h.freed cap hin id hobj
      · exact absurd hobj (hnone cap hin)
  kept := by
    intro id hnone
    rw [h'.kept id fun c hc => hnone c (List.mem_append_right _ hc),
      h.kept id fun c hc => hnone c (List.mem_append_left _ hc)]
  subs := by
    intro sub hsub
    obtain ⟨hmid, hrest⟩ := h'.subs sub hsub
    obtain ⟨hold, hcaps⟩ := h.subs sub hmid
    refine ⟨hold, fun cap hcap => ?_⟩
    rcases List.mem_append.mp hcap with hin | hin
    · exact hcaps cap hin
    · exact hrest cap hin
  devs := h'.devs.trans h.devs

theorem drainCaps_empties (caps : List Capability) (s : Kernel) :
    Empties caps s (caps.foldl drainCap s) := by
  induction caps generalizing s with
  | nil => exact .nil s
  | cons cap caps ih => exact (drainCap_empties s cap).append (ih _)

end Kernel

/-- The boot frames go back, and the page tables stay until the address space is destroyed. -/
theorem unloadPages_fa (l4 : Nat) (boot : List (Nat × Nat)) (m : Mem) :
    (unloadPages l4 boot m).fa = m.fa.giveBackAll (boot.map Prod.snd) := by
  induction boot generalizing m with
  | nil => rfl
  | cons e boot ih => exact ih _

theorem unloadPages_tables (l4 : Nat) (boot : List (Nat × Nat)) (m : Mem) (l : Nat) :
    ((unloadPages l4 boot m).spaces l).tables = (m.spaces l).tables := by
  induction boot generalizing m with
  | nil => rfl
  | cons e boot ih =>
    have htail := ih { m.unmapUserPage l4 e.1 with
      fa := (m.unmapUserPage l4 e.1).fa.giveBack e.2 }
    exact htail.trans (Mem.unmapUserPage_tables m l4 e.1 l)

namespace Kernel

variable {s t u : Kernel} {core : Core} {ℓ : Label} {p : ProcSlot} {proc : Process}

/-! ### The whole exit -/

/-- The frames of a process, in the order in which an exit gives them back. -/
def ownedFrames (s : Kernel) (p : ProcSlot) (proc : Process) : List Nat :=
  proc.caps.iter.filterMap Capability.frame? ++
    ((s.procs.table p).bootFrames.map Prod.snd ++
      ((s.mem.spaces proc.l4).tables.map Prod.snd ++ [proc.l4]))

/-- What an exit does to the frames, the rings, the devices and the slot of the process. -/
structure Vacates (s : Kernel) (p : ProcSlot) (proc : Process) (t : Kernel) : Prop where
  fa : t.mem.fa = s.mem.fa.giveBackAll (s.ownedFrames p proc)
  freed : ∀ id, proc.Names (.ring id) → t.rings.rings id = Ring.empty
  kept : ∀ id, ¬ proc.Names (.ring id) → t.rings.rings id = s.rings.rings id
  subs : ∀ sub, some sub ∈ t.rings.subs →
    some sub ∈ s.rings.subs ∧ ¬ proc.Names (.ring sub.ring)
  devs : t.devs = s.devs
  slot : t.procs.table p = Slot.empty
  link : t.ipc.links p = none

/-- The exit of a process whose page tables are all of the user half. -/
theorem onExit_vacates (hc : s.procs.current core = some proc) (hlow : s.mem.UserHalf proc.l4)
    (hexit : s.onExit core = some t) : s.Vacates (s.procs.currentSlot core) proc t := by
  unfold onExit at hexit
  rw [hc] at hexit
  dsimp only at hexit
  rw [Option.some.injEq] at hexit
  generalize hcur : s.procs.currentSlot core = cur at hexit ⊢
  -- Up to the teardown the frames, the rings and the devices stay.
  have hspares : Spares s ((({ s with procs := s.procs.setCurrent core none } :
      Kernel).reclaimLentCaps proc.caps cur).reapDying proc.caps) := by
    have hstart : Spares s { s with procs := s.procs.setCurrent core none } :=
      ⟨rfl, rfl, rfl, SameBoot.refl _⟩
    exact (hstart.trans (reclaimLentCaps_spares cur proc.caps.iter _)).trans (reapDying_spares _ _)
  generalize (({ s with procs := s.procs.setCurrent core none } :
      Kernel).reclaimLentCaps proc.caps cur).reapDying proc.caps = u at hspares hexit
  have hboot : ((u.procs.clearOriginsNaming cur).table cur).bootFrames
      = (s.procs.table cur).bootFrames := hspares.boot cur
  rw [hboot] at hexit
  unfold teardown at hexit
  dsimp only at hexit
  have hun := Mem.unmapAll_unmaps u.mem proc.l4 (proc.maps.filterMap fun e => e.map Prod.fst)
  have hempties := drainCaps_empties proc.caps.iter { u with
    procs := u.procs.clearOriginsNaming cur
    mem := u.mem.unmapAll proc.l4 (proc.maps.filterMap fun e => e.map Prod.fst) }
  generalize proc.caps.iter.foldl drainCap { u with
    procs := u.procs.clearOriginsNaming cur
    mem := u.mem.unmapAll proc.l4 (proc.maps.filterMap fun e => e.map Prod.fst) } = w
    at hempties hexit
  -- The tables are still those of the process when the address space is destroyed.
  have htables : ∀ l, ((unloadPages proc.l4 (s.procs.table cur).bootFrames w.mem).spaces l).tables
      = (s.mem.spaces l).tables := by
    intro l
    rw [unloadPages_tables, hempties.spaces, hun.tables, hspares.mem]
  have huser : ((unloadPages proc.l4 (s.procs.table cur).bootFrames w.mem).spaces
      proc.l4).userTables = (s.mem.spaces proc.l4).tables.map Prod.snd := by
    rw [(hlow.of_tables (htables proc.l4)).userTables, htables]
  subst hexit
  refine ⟨?_, ?_, ?_, ?_, hempties.devs.trans hspares.devs, Procs.setSlot_table_self ..,
    Function.update_self ..⟩
  · unfold Mem.destroyAddressSpace ownedFrames
    rw [huser, unloadPages_fa, hempties.fa]
    dsimp only
    rw [hun.fa, hspares.mem]
    unfold FrameAlloc.giveBackAll
    simp only [List.foldl_append]
  · rintro id ⟨k, cap, hk, hobj⟩
    exact hempties.freed cap (CapTable.mem_iter.mpr ⟨k, hk⟩) id hobj
  · intro id hnone
    have hkept := hempties.kept id fun cap hcap hobj => by
      obtain ⟨k, hk⟩ := CapTable.mem_iter.mp hcap
      exact hnone ⟨k, cap, hk, hobj⟩
    rw [← hspares.rings]
    exact hkept
  · intro sub hsub
    obtain ⟨hold, hcaps⟩ := hempties.subs sub hsub
    refine ⟨by rw [← hspares.rings]; exact hold, ?_⟩
    rintro ⟨k, cap, hk, hobj⟩
    exact hcaps cap (CapTable.mem_iter.mpr ⟨k, hk⟩) hobj

/-! ### Every frame once -/

theorem frame?_count (caps : List Capability) (a : Nat) :
    (caps.filterMap Capability.frame?).count a = listTotal (objWeight (.frame a)) caps := by
  induction caps with
  | nil => rfl
  | cons cap caps ih =>
    rw [listTotal_cons, ← ih]
    cases hobj : cap.object with
    | frame b =>
      have hframe : cap.frame? = some b := by simp [Capability.frame?, hobj]
      rw [List.filterMap_cons_some hframe, count_cons_if]
      have hweight : objWeight (.frame a) cap = if a = b then 1 else 0 := by
        unfold objWeight
        rw [hobj]
        simp only [CapObject.frame.injEq, eq_comm]
      rw [hweight, Nat.add_comm]
    | _ =>
      have hframe : cap.frame? = none := by simp [Capability.frame?, hobj]
      rw [List.filterMap_cons_none hframe]
      simp [objWeight, hobj]

/-- What the processes of a reachable state live in. -/
theorem housed_of_reachable (hs : Reachable system always s) : s.ledger.Housed := by
  refine invariant (g := Guard.any) (fun s hinit => ?_) (fun _ _ h => ⟨h.live, h.spaces, h.image⟩)
    (fun _ _ act _ h => act.housed h) (fun s ℓ _ _ _ => s.permits_any ℓ) hs
  have hnone : ∀ p, s.ledger.proc p = none := hinit.proc_none
  refine ⟨fun p x hx => ?_, fun l4 hl4 => ?_, fun p x hx => ?_⟩
  · rw [hnone p] at hx
    cases hx
  · cases hl4
  · rw [hnone p] at hx
    cases hx

/-- The frames of a process are allocated, and none is listed twice. -/
theorem ownedFrames_count (hown : s.ledger.Owned) (hhoused : s.ledger.Housed)
    (hp : s.procs.proc p = some proc) (a : Nat) :
    (s.ownedFrames p proc).count a ≤ s.mem.fa.marked a := by
  have hsum := owners_le hown a
  have hcaps : (proc.caps.iter.filterMap Capability.frame?).count a ≤ s.frameCaps a := by
    rw [frame?_count, listTotal_iter]
    exact Tally.le_tally (procWeight (objWeight (.frame a))) hp
  have hboot : ((s.procs.table p).bootFrames.map Prod.snd).count a
      ≤ bootCount s.ledger.boot a :=
    Finset.single_le_sum (f := fun p => ((s.ledger.boot p).map Prod.snd).count a)
      (fun _ _ => Nat.zero_le _) (Finset.mem_univ p)
  have htables : ((s.mem.spaces proc.l4).tables.map Prod.snd ++ [proc.l4]).count a
      ≤ liveSpaceCount s.mem s.procs.proc a := by
    have hspace := Tally.le_tally (fun proc => (s.mem.spaceFrames proc.l4).count a) hp
    have htables : (s.mem.spaces proc.l4).userTables
        = (s.mem.spaces proc.l4).tables.map Prod.snd := (hhoused.live p proc hp).userTables
    rw [← htables]
    exact hspace
  unfold ownedFrames
  rw [List.count_append, List.count_append]
  omega

/-! ### The result -/

/-- The exit of the process in slot `p` gives back what it held, once, and nothing else. -/
structure GivesBack (s : Kernel) (p : ProcSlot) (proc : Process) (t : Kernel) : Prop where
  /-- The boot record lists the pages of an image and the stack. -/
  image : ∃ image : Image, (s.procs.table p).bootFrames.map Prod.fst = image.plan.map Prod.fst
  /-- The frames of the process are pairwise distinct, and they are allocated. -/
  once : (s.ownedFrames p proc).Nodup
  taken : ∀ a ∈ s.ownedFrames p proc, s.mem.fa.marked a = 1
  /-- They are given back in this order, and nothing else is. -/
  fa : t.mem.fa = s.mem.fa.giveBackAll (s.ownedFrames p proc)
  /-- Afterwards they are free, and every other frame is what it was. -/
  marked : ∀ a, t.mem.fa.marked a =
    if a ∈ s.ownedFrames p proc then 0 else s.mem.fa.marked a
  refused : t.mem.fa.refused = []
  /-- The rings of the process are free, and no subscription of them is left. -/
  rings : ∀ id, proc.Names (.ring id) → t.rings.rings id = Ring.empty
  otherRings : ∀ id, ¬ proc.Names (.ring id) → t.rings.rings id = s.rings.rings id
  subs : ∀ sub, some sub ∈ t.rings.subs →
    some sub ∈ s.rings.subs ∧ ¬ proc.Names (.ring sub.ring)
  /-- The endpoints count the references of the live processes, and the process is none of them.
  One that nobody names any more is free. -/
  gone : t.procs.proc p = none
  counts : t.CountsExact
  endpoints : ∀ id, proc.Names (.endpoint id) →
    ((t.ipc.endpoints id).inUse = true ↔ 0 < t.named id)
  /-- The process waits in no queue, and its slot is free. -/
  queues : ∀ id, p ∉ t.ipc.waiting id
  link : t.ipc.links p = none
  slot : t.procs.table p = Slot.empty
  /-- The devices are what they were. A device that the process is bound to stays bound. -/
  devs : t.devs = s.devs

/-- An exit in a reachable state. -/
theorem Good.gives_back (hs : Reachable system always s) (hnext : s.step ℓ = some t)
    (hleaver : s.leaver ℓ = some p) :
    ∃ proc, s.procs.proc p = some proc ∧ s.GivesBack p proc t := by
  have hgood := good_of_reachable hs
  have hgood' := good_of_reachable (hs.next trivial hnext)
  have hhoused := housed_of_reachable hs
  obtain ⟨core, rfl, hexit⟩ := leaver_exit hnext hleaver
  obtain ⟨proc, hc⟩ : ∃ proc, s.procs.current core = some proc := by
    unfold onExit at hexit
    cases hc : s.procs.current core with
    | none =>
      rw [hc] at hexit
      cases hexit
    | some proc => exact ⟨proc, rfl⟩
  have hp : s.procs.proc (s.procs.currentSlot core) = some proc := hgood.proc_of_current hc
  have hvac := onExit_vacates hc (hhoused.live _ proc hp) hexit
  have hempty := leaver_empties hnext hleaver
  have hcount := ownedFrames_count (owned_of_reachable hs) hhoused hp
  -- Each frame has one owner at most, so it is listed once and it is allocated.
  have hone : ∀ a, a ∈ s.ownedFrames (s.procs.currentSlot core) proc →
      (s.ownedFrames (s.procs.currentSlot core) proc).count a = 1 ∧ s.mem.fa.marked a = 1 := by
    intro a ha
    have hpos := List.count_pos_iff.mpr ha
    have hle := hcount a
    have hmark := FrameAlloc.marked_le_one s.mem.fa a
    omega
  obtain ⟨hrefused, hmarked⟩ := @FrameAlloc.giveBackAll_marked s.mem.fa
    (s.ownedFrames (s.procs.currentSlot core) proc) (fun _ => 0) fun a => by
      rw [Nat.zero_add]
      exact hcount a
  refine ⟨proc, hp, hhoused.image _ proc hp, ?_, fun a ha => (hone a ha).2, hvac.fa,
    fun a => ?_, ?_,
    hvac.freed, hvac.kept, hvac.subs, hgood'.rep.procs.placed.proc_of_empty hempty,
    hgood'.countsExact, fun id hnames => ?_, fun id => ?_, hvac.link, hvac.slot, hvac.devs⟩
  · rw [List.nodup_iff_count_le_one]
    intro a
    exact (hcount a).trans (FrameAlloc.marked_le_one s.mem.fa a)
  · have hsum := hmarked a
    rw [hvac.fa]
    split
    · rename_i ha
      have hboth := hone a ha
      omega
    · rename_i ha
      rw [List.count_eq_zero.mpr ha] at hsum
      omega
  · rw [hvac.fa, hrefused]
    exact (owned_of_reachable hs).refused
  · -- The process names the endpoint, so it was named before the exit.
    obtain ⟨k, cap, hk, hobj⟩ := hnames
    refine hgood.freed_iff hnext ?_
    have hslot := Tally.le_tally (objWeight (.endpoint id)) hk
    have hlive := Tally.le_tally (procWeight (objWeight (.endpoint id))) hp
    have hself : objWeight (.endpoint id) cap = 1 := by rw [← hobj, objWeight_self]
    rw [hself] at hslot
    exact Nat.lt_of_lt_of_le hslot hlive
  · have hfree : t.ledger.Free (s.procs.currentSlot core) := by
      left
      change t.procs.state (s.procs.currentSlot core) ≠ .blocked
      rw [hempty]
      nofun
    exact hgood'.base.registered.not_queued hfree id

/-- An exit leaves nothing of the process behind but a direct binding. It gives back the frames of
the process, each once, and no other frame. It frees the rings of the process, its references to
endpoints, its position in the queues and its slot. The devices stay what they were. -/
theorem exit_gives_back :
    (∀ s t ℓ p, Reachable system always s → s.step ℓ = some t → s.leaver ℓ = some p →
      ∃ proc, s.procs.proc p = some proc ∧ s.GivesBack p proc t) ∧
    ∀ (x y : Sched) (core : Core) (env : Sched.Env), Reachable Sched.system always x →
      Sched.system.next x (.exit core env) = some y →
        y.procs.table (x.procs.currentSlot core) = Slot.empty ∧
          ∀ c i, y.coreQueue c i ≠ some (x.procs.currentSlot core) :=
  ⟨fun _ _ _ _ hs hnext hleaver => Good.gives_back hs hnext hleaver,
    fun _ _ _ _ hs hnext => Sched.exit_leaves_queues hs hnext⟩

/-- A process with two frames and a ring exits, and so does the last process of core 1. -/
theorem exit_gives_back_ringRun :
    (∃ t proc, (smallMachine.runFrom ringRun).step (.exit 0) = some t ∧
      (smallMachine.runFrom ringRun).procs.proc 0 = some proc ∧
      (smallMachine.runFrom ringRun).GivesBack 0 proc t) ∧
    ∃ y, Sched.system.next (Sched.system.runFrom (Sched.booted 2) Sched.stealingRun)
      (.exit 1 Sched.calm) = some y ∧ ∀ c i, y.coreQueue c i ≠ some 2 := by
  obtain ⟨t, ht⟩ : ∃ t, (smallMachine.runFrom ringRun).step (.exit 0) = some t :=
    Option.isSome_iff_exists.mp (by decide +kernel)
  obtain ⟨y, hy⟩ : ∃ y, Sched.system.next (Sched.system.runFrom (Sched.booted 2)
      Sched.stealingRun) (.exit 1 Sched.calm) = some y :=
    Option.isSome_iff_exists.mp (by decide +kernel)
  obtain ⟨proc, hp, hback⟩ := exit_gives_back.1 _ t (.exit 0) 0 (reachable_small ringRun) ht
    (by decide +kernel)
  have hqueues := (exit_gives_back.2 _ y 1 Sched.calm
    (Sched.system.run (Sched.booted_init (by decide)) Sched.stealingRun).reachable hy).2
  have hslot :
    (Sched.system.runFrom (Sched.booted 2) Sched.stealingRun).procs.currentSlot 1 = 2 := by
    decide +kernel
  rw [hslot] at hqueues
  exact ⟨⟨t, proc, ht, hp, hback⟩, y, hy, hqueues⟩

/-- A process that is bound to a device exits. No process is left, and the device is bound still,
with the frames of the binding allocated. -/
theorem boundRun_leaves_binding : ∃ s t, Reachable system always s ∧
    s.step (.exit 0) = some t ∧ s.leaver (.exit 0) = some 0 ∧
    (s.capAt 0 1).map Capability.object = some (.boundDevice 1) ∧
    (∀ p, t.procs.state p = .empty) ∧
    ((t.devs.devices 1).bind VirtioBlk.bound).map (fun b => b.frames.map t.mem.fa.marked)
      = some [1, 1, 1, 1, 1] := by
  obtain ⟨t, ht⟩ : ∃ t, (smallMachine.runFrom boundRun).step (.exit 0) = some t :=
    Option.isSome_iff_exists.mp (by decide +kernel)
  have hall : ((smallMachine.runFrom boundRun).step (.exit 0)).map (fun t =>
      ((List.finRange maxProcesses).all fun p => t.procs.state p == .empty,
        ((t.devs.devices 1).bind VirtioBlk.bound).map fun b => b.frames.map t.mem.fa.marked))
      = some (true, some [1, 1, 1, 1, 1]) := by
    decide +kernel
  rw [ht, Option.map_some, Option.some.injEq, Prod.mk.injEq] at hall
  refine ⟨_, t, reachable_small boundRun, ht, by decide +kernel, by decide +kernel, fun p => ?_,
    hall.2⟩
  exact beq_iff_eq.mp (List.all_eq_true.mp hall.1 p (List.mem_finRange p))

end Kernel

end Plinth
