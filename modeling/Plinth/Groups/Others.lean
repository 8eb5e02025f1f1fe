import Plinth.Groups.Apart

/-!
# `Plinth.Groups.Others`: a process while only other groups run

`Undisturbed s t q` says that the process of slot `q` has in `t` everything that it has in `s`: its
capabilities, its slot with its messages, the endpoints that it names with their waiters, its
address space, its rings with their subscriptions, and its bound devices.

`others_undisturbed` is about the runs in which the entries are calls of other groups, or the
scheduler at work on other groups. After such a run the process is as it was, whatever the other
groups do: they can exit, launch processes, revoke loans, or use up every endpoint.

The interrupts of the devices are no part of these runs, because a device serves every group. What
the devices and user code write to memory is outside of the kernel state.
-/

set_option autoImplicit false

namespace Plinth

open Transition

namespace Kernel

variable {κ : Type} {color : ProcSlot → κ} {c : κ} {R : κ → CapObject → Prop} {s t u : Kernel}
  {ℓ : Label} {core : Core} {p q : ProcSlot} {j : CapSlot} {cap : Capability}

/-- The process of slot `q` has in `t` what it has in `s`. -/
structure Undisturbed (s t : Kernel) (q : ProcSlot) : Prop where
  proc : t.procs.proc q = s.procs.proc q
  slot : t.procs.table q = s.procs.table q
  /-- A core that runs the process still runs it. -/
  running : ∀ core, s.procs.currentSlot core = q → s.procs.current core ≠ none →
    t.procs.currentSlot core = q ∧ t.procs.current core = s.procs.current core
  endpoint : ∀ j cap id, s.capAt q j = some cap → cap.object = .endpoint id →
    t.ipc.endpoints id = s.ipc.endpoints id ∧ t.ipc.waiting id = s.ipc.waiting id
  space : ∀ x, s.procs.proc q = some x → t.mem.spaces x.l4 = s.mem.spaces x.l4
  ring : ∀ j cap id, s.capAt q j = some cap → cap.object = .ring id →
    t.rings.rings id = s.rings.rings id ∧ ∀ (i : Nat) (sub : Subscription), sub.ring = id →
      (t.rings.subs[i]? = some (some sub) ↔ s.rings.subs[i]? = some (some sub))
  device : ∀ j cap dev, s.capAt q j = some cap → cap.object = .boundDevice dev →
    (t.devs.devices dev).bind VirtioBlk.bound = (s.devs.devices dev).bind VirtioBlk.bound

namespace Undisturbed

theorem refl (s : Kernel) (q : ProcSlot) : s.Undisturbed s q where
  proc := rfl
  slot := rfl
  running _ hcore _ := ⟨hcore, rfl⟩
  endpoint _ _ _ _ _ := ⟨rfl, rfl⟩
  space _ _ := rfl
  ring _ _ _ _ _ := ⟨rfl, fun _ _ _ => Iff.rfl⟩
  device _ _ _ _ _ := rfl

theorem capAt_eq (h : s.Undisturbed t q) (j : CapSlot) : t.capAt q j = s.capAt q j := by
  unfold capAt
  rw [h.proc]

theorem trans (h : s.Undisturbed t q) (h' : t.Undisturbed u q) : s.Undisturbed u q where
  proc := h'.proc.trans h.proc
  slot := h'.slot.trans h.slot
  running := by
    intro core hcore hcur
    obtain ⟨hslot, hsame⟩ := h.running core hcore hcur
    obtain ⟨hslot', hsame'⟩ := h'.running core hslot (by rw [hsame]; exact hcur)
    exact ⟨hslot', hsame'.trans hsame⟩
  endpoint := by
    intro j cap id hcap hobj
    obtain ⟨hep, hwait⟩ := h.endpoint j cap id hcap hobj
    obtain ⟨hep', hwait'⟩ := h'.endpoint j cap id ((h.capAt_eq j).trans hcap) hobj
    exact ⟨hep'.trans hep, hwait'.trans hwait⟩
  space := by
    intro x hx
    exact (h'.space x (h.proc.trans hx)).trans (h.space x hx)
  ring := by
    intro j cap id hcap hobj
    obtain ⟨hring, hsubs⟩ := h.ring j cap id hcap hobj
    obtain ⟨hring', hsubs'⟩ := h'.ring j cap id ((h.capAt_eq j).trans hcap) hobj
    exact ⟨hring'.trans hring, fun i sub hsub => (hsubs' i sub hsub).trans (hsubs i sub hsub)⟩
  device := by
    intro j cap dev hcap hobj
    exact (h'.device j cap dev ((h.capAt_eq j).trans hcap) hobj).trans
      (h.device j cap dev hcap hobj)

/-- A change of the process table alone. -/
theorem of_procs {P : Procs} (hproc : P.proc q = s.procs.proc q)
    (hslot : P.table q = s.procs.table q)
    (hrunning : ∀ core, s.procs.currentSlot core = q → s.procs.current core ≠ none →
      P.currentSlot core = q ∧ P.current core = s.procs.current core) :
    s.Undisturbed { s with procs := P } q :=
  { refl s q with
    proc := hproc
    slot := hslot
    running := hrunning }

end Undisturbed

/-! ### One entry -/

/-- The waiters of an endpoint that a process outside of the zone names. -/
theorem waiting_of_outside {z : Zone} {id : EndpointId} (hin : z.Inside s t) (hs : s.Good)
    (hid : ¬ z.object (.endpoint id)) (hout : ∀ p ∈ s.ipc.waiting id, ¬ z.slot p) :
    t.ipc.waiting id = s.ipc.waiting id := by
  have hold := hs.rep.ipc.queue_rep
  have hwait := congrFun hold.waiting_eq id
  have hholds := (hold id).frame fun p hp => hin.ipc.link p (hout p hp)
  rw [← hin.ipc.endpoint id hid] at hholds
  exact hholds.walk_eq (le_of_eq (Fintype.card_fin maxProcesses))

/-- A call of another group leaves the process as it was. -/
theorem Divided.spares_call (h : s.Divided color R) (hcaller : ℓ.caller = some core)
    (hnext : s.step ℓ = some t) (hlive : s.procs.proc q ≠ none)
    (hc : color (s.procs.currentSlot core) ≠ color q) : s.Undisturbed t q := by
  have hs := good_of_reachable h.reachable
  have ht : t.Good := good_of_reachable (h.reachable.next trivial hnext)
  have hin := step_inside (h.runs core) hcaller hnext
  -- The process is outside of the zone, and so is every process that shares an endpoint with it.
  have hout : ∀ {p}, s.procs.proc p ≠ none → color p = color q →
      ¬ (s.zoneOf color R (color (s.procs.currentSlot core))).slot p := by
    rintro p hp hpq (hdead | hcolor)
    · exact hp hdead
    · exact hc (hcolor.symm.trans hpq)
  have hchannel : ∀ {j cap}, s.capAt q j = some cap → cap.object.isChannel = true →
      ¬ (s.zoneOf color R (color (s.procs.currentSlot core))).object cap.object :=
    fun hcap hch hzone => hc (hzone.1 hch q _ _ hcap rfl).symm
  refine ⟨proc_of_inside hin hs ht (hout hlive rfl), hin.procs.table q (hout hlive rfl), ?_, ?_, ?_,
    ?_, ?_⟩
  · intro core' hcore _
    refine ⟨by rw [hin.procs.slots, hcore], hin.procs.current core' ?_⟩
    rw [hcore]
    exact hout hlive rfl
  · intro j cap id hcap hobj
    have hid := hchannel hcap (by rw [hobj]; rfl)
    rw [hobj] at hid
    refine ⟨hin.ipc.endpoint id hid, waiting_of_outside hin hs hid fun p hp => ?_⟩
    -- A waiter holds a capability for its endpoint.
    obtain ⟨-, k, rights, ⟨x, d, hx, hk, hd, -⟩, -⟩ := hs.base.holders id p hp
    refine hout ?_ (h.apart.endpoint p q k j d cap id (capAt_eq hx hk) hcap hd hobj)
    change s.procs.proc p = some x at hx
    rw [hx]
    exact Option.some_ne_none x
  · intro x hx
    exact hin.mem x.l4 fun hspace => hc (hspace q x hx rfl).symm
  · intro j cap id hcap hobj
    have hid := hchannel hcap (by rw [hobj]; rfl)
    rw [hobj] at hid
    refine ⟨hin.rings.ring id hid, fun i sub hsub => hin.rings.sub i sub ?_⟩
    rw [hsub]
    exact hid
  · intro j cap dev hcap hobj
    have hid := hchannel hcap (by rw [hobj]; rfl)
    rw [hobj] at hid
    exact hin.devs dev hid

/-- The boot code creates an endpoint that nobody names. -/
theorem kept_createEndpoint (hs : s.Good) {id : EndpointId} {ipc : Ipc}
    (hcreate : s.ipc.createEndpoint = some (id, ipc)) (q : ProcSlot) :
    s.Undisturbed { s with ipc } q := by
  obtain ⟨hfree, rfl⟩ := Ipc.createEndpoint_some hcreate
  refine { Undisturbed.refl s q with endpoint := fun j cap id' hcap hobj => ?_ }
  have hne : id' ≠ id := by
    rintro rfl
    rw [hs.endpoint_inUse hcap hobj] at hfree
    cases hfree
  have hsame := Ipc.setEndpoint_of_ne s.ipc { Endpoint.empty with inUse := true } hne
  refine ⟨hsame, ?_⟩
  unfold Ipc.waiting
  rw [hsame]
  rfl

/-- The timer suspends another process. -/
theorem kept_preempt (hs : s.Good) {P : Procs} (hrun : s.procs.preempt core = some P)
    (hne : s.procs.currentSlot core ≠ q) : s.Undisturbed { s with procs := P } q := by
  unfold Procs.preempt at hrun
  split at hrun
  · cases hrun
  · rename_i proc hc
    have hproc := (hs.rep.procs.placed.park hc
      (s := { s.procs.table (s.procs.currentSlot core) with state := .ready, process := some proc })
      rfl (Or.inl rfl)).2
    rw [← Option.some.inj hrun]
    refine .of_procs (congrFun hproc q) (Procs.setSlot_table_of_ne _ _ hne.symm) ?_
    intro core' hcore _
    refine ⟨hcore, Procs.setCurrent_current_of_ne _ _ fun heq => hne ?_⟩
    rw [← heq]
    exact hcore

/-- An idle core takes another process. -/
theorem kept_resume (hs : s.Good) {P : Procs} (hrun : s.procs.resume core p = some P)
    (hne : p ≠ q) : s.Undisturbed { s with procs := P } q := by
  have hproc := (hs.rep.procs.placed.resume hrun).2.2.2.2.1
  unfold Procs.resume at hrun
  split at hrun
  · rename_i hidle
    split at hrun
    · cases hrun
    · rename_i proc hp
      have hP := Option.some.inj hrun
      rw [← hP] at hproc ⊢
      refine .of_procs (congrFun hproc q) (Procs.setSlot_table_of_ne _ _ hne.symm) ?_
      intro core' hcore hcur
      -- The core was idle, so it did not run the process.
      have hcores : core' ≠ core := by
        rintro rfl
        exact hcur hidle.2
      dsimp only
      rw [Function.update_of_ne hcores, Function.update_of_ne hcores]
      exact ⟨hcore, rfl⟩
  · cases hrun

/-! ### Runs -/

/-- The entry is by a process of another color, or by the scheduler for such a process. -/
def spares (c : κ) (m : Kernel × (ProcSlot → κ)) : Label → Prop
  | .preempt core => m.2 (m.1.procs.currentSlot core) ≠ c
  | .resume _ p => m.2 p ≠ c
  | .createEndpoint => True
  | .memory _ => True
  | ℓ => ∃ core, ℓ.caller = some core ∧ m.2 (m.1.procs.currentSlot core) ≠ c

theorem Divided.spares (h : s.Divided color R) (hnext : s.step ℓ = some t)
    (hlive : s.procs.proc q ≠ none) (hok : spares (color q) (s, color) ℓ) : s.Undisturbed t q := by
  have hs := good_of_reachable h.reachable
  cases ℓ with
  | createEndpoint =>
    obtain ⟨⟨id, ipc⟩, hcreate, rfl⟩ := Option.map_eq_some_iff.mp hnext
    exact kept_createEndpoint hs hcreate q
  | preempt core =>
    obtain ⟨P, hP, rfl⟩ := Option.map_eq_some_iff.mp hnext
    exact kept_preempt hs hP fun heq => hok (by rw [heq])
  | resume core p =>
    obtain ⟨P, hP, rfl⟩ := Option.map_eq_some_iff.mp hnext
    exact kept_resume hs hP fun heq => hok (by rw [heq])
  | memory ram =>
    cases hnext
    exact { Undisturbed.refl s q with }
  | _ =>
    obtain ⟨core, hcaller, hc⟩ := hok
    exact h.spares_call hcaller hnext hlive hc

/-- In every run in which only other groups run, a process keeps everything that it has. -/
theorem others_undisturbed {s0 : Kernel} {color0 : ProcSlot → κ}
    (hs0 : Reachable system always s0) (h0 : s0.GroupsApart color0) {m : Kernel × (ProcSlot → κ)}
    (hm : Reachable (grouped s0 color0) (spares c) m) (hlive : s0.procs.proc q ≠ none)
    (hc : color0 q = c) : s0.Undisturbed m.1 q ∧ m.2 q = c := by
  have hall : m.1.Divided m.2 (fun _ _ => True) ∧ s0.Undisturbed m.1 q ∧ m.2 q = c := by
    refine hm.invariant
      (I := fun m => m.1.Divided m.2 (fun _ _ => True) ∧ s0.Undisturbed m.1 q ∧ m.2 q = c)
      (fun m hinit => ?_) fun m ℓ n _ ih hok hnext => ?_
    · cases hinit
      exact ⟨⟨hs0, h0, fun _ _ _ _ _ => trivial⟩, .refl s0 q, hc⟩
    · obtain ⟨hlaunch, t, ht, rfl⟩ := grouped_some hnext
      obtain ⟨hdivided, hkept, hcolor⟩ := ih
      -- The process still lives, so its color stays.
      have hq : m.1.procs.proc q ≠ none := by
        rw [hkept.proc]
        exact hlive
      refine ⟨hdivided.step hlaunch ht, hkept.trans (hdivided.spares ht hq ?_), ?_⟩
      · rw [hcolor]
        exact hok
      · exact (recolor_alive hq).trans hcolor
  exact hall.2

/-- Process 0 launches a child with its part of the disk and exits, and the child runs, while
process 1 waits at its endpoint. -/
def orphanedChild : Kernel × (ProcSlot → ProcSlot) :=
  (grouped twoGroups id).runFrom (twoGroups, id)
    [.spawn 0 (some (some smallImage)) 1, .exit 0, .resume 0 2, .frameAlloc 0]

theorem others_undisturbed_orphanedChild :
    twoGroups.Undisturbed orphanedChild.1 1 ∧ orphanedChild.2 1 = 1 ∧ orphanedChild.2 2 = 0 ∧
    orphanedChild.1.procs.proc 0 = none ∧ orphanedChild.1.ipc.waiting 0 = [1] := by
  have hstart : Reachable (grouped twoGroups id) (spares 1) (twoGroups, id) := ⟨[], .start rfl⟩
  have hspawn := hstart.pass (a := .spawn 0 (some (some smallImage)) 1)
    ⟨0, rfl, by decide +kernel⟩
  have hexit := hspawn.pass (a := .exit 0) ⟨0, rfl, by decide +kernel⟩
  have hresume := hexit.pass (a := .resume 0 2)
    (show ((grouped twoGroups id).runFrom (twoGroups, id)
      [.spawn 0 (some (some smallImage)) 1, .exit 0]).2 2 ≠ 1 by decide +kernel)
  have halloc : Reachable (grouped twoGroups id) (spares 1) orphanedChild :=
    hresume.pass (a := .frameAlloc 0) ⟨0, rfl, by decide +kernel⟩
  obtain ⟨hkept, hcolor⟩ := others_undisturbed (q := 1) (reachable_small _) twoGroups_apart halloc
    (by decide +kernel) rfl
  exact ⟨hkept, hcolor, by decide +kernel, by decide +kernel, by decide +kernel⟩

end Kernel

end Plinth
