import Plinth.Refine.Memory
import Plinth.Refine.Reclaim

/-!
# `Plinth.Refine.Release`: the release of a capability

`sys_cap_release` takes a capability out of the table of the running process and settles it by
its kind. A frame, a ring and a plain capability are taken and then drained, as at an exit. A
borrowed capability goes home. An endpoint capability and a bound device leave in one action.
-/

set_option autoImplicit false

namespace Plinth

variable {g : Guard} {s : Kernel} {core : Core} {proc : Process} {k : CapSlot}
  {cap : Capability}

namespace Procs

theorem setCurrent_setCurrent (P : Procs) (core : Core) (x y : Option Process) :
    (P.setCurrent core x).setCurrent core y = P.setCurrent core y := by
  unfold setCurrent
  dsimp only
  rw [Function.update_idem]

end Procs

namespace Kernel

/-- The running process without the capability `cap` of slot `k`, and the memory without the
mappings made through the slot. -/
def without (s : Kernel) (core : Core) (proc : Process) (cap : Capability) (k : CapSlot) :
    Kernel :=
  s.setCurrentMem core (unmapForSlot s.mem (proc.setCaps (proc.caps.set k none)) cap k)

/-- The take half of a release. The capability is held afterwards. -/
theorem Good.takes (h : s.Good) (hc : s.procs.current core = some proc)
    (hk : proc.caps.slots k = some cap) (hkind : cap.isHoldable)
    (hg : g.take s.ledger (s.procs.currentSlot core) k) :
    let r := unmapForSlot s.mem (proc.setCaps (proc.caps.set k none)) cap k
    Act g s.ledger { s.ledger with
      proc := Function.update s.ledger.proc (s.procs.currentSlot core) (some r.1)
      mem := r.2, held := [cap], spent := true } ∧
    Rep (s.without core proc cap k) none { s.ledger with
      proc := Function.update s.ledger.proc (s.procs.currentSlot core) (some r.1)
      mem := r.2, held := [cap], spent := true } := by
  intro r
  have hproc := h.proc_of_current hc
  have hfree : s.ledger.Free (s.procs.currentSlot core) :=
    Or.inl (by rw [h.state_of_current hc]; exact fun heq => by cases heq)
  have hw := h.rep.procs.placed.writes_current hc r.1
  refine ⟨Act.table (TableAct.take hproc hk hkind rfl rfl rfl ⟨hfree, hg⟩), ?_⟩
  refine ⟨h.rep.procs.write (by rw [hproc]; exact Option.some_ne_none proc) hw,
    h.rep.ipc.same fun id right => ?_, rfl, rfl, rfl⟩
  have hput := liveTotal_put (reachWeight id right) hproc r.1
  have hrev := procWeight_revoke (reachWeight id right) hk
  have hun : procWeight (reachWeight id right) r.1 = _ := procWeight_unmapForSlot _ _
  have hheld : s.ledger.held = [] := rfl
  unfold peers
  dsimp only
  rw [hheld, listTotal_cons]
  omega

/-- A capability that neither goes home nor stands for an endpoint or a bound device is taken
and drained. -/
theorem Good.takes_drains (h : s.Good) (hc : s.procs.current core = some proc)
    (hk : proc.caps.slots k = some cap) (hkind : cap.isHoldable)
    (hg : g.take s.ledger (s.procs.currentSlot core) k)
    (hhome : isReclaimableKind cap.object = true → cap.origin = none)
    (hreply : ∀ c, cap.object ≠ .reply c) :
    s.Refines g ((s.without core proc cap k).drainCap cap) := by
  obtain ⟨hact, hrep⟩ := h.takes (g := g) hc hk hkind hg
  have hendpoint : ∀ id, cap.object ≠ .endpoint id := by
    intro id hobj
    unfold Capability.isHoldable at hkind
    rw [hobj] at hkind
    exact hkind
  obtain ⟨mem, rings, inUse, sendersWait, hpath, hrep'⟩ := drainCap_path (g := g) hrep
    (hact.base h.base) rfl rfl hhome hreply fun id hobj => absurd hobj (hendpoint id)
  exact ⟨_, hpath.head hact, hrep', ⟨rfl, rfl, rfl, rfl, rfl, rfl, rfl⟩⟩

/-- `unmap_fb_for_slot` on the running process. -/
theorem unmapFb_refine {v : Ledger} (hrep : Rep s none v)
    (hc : s.procs.current core = some proc) :
    let r := unmapFbForSlot s.mem proc k
    Act g v { v with
      proc := Function.update v.proc (s.procs.currentSlot core) (some r.1), mem := r.2 } ∧
    Rep (s.setCurrentMem core r) none { v with
      proc := Function.update v.proc (s.procs.currentSlot core) (some r.1), mem := r.2 } := by
  intro r
  have hproc := hrep.procs.proc_of_current hc
  have hw := hrep.procs.placed.writes_current hc r.1
  have hact := Act.table (g := g) (TableAct.unmapFb k hproc)
  rw [hrep.mem] at hact
  have hwrite := hrep.write hproc hw fun id right => rfl
  exact ⟨hact, ⟨hwrite.procs, hwrite.ipc, rfl, hrep.rings, hrep.devs⟩⟩

/-- The frames that an unbind frees. -/
theorem unbind_eq (ds : Devices) (fa : FrameAlloc) (dev : DevId) :
    ds.unbind fa dev = ((ds.detach dev).1, fa.giveBackAll (ds.detach dev).2) := by
  unfold Devices.unbind Devices.detach Devices.bindTeardown
  cases hd : ds.devices dev with
  | none => rfl
  | some d =>
    cases hb : d.bound with
    | none =>
      simp only [Option.bind_some, hb]
      rfl
    | some b =>
      simp only [Option.bind_some, hb]
      cases hi : ds.iommu with
      | none => simp only [Devices.setDevice, hi]
      | some bi =>
        cases hbound : bi.bound with
        | none => simp only [Devices.setDevice, hi, hbound]
        | some d' =>
          simp only [Devices.setDevice, hi, hbound, FrameAlloc.giveBackAll, List.foldl_append]

/-! ### The arms of a release -/


/-- The state after the revoke of a release. -/
def revoked (s : Kernel) (core : Core) (proc : Process) (k : CapSlot) : Kernel :=
  { s with procs := s.procs.setCurrent core (some (proc.setCaps (proc.caps.set k none))) }

theorem without_of_object (h : unmapForSlot s.mem (proc.setCaps (proc.caps.set k none)) cap k
    = (proc.setCaps (proc.caps.set k none), s.mem)) :
    s.without core proc cap k = s.revoked core proc k := by
  unfold without
  rw [h]
  rfl

theorem setCurrentMem_revoked (r : Process × Mem) :
    (s.revoked core proc k).setCurrentMem core r = s.setCurrentMem core r := by
  unfold setCurrentMem revoked
  rw [Procs.setCurrent_setCurrent]

/-- The release of an endpoint capability. -/
theorem releaseEndpoint_refines (h : s.Good) (hc : s.procs.current core = some proc)
    (hk : proc.caps.slots k = some cap) {id : EndpointId} (hobj : cap.object = .endpoint id)
    (hg : g.take s.ledger (s.procs.currentSlot core) k) :
    s.Refines g { s.revoked core proc k with
      ipc := (s.revoked core proc k).ipc.noteCapRemoved cap true } := by
  have hproc := h.proc_of_current hc
  have hput := fun w => liveTotal_put w hproc (proc.setCaps (proc.caps.set k none))
  have hrev := fun w => procWeight_revoke w hk
  have htotal : ({ s.ledger with
        proc := Function.update s.ledger.proc (s.procs.currentSlot core)
          (some (proc.setCaps (proc.caps.set k none))), spent := true } : Ledger).total
        (objWeight (.endpoint id)) + 1 = s.ledger.total (objWeight (.endpoint id)) := by
    have hp := hput (objWeight (.endpoint id))
    have hr := hrev (objWeight (.endpoint id))
    rw [← hobj, objWeight_self, hobj] at hr
    unfold Holdings.total
    dsimp only
    omega
  have hact := Act.takeEndpoint (g := g) hproc hk hobj
    (by rw [h.state_of_current hc]; exact fun heq => by cases heq) rfl rfl hg htotal
  have hbase := hact.base h.base
  have hw := h.rep.procs.placed.writes_current hc (proc.setCaps (proc.caps.set k none))
  have hsettle := h.rep.settles hbase rfl hobj rfl fun id right => by
    have hp := hput (reachWeight id right)
    have hr := hrev (reachWeight id right)
    change peers (Function.update s.ledger.proc _ _) [] id right + _ = _
    unfold peers
    have hheld : s.ledger.held = [] := rfl
    rw [hheld]
    omega
  refine ⟨_, Relation.ReflTransGen.single hact, ⟨?_, hsettle, rfl, rfl, rfl⟩,
    ⟨rfl, rfl, rfl, rfl, rfl, rfl, rfl⟩⟩
  exact h.rep.procs.write (by rw [hproc]; exact Option.some_ne_none proc) hw

/-- The release of a bound device. -/
theorem releaseBound_refines (h : s.Good) (hc : s.procs.current core = some proc)
    (hk : proc.caps.slots k = some cap) {dev : DevId} (hobj : cap.object = .boundDevice dev)
    (hg : g.take s.ledger (s.procs.currentSlot core) k) :
    s.Refines g ({ s.revoked core proc k with
      devs := (s.devs.unbind s.mem.fa dev).1 }.setFa (s.devs.unbind s.mem.fa dev).2) := by
  have hproc := h.proc_of_current hc
  have hact := Act.takeBound (g := g) hproc hk hobj
    (by rw [h.state_of_current hc]; exact fun heq => by cases heq) rfl rfl hg
  have hback := giveBackAll_path s.mem (s.devs.detach dev).2 [] []
  have hw := h.rep.procs.placed.writes_current hc (proc.setCaps (proc.caps.set k none))
  rw [unbind_eq]
  refine ⟨_, (hback.path g (v := { s.ledger with
      proc := Function.update s.ledger.proc (s.procs.currentSlot core)
        (some (proc.setCaps (proc.caps.set k none)))
      devs := (s.devs.detach dev).1
      frames := (s.devs.detach dev).2 ++ [], spent := true }) rfl).head hact, ?_,
    ⟨rfl, rfl, rfl, rfl, rfl, rfl, rfl⟩⟩
  refine ⟨h.rep.procs.write (by rw [hproc]; exact Option.some_ne_none proc) hw,
    h.rep.ipc.same fun id right => ?_, rfl, rfl, rfl⟩
  have hput := liveTotal_put (reachWeight id right) hproc (proc.setCaps (proc.caps.set k none))
  have hrev := procWeight_revoke (reachWeight id right) hk
  rw [Ipc.reachWeight_of_ne right (by rw [hobj]; exact fun heq => by cases heq)] at hrev
  have hheld : s.ledger.held = [] := rfl
  unfold peers Ledger.setStore
  dsimp only
  rw [hheld]
  omega

/-- A borrowed capability is taken, and the framebuffer mappings of its slot go. -/
theorem Good.takes_borrowed (h : s.Good) (hc : s.procs.current core = some proc)
    (hk : proc.caps.slots k = some cap) (hkind : isReclaimableKind cap.object = true)
    (hg : g.take s.ledger (s.procs.currentSlot core) k) :
    let r := unmapFbForSlot s.mem (proc.setCaps (proc.caps.set k none)) k
    Path g s.ledger { s.ledger with
      proc := Function.update s.ledger.proc (s.procs.currentSlot core) (some r.1)
      mem := r.2, held := [cap], spent := true } ∧
    Rep (s.setCurrentMem core r) none { s.ledger with
      proc := Function.update s.ledger.proc (s.procs.currentSlot core) (some r.1)
      mem := r.2, held := [cap], spent := true } := by
  intro r
  have hhold : cap.isHoldable := by
    unfold Capability.isHoldable
    cases hobj : cap.object <;> rw [hobj] at hkind <;> first | trivial | cases hkind
  obtain ⟨hact, hrep⟩ := h.takes (g := g) hc hk hhold hg
  by_cases hfb : unmapForSlot s.mem (proc.setCaps (proc.caps.set k none)) cap k = r
  · unfold without at hrep
    rw [hfb] at hact hrep
    exact ⟨Relation.ReflTransGen.single hact, hrep⟩
  · have hsame : unmapForSlot s.mem (proc.setCaps (proc.caps.set k none)) cap k
        = (proc.setCaps (proc.caps.set k none), s.mem) := by
      unfold unmapForSlot
      cases hobj : cap.object <;> rw [hobj] at hkind <;> try cases hkind
      case framebuffer =>
        refine absurd ?_ hfb
        unfold unmapForSlot
        rw [hobj]
      all_goals rfl
    rw [without_of_object hsame] at hrep
    rw [hsame] at hact hrep
    obtain ⟨hun, hrep'⟩ := unmapFb_refine (g := g) (k := k) hrep
      (Procs.setCurrent_current_self ..)
    rw [setCurrentMem_revoked] at hrep'
    dsimp only at hun hrep'
    have hidem : Function.update (Function.update s.ledger.proc (s.procs.currentSlot core)
        (some (proc.setCaps (proc.caps.set k none)))) (s.procs.currentSlot core) (some r.1)
        = Function.update s.ledger.proc (s.procs.currentSlot core) (some r.1) :=
      Function.update_idem ..
    have hpath := (Relation.ReflTransGen.single hact).tail hun
    have hslot : (s.revoked core proc k).procs.currentSlot = s.procs.currentSlot := rfl
    rw [hslot] at hpath hrep'
    rw [show (s.revoked core proc k).mem = s.mem from rfl] at hpath hrep'
    rw [hidem] at hpath hrep'
    exact ⟨hpath, hrep'⟩

/-- The release of a borrowed capability: it goes home. -/
theorem releaseBorrowed_refines (h : s.Good) (hc : s.procs.current core = some proc)
    (hk : proc.caps.slots k = some cap) {o : Origin} {home : Capability}
    (htarget : reclaimTarget cap (s.procs.currentSlot core) = some (o, home))
    (hg : g.take s.ledger (s.procs.currentSlot core) k)
    (hstrand : s.homeless cap = true → ∀ v, g.strand v cap) :
    s.Refines g ((s.setCurrentMem core
      (unmapFbForSlot s.mem (proc.setCaps (proc.caps.set k none)) k)).reclaimCapHome cap o home).2
    := by
  obtain ⟨ho, hkind, -⟩ := reclaimTarget_some htarget
  have hproc := h.proc_of_current hc
  obtain ⟨hpath, hrep⟩ := h.takes_borrowed (g := g) hc hk hkind hg
  rcases reclaimCapHome_path (g := g) hrep (hpath.base h.base) rfl rfl htarget with
    ⟨landing, proc', -, hhome, hrep'⟩ | ⟨hfull, -, hsame, hgone, hrep'⟩
  · exact ⟨_, hpath.trans hhome, hrep', ⟨rfl, rfl, rfl, rfl, rfl, rfl, rfl⟩⟩
  · have hlender := (h.base.sound.origin _ proc k cap o hproc hk ho).1
    have hother : (s.setCurrentMem core (unmapFbForSlot s.mem
        (proc.setCaps (proc.caps.set k none)) k)).procs.proc o.lender
        = s.procs.proc o.lender := by
      rw [← hrep.procs.proc_eq]
      exact Function.update_of_ne hlender ..
    have hless : s.homeless cap = true := by
      unfold homeless at hfull ⊢
      rw [hkind, ho] at hfull ⊢
      dsimp only at hfull ⊢
      rw [hother] at hfull
      exact hfull
    rw [hsame]
    exact ⟨_, hpath.trans (hgone (hstrand hless _)), hrep',
      ⟨rfl, rfl, rfl, rfl, rfl, rfl, rfl⟩⟩

/-! ### The call -/

/-- The arm of a capability that is only taken and drained. -/
theorem releaseCap_eq_drainCap (hkind : cap.isHoldable)
    (haction : releaseAction cap = cap.object.dropAction) :
    (s.revoked core proc k).releaseCap core (proc.setCaps (proc.caps.set k none)) cap k
      = (s.without core proc cap k).drainCap cap := by
  unfold releaseCap drainCap without unmapForSlot
  unfold Capability.isHoldable at hkind
  rw [haction]
  unfold CapObject.dropAction
  cases hobj : cap.object with
  | frame a =>
    dsimp only
    rw [setCurrentMem_revoked]
    rfl
  | framebuffer b w ht st bpp f =>
    dsimp only
    rw [setCurrentMem_revoked]
    rfl
  | ring id => rfl
  | cpuTime b => rfl
  | blockRange d st n => rfl
  | eventSource n => rfl
  | reply c => rfl
  | endpoint id =>
    rw [hobj] at hkind
    exact hkind.elim
  | boundDevice dev =>
    rw [hobj] at hkind
    exact hkind.elim

theorem sysCapRelease_refines (h : s.Good) {slot : Nat}
    (hg : s.Permits g (.capRelease core slot)) : s.Refines g (s.sysCapRelease core slot).2 := by
  unfold sysCapRelease
  split
  · exact h.refines_self
  · rename_i proc hc
    split
    · exact h.refines_self
    · rename_i cap hlookup
      obtain ⟨k, rfl, hk, -⟩ := CapTable.lookup_ok hlookup
      split
      · exact h.refines_self
      · rename_i hrefuse
        rw [CapTable.revoke_of_slot hk]
        have hreply : ∀ c, cap.object ≠ .reply c := by
          intro c hobj
          refine hrefuse ?_
          unfold releaseAction
          rw [hobj]
          rfl
        have htake : g.take s.ledger (s.procs.currentSlot core) k := by
          refine hg.take _ _ ?_
          simp [taken, hc]
        change s.Refines g ((s.revoked core proc k).releaseCap core
          (proc.setCaps (proc.caps.set k none)) cap k)
        cases htarget : reclaimTarget cap (s.procs.currentSlot core) with
        | some r =>
          obtain ⟨o, home⟩ := r
          obtain ⟨ho, hkind, -⟩ := reclaimTarget_some htarget
          have hborrowed := releaseBorrowed_refines (g := g) h hc hk htarget htake fun hless v =>
            hg.strand (by
              unfold Strands releaseStrands
              dsimp only
              rw [hc]
              dsimp only
              rw [CapTable.peek_of_slot, hk]
              exact hless) v cap
          unfold releaseCap
          rw [releaseAction_reclaimTo.mpr ⟨hkind, ho⟩]
          dsimp only
          rw [setCurrentMem_revoked]
          rw [show (s.setCurrentMem core (unmapFbForSlot (s.revoked core proc k).mem
            (proc.setCaps (proc.caps.set k none)) k)).procs.currentSlot core
            = s.procs.currentSlot core from rfl, htarget]
          exact hborrowed
        | none =>
          have hhome := reclaimTarget_none htarget
          have haction := releaseAction_of_home hhome
          by_cases hkind : cap.isHoldable
          · rw [releaseCap_eq_drainCap hkind haction]
            exact h.takes_drains hc hk hkind htake hhome hreply
          · unfold releaseCap
            rw [haction]
            unfold Capability.isHoldable at hkind
            cases hobj : cap.object with
            | endpoint id => exact releaseEndpoint_refines h hc hk hobj htake
            | boundDevice dev => exact releaseBound_refines h hc hk hobj htake
            | frame a => rw [hobj] at hkind; exact absurd trivial hkind
            | framebuffer b w ht st bpp f => rw [hobj] at hkind; exact absurd trivial hkind
            | ring id => rw [hobj] at hkind; exact absurd trivial hkind
            | cpuTime b => rw [hobj] at hkind; exact absurd trivial hkind
            | blockRange d st n => rw [hobj] at hkind; exact absurd trivial hkind
            | eventSource n => rw [hobj] at hkind; exact absurd trivial hkind
            | reply c => rw [hobj] at hkind; exact absurd trivial hkind

end Kernel

end Plinth
