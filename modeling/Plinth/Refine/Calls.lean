import Plinth.Refine.Memory
import Plinth.Refine.Rep

/-!
# `Plinth.Refine.Calls`: the calls on frames, mappings and the CPU budget

`Good s` says that `s` implements its own ledger and that the base invariants hold there.
`Refines g s s'` says that `s'` implements a ledger that the ledger of `s` reaches by actions
that satisfy the guard `g`.

This module proves `Refines` for the calls that touch only one process and the memory, and for
the switches of the running process.
-/

set_option autoImplicit false

namespace Plinth

/-- The kernel state implements its ledger, and the base invariants hold. -/
structure Kernel.Good (s : Kernel) : Prop where
  rep : Rep s none s.ledger
  base : s.ledger.Base

/-- `s'` implements a ledger that the ledger of `s` reaches, and nothing is in motion there. -/
def Kernel.Refines (g : Guard) (s s' : Kernel) : Prop :=
  ∃ v, Path g s.ledger v ∧ Rep s' none v ∧ v.Idle

/-- A ledger without motion that `s` implements is the ledger of `s`, apart from the mark that
the entry took a capability. -/
theorem Rep.eq_ledger {s : Kernel} {v : Ledger} (h : Rep s none v) (hidle : v.Idle) :
    v = { s.ledger with spent := v.spent } := by
  have hslot := fun p => h.procs.slot p (Option.some_ne_none p).symm
  obtain ⟨⟨proc, mem, transit, held, dying, spent⟩, state, boot, mail, queue, sendersWait,
    inUse, rings, devs, awake, frames, spaces, doomed⟩ := v
  obtain ⟨htransit, hheld, hdying, hawake, hframes, hspaces, hdoomed⟩ := hidle
  obtain ⟨hprocs, hipc, hmem, hrings, hdevs⟩ := h
  dsimp only at *
  subst htransit hheld hdying hawake hframes hspaces hdoomed hmem hrings hdevs
  have hstate : state = s.procs.state := funext fun p => (hslot p).1
  have hboot : boot = fun p => (s.procs.table p).bootFrames := funext fun p => (hslot p).2.1
  have hmail : mail = fun p => (s.procs.table p).mail :=
    funext fun p => (hslot p).2.2
  have hside : sendersWait = fun id => (s.ipc.endpoints id).queue.areSenders :=
    funext hipc.side
  have huse : inUse = fun id => (s.ipc.endpoints id).inUse := funext hipc.inUse
  rw [hprocs.proc_eq, hstate, hboot, hmail, hside, huse, ← hipc.queue_rep.waiting_eq]
  rfl

/-- After the entry, the new state is good and the path ends in its ledger. -/
theorem Kernel.Refines.good {g : Guard} {s s' : Kernel} (h : s.Refines g s')
    (hgood : s.Good) :
    s'.Good ∧ ∃ spent, Path g s.ledger { s'.ledger with spent := spent } := by
  obtain ⟨v, path, hrep, hidle⟩ := h
  have hbase := path.base hgood.base
  have heq := hrep.eq_ledger hidle
  refine ⟨⟨?_, ?_⟩, v.spent, by rw [← heq]; exact path⟩
  · rw [heq] at hrep
    exact ⟨hrep.procs, hrep.ipc, hrep.mem, hrep.rings, hrep.devs⟩
  · rw [heq] at hbase
    have hkeyed := hbase.keyed
    exact ⟨hbase.sound, hbase.registered, hbase.noStray, hbase.holders,
      ⟨hkeyed.rings, hkeyed.bounds, hkeyed.ringKey, hkeyed.boundKey⟩⟩

namespace Kernel

variable {g : Guard} {s : Kernel} {core : Core} {proc : Process}

/-- An entry that changes nothing the ledger sees. -/
theorem Good.refines_self (h : s.Good) : s.Refines g s :=
  ⟨s.ledger, Relation.ReflTransGen.refl, h.rep, s.ledger_idle⟩

theorem Good.proc_of_current (h : s.Good) (hc : s.procs.current core = some proc) :
    s.ledger.proc (s.procs.currentSlot core) = some proc := h.rep.procs.proc_of_current hc

theorem Good.state_of_current (h : s.Good) (hc : s.procs.current core = some proc) :
    s.ledger.state (s.procs.currentSlot core) = .running := h.rep.procs.state_of_current hc

end Kernel

/-- A write of a live process that keeps the counts of its endpoint capabilities. -/
theorem Rep.write {s : Kernel} {gone : Option ProcSlot} {v : Ledger} (h : Rep s gone v)
    {p : ProcSlot} {proc proc' : Process} {P' : Procs} (hp : v.proc p = some proc)
    (hw : Writes s.procs p proc' P')
    (hsame : ∀ id right, procWeight (reachWeight id right) proc'
      = procWeight (reachWeight id right) proc) :
    Rep { s with procs := P' } gone { v with proc := Function.update v.proc p (some proc') } := by
  refine ⟨h.procs.write (by rw [hp]; exact Option.some_ne_none proc) hw,
    h.ipc.same fun id right => ?_, h.mem, h.rings, h.devs⟩
  unfold peers
  rw [liveTotal_put_same hp (hsame id right)]

/-- A capability that is no endpoint capability does not count as a peer. -/
theorem procWeight_places_other {t' : CapTable} {proc : Process} {cap : Capability} {k : CapSlot}
    (h : CapTable.Places proc.caps cap k t') (hobj : ∀ id, cap.object ≠ .endpoint id)
    (id : EndpointId) (right : Rights) :
    procWeight (reachWeight id right) (proc.setCaps t')
      = procWeight (reachWeight id right) proc := by
  rw [procWeight_places _ h, Ipc.reachWeight_of_ne right (hobj id), Nat.add_zero]

namespace Kernel

variable {g : Guard} {s : Kernel} {core : Core} {proc : Process}

/-! ### Frames -/

theorem sysFrameAlloc_refines (h : s.Good) (core : Core) :
    s.Refines g (s.sysFrameAlloc core).2 := by
  unfold sysFrameAlloc
  split
  · exact h.refines_self
  · rename_i proc hc
    split
    · exact h.refines_self
    · rename_i addr fa halloc
      have hproc := h.proc_of_current hc
      have hact := Act.mem (g := g) (v := s.ledger) (MemAct.alloc halloc)
      split
      · rename_i slot t hmint
        obtain ⟨hin, -⟩ := CapTable.install_ok hmint
        have hw := h.rep.procs.placed.writes_current hc (proc.setCaps t)
        have hwrite := h.rep.write hproc hw
          (procWeight_places_other hin fun id heq => by cases heq)
        refine ⟨_, (Relation.ReflTransGen.single hact).tail
          (Act.mintFrame hproc rfl rfl hmint), ?_, ⟨rfl, rfl, rfl, rfl, rfl, rfl, rfl⟩⟩
        exact ⟨hwrite.procs, hwrite.ipc, rfl, h.rep.rings, h.rep.devs⟩
      · refine ⟨_, (Relation.ReflTransGen.single hact).tail
          (Act.mem (MemAct.giveBack rfl)), ?_, ⟨rfl, rfl, rfl, rfl, rfl, rfl, rfl⟩⟩
        exact ⟨h.rep.procs, h.rep.ipc, rfl, h.rep.rings, h.rep.devs⟩

/-! ### Mappings -/

/-- To link page tables does not change what the ledger sees besides the memory. -/
theorem Good.refines_mem (h : s.Good) {m : Store} (path : MemPath s.ledger.store m)
    (hframes : m.frames = []) (hspaces : m.spaces = []) :
    s.Refines g { s with mem := m.mem } :=
  ⟨s.ledger.setStore m, path.path g rfl,
    ⟨h.rep.procs, h.rep.ipc, rfl, h.rep.rings, h.rep.devs⟩,
    ⟨rfl, rfl, rfl, rfl, hframes, hspaces, rfl⟩⟩

theorem sysFrameMap_refines (h : s.Good) (core : Core) (slot va : Nat) :
    s.Refines g (s.sysFrameMap core slot va).2 := by
  unfold sysFrameMap
  split
  · exact h.refines_self
  · rename_i hwindow
    have hva : va < 2 ^ 39 := by
      unfold userMapEnd at hwindow
      omega
    split
    · exact h.refines_self
    · rename_i proc hc
      split
      · rename_i addr rights origin hlookup
        split
        · exact h.refines_self
        · rename_i maps hrec
          obtain ⟨k, rfl, hk, -⟩ := CapTable.lookup_ok hlookup
          have hproc := h.proc_of_current hc
          obtain ⟨fa', t', hlinks, hmem, -⟩ :=
            mapUserPage_spec s.mem proc.l4 va addr userDataFlags
          have hlow := mapUserPage_newLow hva s.mem proc.l4 addr userDataFlags
          rw [hmem, Mem.setSpace_spaces_self] at hlow
          have hpath := hlinks.path hlow (m := s.ledger.store) rfl rfl
          split
          · exact h.refines_self
          · split
            · rename_i mem hmap
              rw [hmap] at hmem
              simp only [Bool.false_eq_true, if_false] at hmem
              rw [hmem]
              exact h.refines_mem hpath rfl rfl
            · rename_i mem hmap
              rw [hmap] at hmem
              simp only [if_true] at hmem
              have hw := h.rep.procs.placed.writes_current hc { proc with maps }
              have hwrite := h.rep.write hproc hw fun id right => rfl
              refine ⟨_, (hpath.path g rfl).tail (@Act.mapFrame g _ _ _ _ _ _ _
                userDataFlags _ hproc hk rfl hrec), ?_,
                ⟨rfl, rfl, rfl, rfl, rfl, rfl, rfl⟩⟩
              refine ⟨hwrite.procs, hwrite.ipc, ?_, h.rep.rings, h.rep.devs⟩
              rw [hmem]
              exact Mem.setSpace_addLeaf ..
      · exact h.refines_self

/-- Mapping a list of pages succeeds: page tables are linked, and then the leaf entries of one
address space are replaced. -/
theorem mapPages_path {l4 : Nat} {pages : List (Nat × Nat × PageFlags)} {mem : Mem}
    (hlow : ∀ e ∈ pages, e.1 < 2 ^ 39) (hmap : mapPages l4 pages [] s.mem = (true, mem)) :
    ∃ m sp, Path g s.ledger { s.ledger with mem := m } ∧ m.setSpace l4 sp = mem ∧
      sp.tables = (m.spaces l4).tables ∧
      ∀ va l, sp.leaf va = some l → (m.spaces l4).leaf va = some l ∨
        ∃ e ∈ pages, va / frameSize = e.1 / frameSize ∧ l.phys = e.2.1 := by
  obtain ⟨fa', sp, hlinks, hmem, htrue, -⟩ := mapPages_spec l4 pages [] s.mem
  have hnew := @mapPages_newLow l4 pages hlow [] s.mem
  rw [hmem, Mem.setSpace_spaces_self] at hnew
  rw [hmap] at hmem htrue
  have hpath := hlinks.path hnew (m := s.ledger.store) rfl rfl
  have hself := Mem.setSpace_spaces_self ⟨fa', s.mem.spaces⟩ l4
    ⟨sp.tables, (s.mem.spaces l4).leaves⟩
  refine ⟨Mem.setSpace ⟨fa', s.mem.spaces⟩ l4 ⟨sp.tables, (s.mem.spaces l4).leaves⟩, sp,
    hpath.path g rfl, ?_, ?_, ?_⟩
  · rw [Mem.setSpace_setSpace]
    exact hmem.symm
  · rw [hself]
  · rw [hself]
    exact htrue rfl

/-- The pages of a framebuffer in the window are of the user half. -/
theorem fbPages_low {va physBase pages : Nat} (h : inMapWindow va (pages * frameSize) = true) :
    ∀ e ∈ fbPages va physBase pages, e.1 < 2 ^ 39 := by
  intro e he
  obtain ⟨i, hi, rfl⟩ := List.mem_map.mp he
  have hlt := List.mem_range.mp hi
  unfold inMapWindow at h
  simp only [Bool.and_eq_true, decide_eq_true_eq] at h
  have hend := h.2
  unfold userMapEnd frameSize at *
  dsimp only
  omega

/-- The pages of a bound device in the window are of the user half. -/
theorem bindPages_low {va : Nat} {b : Bound} (h : inMapWindow va (6 * frameSize) = true) :
    ∀ e ∈ bindPages va b, e.1 < 2 ^ 39 := by
  unfold inMapWindow at h
  simp only [Bool.and_eq_true, decide_eq_true_eq] at h
  have hend := h.2
  unfold userMapEnd frameSize at hend
  intro e he
  unfold bindPages frameSize at he
  simp only [List.mem_cons, List.not_mem_nil, or_false] at he
  rcases he with rfl | rfl | rfl | rfl | rfl | rfl
  all_goals
    dsimp only
    omega

theorem sysFbMap_refines (h : s.Good) (core : Core) (slot va infoPtr : Nat) :
    s.Refines g (s.sysFbMap core slot va infoPtr).2 := by
  unfold sysFbMap
  split
  · exact h.refines_self
  · rename_i proc hc
    split
    · rename_i physBase width height stride bpp format rights origin hlookup
      dsimp only
      split
      · exact h.refines_self
      · rename_i fbMaps hrec
        split
        · exact h.refines_self
        · rename_i hwindow
          rw [not_or, not_or, not_not] at hwindow
          have hlow := @fbPages_low va physBase _ hwindow.2.1
          obtain ⟨k, rfl, hk, -⟩ := CapTable.lookup_ok hlookup
          have hproc := h.proc_of_current hc
          generalize hpages : (height * stride * bpp + (frameSize - 1)) / frameSize = pages at *
          split
          · rename_i mem hmap
            have hfail := mapPages_fail_path hlow (congrArg Prod.fst hmap) [] []
            rw [hmap] at hfail
            exact h.refines_mem hfail rfl rfl
          · rename_i mem hmap
            obtain ⟨m, sp, hpath, rfl, htables, hleaves⟩ := mapPages_path (g := g) hlow hmap
            have hw := h.rep.procs.placed.writes_current hc { proc with fbMaps }
            have hwrite := h.rep.write hproc hw fun id right => rfl
            refine ⟨_, hpath.tail (Act.mapFb hproc hk rfl rfl hrec htables ?_ ?_),
              ⟨hwrite.procs, hwrite.ipc, rfl, h.rep.rings, h.rep.devs⟩,
              ⟨rfl, rfl, rfl, rfl, rfl, rfl, rfl⟩⟩
            swap
            · intro i hi
              dsimp only at hi
              unfold frameSize at *
              omega
            intro va' l hl
            rcases hleaves va' l hl with hold | ⟨e, he, hpage, hphys⟩
            · exact Or.inl hold
            · obtain ⟨i, hi, rfl⟩ := List.mem_map.mp he
              exact Or.inr ⟨i, List.mem_range.mp hi, hpage, hphys⟩
    · exact h.refines_self

theorem sysBindDevice_refines (h : s.Good) (core : Core) (slot va infoPtr : Nat) :
    s.Refines g (s.sysBindDevice core slot va infoPtr).2 := by
  unfold sysBindDevice
  split
  · exact h.refines_self
  · rename_i proc hc
    split
    · rename_i dev rights origin hlookup
      split
      · exact h.refines_self
      · rename_i hwindow
        rw [not_or, not_not] at hwindow
        split
        · exact h.refines_self
        · rename_i b hbound
          have hlow := @bindPages_low va b hwindow.1
          obtain ⟨k, rfl, hk, -⟩ := CapTable.lookup_ok hlookup
          have hproc := h.proc_of_current hc
          split
          · rename_i mem hmap
            have hfail := mapPages_fail_path hlow (congrArg Prod.fst hmap) [] []
            rw [hmap] at hfail
            exact h.refines_mem hfail rfl rfl
          · rename_i mem hmap
            obtain ⟨m, sp, hpath, rfl, htables, hleaves⟩ := mapPages_path (g := g) hlow hmap
            refine ⟨_, hpath.tail (Act.mapBound hproc hk rfl hbound htables ?_),
              ⟨h.rep.procs, h.rep.ipc, rfl, h.rep.rings, h.rep.devs⟩,
              ⟨rfl, rfl, rfl, rfl, rfl, rfl, rfl⟩⟩
            intro va' l hl
            rcases hleaves va' l hl with hold | ⟨e, he, hpage, hphys⟩
            · exact Or.inl hold
            · right
              rw [hphys]
              unfold bindPages at he
              unfold Bound.pages
              simp only [List.mem_cons, List.not_mem_nil, or_false] at he ⊢
              rcases he with rfl | rfl | rfl | rfl | rfl | rfl <;> simp
    · exact h.refines_self

/-! ### The CPU budget -/

theorem charge_refines (h : s.Good) {core : Core} {proc : Process} {slot amount remaining : Nat}
    {t : CapTable} (hc : s.procs.current core = some proc)
    (hcharge : proc.caps.charge slot amount rightConsume = .ok (remaining, t)) :
    s.Refines g { s with procs := s.procs.setCurrent core (some (proc.setCaps t)) } := by
  obtain ⟨k, cap, budget, hk, hobj, rfl⟩ := CapTable.charge_ok hcharge
  have hproc := h.proc_of_current hc
  have hw := h.rep.procs.placed.writes_current hc (proc.setCaps (proc.caps.set k
    (some { cap with object := .cpuTime remaining })))
  have hwrite := h.rep.write hproc hw fun id right =>
    procWeight_charge (reachWeight_steady id right) hk hobj
  exact ⟨_, Relation.ReflTransGen.single (Act.table (TableAct.charge hproc hk hobj rfl)),
    ⟨hwrite.procs, hwrite.ipc, rfl, h.rep.rings, h.rep.devs⟩, ⟨rfl, rfl, rfl, rfl, rfl, rfl, rfl⟩⟩

/-! ### The running process -/

theorem preempt_refines (h : s.Good) {core : Core} {P : Procs}
    (hp : s.procs.preempt core = some P) : s.Refines g { s with procs := P } := by
  unfold Procs.preempt at hp
  split at hp
  · cases hp
  · rename_i proc hc
    simp only [Option.some.injEq] at hp
    subst hp
    have hpark := h.rep.procs.park hc
      (s := { s.procs.table (s.procs.currentSlot core) with
        state := .ready, process := some proc }) rfl (Or.inl rfl) rfl rfl
    exact ⟨_, Relation.ReflTransGen.single (Act.suspend (h.state_of_current hc)),
      ⟨hpark, h.rep.ipc, rfl, h.rep.rings, h.rep.devs⟩, ⟨rfl, rfl, rfl, rfl, rfl, rfl, rfl⟩⟩

theorem resume_refines (h : s.Good) {core : Core} {p : ProcSlot} {P : Procs}
    (hp : s.procs.resume core p = some P) : s.Refines g { s with procs := P } := by
  obtain ⟨hready, hres⟩ := h.rep.procs.resume hp
  exact ⟨_, Relation.ReflTransGen.single (Act.resume hready),
    ⟨hres, h.rep.ipc, rfl, h.rep.rings, h.rep.devs⟩, ⟨rfl, rfl, rfl, rfl, rfl, rfl, rfl⟩⟩

end Kernel

end Plinth
