import Plinth.Ledger.Mappings
import Plinth.Refine.Memory
import Plinth.Refine.Transfer

/-!
# `Plinth.Refine.Setup`: the set-up of a process

`setup_process` loads an image into a new address space and installs the grants in the table of
the new process. In the ledger the process enters first, with its CPU budget alone, and the
grants follow one by one. The kernel writes the whole process into its slot at the end. `entered`
is the table with the process at any point in between.
-/

set_option autoImplicit false

namespace Plinth

variable {g : Guard} {v : Ledger} {s : Kernel} {core : Core} {p id : ProcSlot}
  {proc : Process} {cap : Capability}

/-! ### Room in a fresh table -/

/-- The number of slots of a table that are in use. -/
def CapTable.used (t : CapTable) : Nat := Tally.tally (fun _ => 1) t.slots

/-- A table without reservations has a free slot as long as it is not full. -/
theorem CapTable.firstFree_of_used {t : CapTable} (hres : ∀ k, t.reserved k = false)
    (hused : t.used < maxCaps) : ∃ k, t.firstFree = some k := by
  cases hfree : t.firstFree with
  | some k => exact ⟨k, rfl⟩
  | none =>
    have hfull : ∀ k, Tally.entry (fun _ : Capability => 1) (t.slots k) = 1 := by
      intro k
      rcases CapTable.firstFree_none hfree k with hslot | hmark
      · obtain ⟨c, hc⟩ := Option.ne_none_iff_exists'.mp hslot
        rw [hc]
        rfl
      · rw [hres k] at hmark
        cases hmark
    unfold CapTable.used Tally.tally at hused
    rw [Finset.sum_congr rfl fun k _ => hfull k, Finset.sum_const, Finset.card_univ,
      Fintype.card_fin, smul_eq_mul, Nat.mul_one] at hused
    exact absurd hused (lt_irrefl _)

theorem CapTable.Places.used {t t' : CapTable} {k : CapSlot}
    (h : CapTable.Places t cap k t') : t'.used = t.used + 1 := h.tally _

/-- The grants of a set-up find room in a table that is free enough. -/
theorem installGrants_some (caps : List Capability) {t : CapTable} (ipc : Ipc)
    (hres : ∀ k, t.reserved k = false) (hroom : t.used + caps.length ≤ maxCaps) :
    ∃ t' ipc', Kernel.installGrants caps t ipc = (some t', ipc') := by
  induction caps generalizing t ipc with
  | nil => exact ⟨t, ipc, rfl⟩
  | cons cap caps ih =>
    rw [List.length_cons] at hroom
    obtain ⟨k, hk⟩ := CapTable.firstFree_of_used hres (by omega)
    have hin := CapTable.places_of_firstFree (c := cap) hk
    have hinstall : t.install cap = .ok (k, t.set k (some cap)) := by
      unfold CapTable.install
      rw [hk]
    obtain ⟨t', ipc', hrest⟩ := ih (t := t.set k (some cap)) (ipc.noteCapAdded cap) hres
      (by rw [hin.used]; omega)
    refine ⟨t', ipc', ?_⟩
    unfold Kernel.installGrants
    rw [hinstall]
    exact hrest

/-- The grants of a set-up add their weights. -/
theorem installGrants_weight (w : Capability → Nat) {caps : List Capability} {x : Process}
    {t : CapTable} {ipc ipc' : Ipc}
    (h : Kernel.installGrants caps x.caps ipc = (some t, ipc')) :
    procWeight w (x.setCaps t) = procWeight w x + listTotal w caps := by
  induction caps generalizing x ipc with
  | nil =>
    unfold Kernel.installGrants at h
    simp only [Prod.mk.injEq, Option.some.injEq] at h
    rw [← h.1, listTotal_nil, Nat.add_zero]
    rfl
  | cons cap caps ih =>
    unfold Kernel.installGrants at h
    split at h
    · cases h
    · rename_i k t₁ hin
      have hrest := ih (x := x.setCaps t₁) h
      rw [procWeight_places w (CapTable.install_ok hin).1] at hrest
      rw [listTotal_cons, ← Nat.add_assoc]
      exact hrest

theorem spawnProcess_eq : spawnProcess = Process.new.setCaps
    (CapTable.new.set 0 (some ⟨.cpuTime initialCpuBudget, rightConsume, none⟩)) := rfl

theorem spawnProcess_used : spawnProcess.caps.used = 1 := by
  rw [spawnProcess_eq]
  have hins := Tally.tally_insert (T := fun _ : CapSlot => none) (i := 0) (fun _ => 1)
    (⟨.cpuTime initialCpuBudget, rightConsume, none⟩ : Capability) rfl
  rw [Tally.tally_none] at hins
  exact hins

/-! ### The new process -/

/-- The process table with a process that was set up in slot `id`. -/
def entered (P : Procs) (id : ProcSlot) (x : Process) (boot : List (Nat × Nat)) : Procs :=
  P.setSlot id { P.table id with state := .ready, process := some x, bootFrames := boot }

theorem entered_table (P : Procs) (id : ProcSlot) (x : Process) (boot : List (Nat × Nat)) :
    ((entered P id x boot).table id).process = some x := by
  unfold entered
  rw [Procs.setSlot_table_self]

theorem entered_setTableProc (P : Procs) (id : ProcSlot) (x y : Process)
    (boot : List (Nat × Nat)) :
    (entered P id x boot).setTableProc id (some y) = entered P id y boot := by
  unfold Procs.setTableProc
  conv_lhs =>
    unfold entered
  rw [Procs.setSlot_setSlot, Procs.setSlot_table_self]
  rfl

/-- The new process holds its CPU budget and nothing else. -/
theorem spawnProcess_weight (w : Capability → Nat) (l4 : Nat) :
    procWeight w { spawnProcess with l4 } = w ⟨.cpuTime initialCpuBudget, rightConsume, none⟩ := by
  have hins := Tally.tally_insert (T := fun _ : CapSlot => none) (i := 0) w
    (⟨.cpuTime initialCpuBudget, rightConsume, none⟩ : Capability) rfl
  rw [Tally.tally_none, Nat.zero_add] at hins
  exact hins

/-- The new process names no endpoint yet. -/
theorem spawnProcess_reach (id : EndpointId) (right : Rights) (l4 : Nat) :
    procWeight (reachWeight id right) { spawnProcess with l4 } = 0 := by
  rw [spawnProcess_weight]
  exact (reachWeight_steady id right).cpuTime _ _ rfl

theorem createAddressSpace_empty {m m' : Mem} {l4 : Nat}
    (h : m.createAddressSpace = some (l4, m')) : m'.spaces l4 = AddressSpace.empty := by
  unfold Mem.createAddressSpace at h
  split at h
  · simp only [Option.some.injEq, Prod.mk.injEq] at h
    obtain ⟨rfl, rfl⟩ := h
    exact Mem.setSpace_spaces_self ..
  · cases h

theorem MemPath.windowFree {m m' : Store} (path : MemPath m m') {l4 : Nat}
    (h : m.mem.WindowFree l4) : m'.mem.WindowFree l4 := by
  induction path with
  | refl => exact h
  | tail _ act ih => exact act.windowFree ih

/-- The record of the boot frames lists the pages of the plan, in order. -/
theorem loadPages_pages (l4 : Nat) (plan : List (Nat × PageFlags)) (m : Mem)
    (boot : List (Nat × Nat)) (h : (loadPages l4 plan m boot).1 = true) :
    (loadPages l4 plan m boot).2.2.map Prod.fst = boot.map Prod.fst ++ plan.map Prod.fst := by
  induction plan generalizing m boot with
  | nil => simp [loadPages]
  | cons e plan ih =>
    obtain ⟨va, flags⟩ := e
    unfold loadPages at h ⊢
    cases halloc : m.fa.alloc with
    | error e =>
      rw [halloc] at h
      cases h
    | ok r =>
      rw [halloc] at h
      dsimp only at h ⊢
      split at h
      · rename_i hmap
        rw [if_pos hmap, ih _ _ h]
        simp
      · cases h

theorem loadAndMap_pages {m m' : Mem} {image : Option Image} {l4 entry : Nat}
    {boot : List (Nat × Nat)} (h : loadAndMap m image l4 = (some entry, m', boot)) :
    ∃ image : Image, boot.map Prod.fst = image.plan.map Prod.fst := by
  cases image with
  | none => cases h
  | some image =>
    unfold loadAndMap at h
    dsimp only at h
    split at h
    · rename_i hload
      have hpages := loadPages_pages l4 image.plan m [] hload
      simp only [Prod.mk.injEq] at h
      rw [h.2.2] at hpages
      exact ⟨image, hpages⟩
    · cases h

/-- The image is loaded, and the process enters its slot with its CPU budget. -/
theorem enter_path (hrep : Rep s none v) (hstate : s.procs.state id = .empty)
    (hframes : v.frames = []) (hspaces : v.spaces = [])
      (hdying : v.dying = none) {l4 entry : Nat} {mem mem' : Mem}
    {image : Option Image} {boot : List (Nat × Nat)}
    (hcreate : s.mem.createAddressSpace = some (l4, mem))
    (hload : loadAndMap mem image l4 = (some entry, mem', boot)) :
    Path g v { v with
      mem := mem', proc := Function.update v.proc id (some { spawnProcess with l4 })
      state := Function.update v.state id .ready, boot := Function.update v.boot id boot
      frames := [], spaces := [] } ∧
    Rep { s with mem := mem', procs := entered s.procs id { spawnProcess with l4 } boot } none
      { v with
        mem := mem', proc := Function.update v.proc id (some { spawnProcess with l4 })
        state := Function.update v.state id .ready, boot := Function.update v.boot id boot
        frames := [], spaces := [] } := by
  have hslot := hrep.procs.slot id (Option.some_ne_none id).symm
  have hnone : v.proc id = none := by
    rw [hrep.procs.proc_eq]
    exact hrep.procs.placed.proc_of_empty hstate
  have hpath₁ := createAddressSpace_path hcreate [] []
  have hpath₂ := loadAndMap_path mem image l4 [] [l4]
  rw [hload] at hpath₂
  dsimp only at hpath₂
  rw [Option.isSome_some, if_pos rfl] at hpath₂
  have hboth : MemPath _ _ := hpath₁.trans hpath₂
  have hstore : v.store = ⟨s.mem, [], []⟩ := by
    unfold Ledger.store
    rw [hrep.mem, hframes, hspaces]
  -- The space starts empty, and the loader stays out of the window.
  have hfresh : mem.WindowFree l4 := by
    intro va l hl
    rw [createAddressSpace_empty hcreate] at hl
    cases hl
  have hwindow : mem'.WindowFree l4 := MemPath.windowFree hpath₂ hfresh
  refine ⟨(hboth.path g hstore).tail (Act.enter (p := id)
      hnone (hslot.1.trans hstate) rfl rfl rfl hdying hwindow (loadAndMap_pages hload)),
    hrep.procs.enter hstate boot, hrep.ipc.same fun id' right => ?_, rfl, hrep.rings, hrep.devs⟩
  unfold peers
  rw [liveTotal_add _ hnone, spawnProcess_reach, Nat.add_zero]

/-- A grant goes into the table of the new process. -/
theorem Rep.grants {x : Process} {boot : List (Nat × Nat)} {P : Procs} {lent c : Capability}
    {k : CapSlot} {t : CapTable} {u : Option Transit}
    (hrep : Rep { s with procs := entered P id x boot } none v) (hx : v.proc id = some x)
    (hin : CapTable.Places x.caps lent k t) (hobj : lent.object = c.object)
    (hrights : lent.rights = c.rights) :
    Rep { s with
        procs := entered P id (x.setCaps t) boot, ipc := s.ipc.noteCapAdded c } none
      { v with proc := Function.update v.proc id (some (x.setCaps t)), transit := u } := by
  have hw := hrep.procs.placed.writes_table (entered_table P id x boot) (x.setCaps t)
  rw [entered_setTableProc] at hw
  have hplace := hrep.place hx hin hobj hrights hw
  exact ⟨hplace.procs, hplace.ipc, hplace.mem, hplace.rings, hplace.devs⟩

/-- The grants of a set-up, one after the other. -/
theorem installGrants_path {caps : List Capability} {x : Process} {t : CapTable} {ipc : Ipc}
    {boot : List (Nat × Nat)} {P : Procs}
    (hrep : Rep { s with procs := entered P id x boot } none v) (hx : v.proc id = some x)
    (hok : ∀ cap ∈ caps, v.Grantable cap ∧ g.grant cap)
    (hgiver : ∀ tr, v.transit = some tr → tr.giver ≠ id)
    (hbound : ∀ dev, v.total (objWeight (.boundDevice dev)) +
      listTotal (objWeight (.boundDevice dev)) caps ≤ 1)
    (hinstall : Kernel.installGrants caps x.caps s.ipc = (some t, ipc)) :
    Path g v { v with proc := Function.update v.proc id (some (x.setCaps t)) } ∧
      Rep { s with procs := entered P id (x.setCaps t) boot, ipc := ipc } none
        { v with proc := Function.update v.proc id (some (x.setCaps t)) } := by
  induction caps generalizing s v x with
  | nil =>
    unfold Kernel.installGrants at hinstall
    simp only [Prod.mk.injEq, Option.some.injEq] at hinstall
    obtain ⟨rfl, rfl⟩ := hinstall
    have hsame : Function.update v.proc id (some (x.setCaps x.caps)) = v.proc := by
      rw [show x.setCaps x.caps = x from rfl, ← hx, Function.update_eq_self]
    rw [hsame]
    exact ⟨Relation.ReflTransGen.refl, hrep⟩
  | cons cap caps ih =>
    unfold Kernel.installGrants at hinstall
    split at hinstall
    · simp only [Prod.mk.injEq] at hinstall
      exact absurd hinstall.1 (Option.some_ne_none t).symm
    · rename_i k t₁ hin
      obtain ⟨hgrant, hg⟩ := hok cap List.mem_cons_self
      have hunbound : ∀ dev, cap.object = .boundDevice dev →
          v.total (objWeight (.boundDevice dev)) = 0 := by
        intro dev hobj
        have hle := hbound dev
        rw [listTotal_cons, ← hobj, objWeight_self] at hle
        rw [← hobj]
        omega
      have hact := Act.grant (g := g) hx hgrant hg hgiver hunbound hin
      have hrep₁ := hrep.grants (u := v.transit) hx (CapTable.install_ok hin).1
        rfl rfl
      obtain ⟨hpath, hrep₂⟩ := ih (s := { s with ipc := s.ipc.noteCapAdded cap })
        (v := { v with proc := Function.update v.proc id (some (x.setCaps t₁)) })
        (x := x.setCaps t₁) hrep₁ (Function.update_self ..)
        (fun c hc => hok c (List.mem_cons_of_mem _ hc)) hgiver (fun dev => by
          have hle := hbound dev
          have hplace := liveTotal_places (objWeight (.boundDevice dev)) hx
            (CapTable.install_ok hin).1
          rw [listTotal_cons] at hle
          unfold Holdings.total at hle ⊢
          dsimp only
          omega) hinstall
      dsimp only at hpath hrep₂
      rw [Function.update_idem] at hpath hrep₂
      exact ⟨hpath.head hact, hrep₂⟩

/-- A set-up that fails to load leaves only the memory changed. -/
theorem load_fail_path (hrep : Rep s none v) (hframes : v.frames = []) (hspaces : v.spaces = [])
    {l4 : Nat} {mem mem' : Mem} {image : Option Image} {boot : List (Nat × Nat)}
    (hcreate : s.mem.createAddressSpace = some (l4, mem))
    (hload : loadAndMap mem image l4 = (none, mem', boot)) :
    Path g v { v with mem := mem'.destroyAddressSpace l4, frames := [], spaces := [] } ∧
      Rep { s with mem := mem'.destroyAddressSpace l4 } none
        { v with mem := mem'.destroyAddressSpace l4, frames := [], spaces := [] } := by
  have hpath₁ := createAddressSpace_path hcreate [] []
  have hpath₂ := loadAndMap_path mem image l4 [] [l4]
  rw [hload] at hpath₂
  have hpath₃ := destroyAddressSpace_path mem' l4 [] []
  have hboth : MemPath _ _ := (hpath₁.trans hpath₂).trans hpath₃
  have hstore : v.store = ⟨s.mem, [], []⟩ := by
    unfold Ledger.store
    rw [hrep.mem, hframes, hspaces]
  exact ⟨hboth.path g hstore, hrep.procs, hrep.ipc, rfl, hrep.rings, hrep.devs⟩

end Plinth
