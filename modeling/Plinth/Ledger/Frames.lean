import Plinth.Ledger.Endpoints

/-!
# `Plinth.Ledger.Frames`: every allocated frame has at most one owner

`Ledger.owners v a` counts the owners of the frame at `a`: Frame capabilities, boot records,
address spaces (for their level-4 table and their page tables), devices and DMA domains, and
the frames in motion. `Owned` says that a frame has at most one owner, that only an allocated
frame has one, and that no deallocation was refused.
-/

set_option autoImplicit false

namespace Plinth

/-- The frames of an address space: its level-4 table and the page tables of the user half. -/
def Mem.spaceFrames (m : Mem) (l4 : Nat) : List Nat := (m.spaces l4).userTables ++ [l4]

/-- The number of times that `a` is a frame of the address space of a live process. -/
def liveSpaceCount (m : Mem) (P : ProcSlot → Option Process) (a : Nat) : Nat :=
  Tally.tally (fun proc => (m.spaceFrames proc.l4).count a) P

/-- The number of times that `a` is a frame of one of the address spaces `spaces`. -/
def spaceCount (m : Mem) (spaces : List Nat) (a : Nat) : Nat :=
  (spaces.map fun l4 => (m.spaceFrames l4).count a).sum

/-- The number of times that `a` is a boot frame. -/
def bootCount (boot : ProcSlot → List (Nat × Nat)) (a : Nat) : Nat :=
  ∑ p, ((boot p).map Prod.snd).count a

/-- The number of owners of the frame at `a`. -/
def Ledger.owners (v : Ledger) (a : Nat) : Nat :=
  v.total (objWeight (.frame a)) + bootCount v.boot a + liveSpaceCount v.mem v.proc a +
    spaceCount v.mem v.spaces a + v.devs.allFrames.count a + v.frames.count a

/-- Every frame with an owner is allocated and has one owner, and no deallocation failed. -/
structure Ledger.Owned (v : Ledger) : Prop where
  refused : v.mem.fa.refused = []
  owners : ∀ a, v.owners a ≤ v.mem.fa.marked a

/-! ### The counts under updates -/

theorem count_cons_if (l : List Nat) (a b : Nat) :
    (a :: l).count b = l.count b + if b = a then 1 else 0 := by
  rw [List.count_cons]
  by_cases h : b = a
  · simp [h]
  · simp [h, Ne.symm h]

theorem spaceFrames_of_tables {m n : Mem} {l4 : Nat}
    (h : (n.spaces l4).tables = (m.spaces l4).tables) :
    n.spaceFrames l4 = m.spaceFrames l4 := by
  unfold Mem.spaceFrames AddressSpace.userTables
  rw [h]

theorem liveSpaceCount_of_tables {m n : Mem}
    (h : ∀ l4, (n.spaces l4).tables = (m.spaces l4).tables) (P : ProcSlot → Option Process)
    (a : Nat) : liveSpaceCount n P a = liveSpaceCount m P a := by
  unfold liveSpaceCount
  simp only [spaceFrames_of_tables (h _)]

theorem spaceCount_of_tables {m n : Mem}
    (h : ∀ l4, (n.spaces l4).tables = (m.spaces l4).tables) (spaces : List Nat) (a : Nat) :
    spaceCount n spaces a = spaceCount m spaces a := by
  unfold spaceCount
  simp only [spaceFrames_of_tables (h _)]

theorem spaceCount_cons (m : Mem) (l4 : Nat) (spaces : List Nat) (a : Nat) :
    spaceCount m (l4 :: spaces) a = (m.spaceFrames l4).count a + spaceCount m spaces a := by
  simp [spaceCount]

/-- A rewrite of a live process that keeps its address space. -/
theorem liveSpaceCount_put {P : ProcSlot → Option Process} {p : ProcSlot}
    {proc x : Process} (m : Mem) (hp : P p = some proc) (hl4 : x.l4 = proc.l4)
    (a : Nat) : liveSpaceCount m (Function.update P p (some x)) a
      = liveSpaceCount m P a := by
  refine Tally.tally_update_same _ ?_
  rw [hp, Tally.entry_some, Tally.entry_some, hl4]

theorem bootCount_update (boot : ProcSlot → List (Nat × Nat)) (p : ProcSlot)
    (l : List (Nat × Nat)) (a : Nat) :
    bootCount (Function.update boot p l) a + ((boot p).map Prod.snd).count a
      = bootCount boot a + (l.map Prod.snd).count a :=
  Tally.sum_comp_update (fun l : List (Nat × Nat) => (l.map Prod.snd).count a) boot p l

/-- The frames of the DMA domains. -/
def iommuFrames : Option BlockIommu → List Nat
  | some bi => bi.domain.frames ++ (bi.bound.map Domain.frames).getD []
  | none => []

theorem allFrames_count (ds : Devices) (a : Nat) :
    ds.allFrames.count a = Tally.tally (fun d : VirtioBlk => d.frames.count a) ds.devices +
      (iommuFrames ds.iommu).count a := by
  have hdev : ((List.finRange maxDevices).flatMap fun dev =>
      ((ds.devices dev).map VirtioBlk.frames).getD []).count a
        = Tally.tally (fun d : VirtioBlk => d.frames.count a) ds.devices := by
    rw [List.count_flatMap]
    unfold Tally.tally
    rw [← List.sum_ofFn, List.ofFn_eq_map]
    congr 1
    refine List.map_congr_left fun dev _ => ?_
    simp only [Function.comp_apply]
    cases ds.devices dev with
    | none => rfl
    | some d => rfl
  unfold Devices.allFrames
  rw [List.count_append, hdev]
  congr 1

/-- A device keeps its frames: the counts do not change. -/
theorem allFrames_setDevice {ds : Devices} {dev : DevId} {d x : VirtioBlk}
    (hd : ds.devices dev = some d) (h : x.frames = d.frames) (a : Nat) :
    (ds.setDevice dev (some x)).allFrames.count a = ds.allFrames.count a := by
  rw [allFrames_count, allFrames_count]
  have htally : Tally.tally (fun d : VirtioBlk => d.frames.count a)
      (Function.update ds.devices dev (some x))
        = Tally.tally (fun d : VirtioBlk => d.frames.count a) ds.devices := by
    refine Tally.tally_update_same _ ?_
    rw [hd, Tally.entry_some, Tally.entry_some, h]
  unfold Devices.setDevice
  rw [htally]

theorem allFrames_setDomain {ds : Devices} {bi : BlockIommu} {d : Domain} {e : List Nat}
    (hbi : ds.iommu = some bi) (a : Nat)
    (h : d.frames.count a = bi.domain.frames.count a + e.count a) :
    (ds.setDomain bi d).allFrames.count a = ds.allFrames.count a + e.count a := by
  rw [allFrames_count, allFrames_count]
  unfold Devices.setDomain
  rw [hbi]
  simp only [iommuFrames, List.count_append]
  omega

/-- What a detached binding owned is what is freed. -/
theorem allFrames_detach (ds : Devices) (dev : DevId) (a : Nat) :
    (ds.detach dev).1.allFrames.count a + (ds.detach dev).2.count a
      = ds.allFrames.count a := by
  unfold Devices.detach
  split
  · simp
  · rename_i b hb
    obtain ⟨d, hd, hdb⟩ := Option.bind_eq_some_iff.mp hb
    have hframes : d.frames = b.frames := by
      unfold VirtioBlk.frames
      rw [hdb]
    have herase := Tally.tally_erase (fun d : VirtioBlk => d.frames.count a) hd
    rw [hframes] at herase
    have hdevs : (ds.setDevice dev none).allFrames.count a + b.frames.count a
        = ds.allFrames.count a := by
      rw [allFrames_count, allFrames_count]
      unfold Devices.setDevice
      dsimp only
      omega
    dsimp only
    split
    · exact hdevs
    · rename_i bi hbi
      have hbi' : ds.iommu = some bi := hbi
      split
      · exact hdevs
      · rename_i dom hdom
        rw [← hdevs, allFrames_count, allFrames_count]
        unfold Devices.setDevice
        dsimp only
        rw [hbi']
        simp only [iommuFrames, hdom, Option.map_some, Option.map_none, Option.getD_some,
          Option.getD_none, List.count_append, List.count_nil]
        omega

/-! ### Table actions -/

/-- A table action keeps the allocator, the page tables, and the address space of every
process. -/
theorem TableAct.store {give : ProcSlot → CapSlot → Fate → Prop}
    {take : ProcSlot → CapSlot → Prop} {strand : Capability → Prop} {h h' : Holdings}
    (act : TableAct give take strand h h') :
    h'.mem.fa = h.mem.fa ∧ (∀ l4, (h'.mem.spaces l4).tables = (h.mem.spaces l4).tables) ∧
      ∀ a, liveSpaceCount h.mem h'.proc a = liveSpaceCount h.mem h.proc a := by
  cases act with
  | charge hp hk hobj hnone =>
    exact ⟨rfl, fun _ => rfl, liveSpaceCount_put _ hp rfl⟩
  | @give p proc k cap f hp hk hnone hdying hfirst hg =>
    have hun := Mem.unmapAll_unmaps h.mem proc.l4 (proc.vasFor cap k)
    rw [← giveAway_mem] at hun
    exact ⟨hun.fa, hun.tables, liveSpaceCount_put _ hp (giveAway_l4 _ _ _ _)⟩
  | land htr hpq hq hin => exact ⟨rfl, fun _ => rfl, liveSpaceCount_put _ hq rfl⟩
  | child htr hpq hq hlender hin => exact ⟨rfl, fun _ => rfl, liveSpaceCount_put _ hq rfl⟩
  | back htr hp hin => exact ⟨rfl, fun _ => rfl, liveSpaceCount_put _ hp rfl⟩
  | undo htr hp hin hown hfree => exact ⟨rfl, fun _ => rfl, liveSpaceCount_put _ hp rfl⟩
  | lost htr hp hfull => exact ⟨rfl, fun _ => rfl, fun _ => rfl⟩
  | @take p proc k cap hp hk hkind hnone hdying hfirst hg =>
    have hun := Mem.unmapAll_unmaps h.mem proc.l4
      ((proc.setCaps (proc.caps.set k none)).vasFor cap k)
    rw [← Process.setCaps_l4 proc (proc.caps.set k none), ← unmapForSlot_mem] at hun
    exact ⟨hun.fa, hun.tables, liveSpaceCount_put _ hp (by simp)⟩
  | home hheld hor hkind hp hnone hin =>
    exact ⟨rfl, fun _ => rfl, liveSpaceCount_put _ hp rfl⟩
  | strand hheld hor hkind hp hfull hg => exact ⟨rfl, fun _ => rfl, fun _ => rfl⟩
  | drop hheld hplain => exact ⟨rfl, fun _ => rfl, fun _ => rfl⟩
  | @unmapFb p proc k hp =>
    have hun := Mem.unmapAll_unmaps h.mem proc.l4 (proc.fbOf k)
    exact ⟨hun.fa, hun.tables, liveSpaceCount_put _ hp rfl⟩
  | @clearOrigins p hdying hp hnone =>
    refine ⟨rfl, fun _ => rfl, fun a => Tally.tally_congr fun q => ?_⟩
    dsimp only
    cases h.proc q with
    | none => rfl
    | some proc => rfl
  | reorder hperm => exact ⟨rfl, fun _ => rfl, fun _ => rfl⟩

/-! ### Memory actions -/

/-- The owners that hold the address space `l4`. -/
def l4Owners (P : ProcSlot → Option Process) (spaces : List Nat) (l4 : Nat) : Nat :=
  Tally.tally (fun proc : Process => if proc.l4 = l4 then 1 else 0) P + spaces.count l4

theorem l4Owners_le (m : Mem) (P : ProcSlot → Option Process) (spaces : List Nat) (l4 : Nat) :
    l4Owners P spaces l4 ≤ liveSpaceCount m P l4 + spaceCount m spaces l4 := by
  have hself : ∀ l, (if l = l4 then 1 else 0) ≤ (m.spaceFrames l).count l4 := by
    intro l
    by_cases h : l = l4
    · subst h
      rw [if_pos rfl]
      exact List.count_pos_iff.mpr (by simp [Mem.spaceFrames])
    · rw [if_neg h]
      exact Nat.zero_le _
  have hlive : Tally.tally (fun proc : Process => if proc.l4 = l4 then 1 else 0) P
      ≤ liveSpaceCount m P l4 := by
    refine Tally.tally_le_tally fun p => ?_
    cases P p with
    | none => exact Nat.zero_le _
    | some proc =>
      rw [Tally.entry_some, Tally.entry_some]
      exact hself proc.l4
  have hspaces : spaces.count l4 ≤ spaceCount m spaces l4 := by
    induction spaces with
    | nil => exact Nat.zero_le _
    | cons l spaces ih =>
      have hl := hself l
      rw [spaceCount_cons, List.count_cons]
      simp only [beq_iff_eq]
      omega
  unfold l4Owners
  omega

/-- One more page table in the space `l4`: each owner of that space owns one more frame. -/
theorem spaceFrames_link {m m' : Mem} {l4 a : Nat} {key : TableKey}
    (hself : (m'.spaces l4).tables = (m.spaces l4).tables ++ [(key, a)])
    (hother : ∀ l, l ≠ l4 → m'.spaces l = m.spaces l) (l b : Nat) :
    (m'.spaceFrames l).count b
      ≤ (m.spaceFrames l).count b + (if l = l4 then (if b = a then 1 else 0) else 0) := by
  by_cases h : l = l4
  · subst h
    rw [if_pos rfl]
    unfold Mem.spaceFrames AddressSpace.userTables
    rw [hself, List.filter_append, List.map_append]
    simp only [List.count_append]
    have hone : (([(key, a)].filter fun t => underUserHalf t.1).map Prod.snd).count b
        ≤ if b = a then 1 else 0 := by
      by_cases hkey : underUserHalf key = true
      · simp [hkey, count_cons_if]
      · simp [hkey]
    omega
  · rw [if_neg h]
    unfold Mem.spaceFrames
    rw [hother l h]
    omega

theorem spaceCounts_link {m n : Mem} {l4 a : Nat} {key : TableKey}
    (hself : (n.spaces l4).tables = (m.spaces l4).tables ++ [(key, a)])
    (hother : ∀ l, l ≠ l4 → n.spaces l = m.spaces l) (P : ProcSlot → Option Process)
    (spaces : List Nat) (b : Nat) :
    liveSpaceCount n P b + spaceCount n spaces b
      ≤ liveSpaceCount m P b + spaceCount m spaces b +
        (if b = a then l4Owners P spaces l4 else 0) := by
  have hone := spaceFrames_link hself hother
  have hlive : liveSpaceCount n P b ≤ liveSpaceCount m P b +
      (if b = a then Tally.tally (fun proc : Process => if proc.l4 = l4 then 1 else 0) P
        else 0) := by
    have hle : liveSpaceCount n P b ≤ Tally.tally (fun proc : Process =>
        (m.spaceFrames proc.l4).count b +
          (if proc.l4 = l4 then (if b = a then 1 else 0) else 0)) P := by
      refine Tally.tally_le_tally fun p => ?_
      cases P p with
      | none => exact Nat.zero_le _
      | some proc =>
        rw [Tally.entry_some, Tally.entry_some]
        exact hone proc.l4 b
    rw [Tally.tally_add] at hle
    by_cases hb : b = a
    · simp only [hb, if_true] at hle ⊢
      exact hle
    · simp only [hb, if_false, ite_self] at hle ⊢
      have hzero : Tally.tally (fun _ : Process => 0) P = 0 :=
        Tally.tally_eq_zero.mpr fun _ _ _ => rfl
      rw [hzero] at hle
      exact hle
  have hspaces : spaceCount n spaces b
      ≤ spaceCount m spaces b + (if b = a then spaces.count l4 else 0) := by
    induction spaces with
    | nil => simp [spaceCount]
    | cons l spaces ih =>
      have hl := hone l b
      rw [spaceCount_cons, spaceCount_cons, List.count_cons]
      simp only [beq_iff_eq]
      by_cases hb : b = a
      · simp only [hb, if_true] at ih hl ⊢
        omega
      · simp only [hb, if_false, ite_self] at ih hl ⊢
        omega
  unfold l4Owners
  by_cases hb : b = a
  · simp only [hb, if_true] at hlive hspaces ⊢
    omega
  · simp only [hb, if_false] at hlive hspaces ⊢
    omega

/-- A memory action keeps the ownership of frames. The other owners of the frames are a
parameter of the statement: `extra` counts them. -/
theorem MemAct.owned {m m' : Store} (act : MemAct m m') {P : ProcSlot → Option Process}
    {e : Nat → Nat} (hrefused : m.mem.fa.refused = [])
    (h : ∀ b, e b + liveSpaceCount m.mem P b + spaceCount m.mem m.spaces b +
      m.frames.count b ≤ m.mem.fa.marked b) :
    m'.mem.fa.refused = [] ∧ ∀ b, e b + liveSpaceCount m'.mem P b +
      spaceCount m'.mem m'.spaces b + m'.frames.count b ≤ m'.mem.fa.marked b := by
  cases act with
  | @alloc a fa halloc =>
    obtain ⟨-, hmarked, hsame⟩ := FrameAlloc.alloc_marked halloc
    refine ⟨hsame.trans hrefused, fun b => ?_⟩
    have hb := h b
    have hm := hmarked b
    have hlive := liveSpaceCount_of_tables (m := m.mem) (n := ⟨fa, m.mem.spaces⟩)
      (fun _ => rfl) P b
    have hspace := spaceCount_of_tables (m := m.mem) (n := ⟨fa, m.mem.spaces⟩)
      (fun _ => rfl) m.spaces b
    dsimp only
    rw [count_cons_if]
    omega
  | @giveBack a rest hframes =>
    have hpos : 0 < m.mem.fa.marked a := by
      have ha := h a
      rw [hframes, List.count_cons_self] at ha
      omega
    obtain ⟨hsame, hmarked⟩ := FrameAlloc.giveBack_marked hpos
    refine ⟨hsame.trans hrefused, fun b => ?_⟩
    have hb := h b
    have hm := hmarked b
    rw [hframes, count_cons_if] at hb
    have hlive := liveSpaceCount_of_tables (m := m.mem)
      (n := ⟨m.mem.fa.giveBack a, m.mem.spaces⟩) (fun _ => rfl) P b
    have hspace := spaceCount_of_tables (m := m.mem)
      (n := ⟨m.mem.fa.giveBack a, m.mem.spaces⟩) (fun _ => rfl) m.spaces b
    dsimp only
    omega
  | @leak a rest hframes =>
    refine ⟨hrefused, fun b => ?_⟩
    have hb := h b
    rw [hframes, List.count_cons] at hb
    dsimp only
    omega
  | reorder hperm =>
    refine ⟨hrefused, fun b => ?_⟩
    dsimp only
    rw [hperm.count_eq]
    exact h b
  | @link a l4 fa key halloc hlow =>
    obtain ⟨hfresh, hmarked, hsame⟩ := FrameAlloc.alloc_marked halloc
    refine ⟨hsame.trans hrefused, fun b => ?_⟩
    have hb := h b
    have hl4 := h l4
    have hone := m.mem.fa.marked_le_one l4
    have hm := hmarked b
    have hown := l4Owners_le m.mem P m.spaces l4
    have hlink := spaceCounts_link (m := m.mem) (n := Mem.setSpace ⟨fa, m.mem.spaces⟩ l4
      ⟨(m.mem.spaces l4).tables ++ [(key, a)], (m.mem.spaces l4).leaves⟩)
      (by rw [Mem.setSpace_spaces_self])
      (fun l hl => Mem.setSpace_spaces_of_ne _ _ hl) P m.spaces b
    dsimp only [Mem.setSpace_fa]
    by_cases hba : b = a
    · subst hba
      simp only [if_true] at hlink hm
      omega
    · simp only [hba, if_false] at hlink hm
      omega
  | @openSpace l4 rest hframes =>
    refine ⟨hrefused, fun b => ?_⟩
    have hb := h b
    have hle : ∀ l, ((m.mem.setSpace l4 AddressSpace.empty).spaceFrames l).count b
        ≤ (m.mem.spaceFrames l).count b := by
      intro l
      unfold Mem.spaceFrames
      by_cases hl : l = l4
      · subst hl
        rw [Mem.setSpace_spaces_self]
        simp [AddressSpace.empty, AddressSpace.userTables]
      · rw [Mem.setSpace_spaces_of_ne _ _ hl]
    have hlive : liveSpaceCount (m.mem.setSpace l4 AddressSpace.empty) P b
        ≤ liveSpaceCount m.mem P b := by
      refine Tally.tally_le_tally fun p => ?_
      cases P p with
      | none => exact Nat.zero_le _
      | some proc =>
        rw [Tally.entry_some, Tally.entry_some]
        exact hle proc.l4
    have hspace : spaceCount (m.mem.setSpace l4 AddressSpace.empty) m.spaces b
        ≤ spaceCount m.mem m.spaces b :=
      List.sum_le_sum fun l _ => hle l
    have hnew : ((m.mem.setSpace l4 AddressSpace.empty).spaceFrames l4).count b
        = [l4].count b := by
      unfold Mem.spaceFrames
      rw [Mem.setSpace_spaces_self]
      rfl
    rw [hframes] at hb
    rw [List.count_cons] at hb
    rw [List.count_singleton] at hnew
    dsimp only [Mem.setSpace_fa]
    rw [spaceCount_cons]
    omega
  | @closeSpace l4 rest hspaces =>
    refine ⟨hrefused, fun b => ?_⟩
    have hb := h b
    rw [hspaces, spaceCount_cons] at hb
    unfold Mem.spaceFrames at hb
    simp only [List.count_append, List.count_cons, List.count_nil] at hb ⊢
    omega
  | unmap l4 vas =>
    have hun := Mem.unmapAll_unmaps m.mem l4 vas
    refine ⟨by rw [hun.fa]; exact hrefused, fun b => ?_⟩
    dsimp only
    rw [liveSpaceCount_of_tables hun.tables, spaceCount_of_tables hun.tables, hun.fa]
    exact h b
  | @load l4 va l hout =>
    have htables : ∀ x, ((m.mem.setSpace l4 ((m.mem.spaces l4).addLeaf va l)).spaces x).tables
        = (m.mem.spaces x).tables := by
      intro x
      by_cases hx : x = l4
      · subst hx
        rw [Mem.setSpace_spaces_self]
        rfl
      · rw [Mem.setSpace_spaces_of_ne _ _ hx]
    refine ⟨hrefused, fun b => ?_⟩
    dsimp only
    rw [liveSpaceCount_of_tables htables, spaceCount_of_tables htables]
    exact h b

/-! ### All actions -/

/-- The frame weight of a capability of another kind: none. -/
theorem frameWeight_of_ne {cap : Capability} (h : ∀ a, cap.object ≠ .frame a) (a : Nat) :
    objWeight (.frame a) cap = 0 := objWeight_of_ne (h a)

theorem grantable_not_frame {v : Ledger} {cap : Capability} (h : v.Grantable cap) (a : Nat) :
    cap.object ≠ .frame a := by
  intro hobj
  have hkind := h.2
  rw [hobj] at hkind
  exact hkind

/-- The ownership survives if no frame gains an owner and the allocator stays the same. -/
theorem owned_of_le {v v' : Ledger} (h : v.Owned) (hfa : v'.mem.fa = v.mem.fa)
    (hle : ∀ a, v'.owners a ≤ v.owners a) : v'.Owned :=
  ⟨by rw [hfa]; exact h.refused, fun a => by rw [hfa]; exact le_trans (hle a) (h.owners a)⟩

/-- A placement of a capability that is no frame. -/
theorem frameTotal_places {P : ProcSlot → Option Process} {p : ProcSlot} {proc : Process}
    {cap : Capability} {k : CapSlot} {t : CapTable} (hp : P p = some proc)
    (hin : CapTable.Places proc.caps cap k t) (hcap : ∀ a, cap.object ≠ .frame a) (a : Nat) :
    liveTotal (objWeight (.frame a)) (Function.update P p (some (proc.setCaps t)))
      = liveTotal (objWeight (.frame a)) P := by
  rw [liveTotal_places _ hp hin, frameWeight_of_ne hcap]
  omega

/-- A placement keeps the address spaces. -/
theorem liveSpaceCount_setCaps {P : ProcSlot → Option Process} {p : ProcSlot}
    {proc : Process} (m : Mem) (hp : P p = some proc) (t : CapTable) (a : Nat) :
    liveSpaceCount m (Function.update P p (some (proc.setCaps t))) a
      = liveSpaceCount m P a :=
  liveSpaceCount_put (x := proc.setCaps t) m hp rfl a

theorem setSpace_tables {m : Mem} {l4 : Nat} {x : AddressSpace}
    (h : x.tables = (m.spaces l4).tables) (l : Nat) :
    ((m.setSpace l4 x).spaces l).tables = (m.spaces l).tables := by
  by_cases hl : l = l4
  · subst hl
    rw [Mem.setSpace_spaces_self, h]
  · rw [Mem.setSpace_spaces_of_ne _ _ hl]

/-- Every action keeps the ownership of frames. -/
theorem Act.owned {g : Guard} {v v' : Ledger} (act : Act g v v') (hs : v.toHoldings.Sound)
    (h : v.Owned) : v'.Owned := by
  cases act with
  | table act =>
    obtain ⟨hfa, htables, hspace⟩ := act.store
    refine owned_of_le h hfa fun a => ?_
    have htotal := act.total_tracked hs (o := .frame a) trivial
    have hlive := liveSpaceCount_of_tables htables
    have hcount := spaceCount_of_tables htables
    simp only [Ledger.owners, htotal, hlive, hspace, hcount, le_refl]
  | @mem m act =>
    obtain ⟨hrefused, howners⟩ := act.owned (P := v.proc)
      (e := fun a => v.total (objWeight (.frame a)) + bootCount v.boot a +
        v.devs.allFrames.count a) h.refused (fun a => by
          have ha := h.owners a
          simp only [Ledger.owners] at ha
          simp only [Ledger.store]
          omega)
    refine ⟨hrefused, fun a => ?_⟩
    have ha := howners a
    simp only [Ledger.owners, Ledger.setStore, Holdings.total] at ha ⊢
    omega
  | grant hp hok hg hgiver hbound hin =>
    refine owned_of_le h rfl fun a => ?_
    have hput := frameTotal_places hp (CapTable.install_ok hin).1 (grantable_not_frame hok) a
    have hspace := liveSpaceCount_setCaps v.mem hp
    simp only [Ledger.owners, Holdings.total, hput, hspace, le_refl]
  | @mintFrame p proc a rest rights k t hp hframes hnone hin =>
    refine owned_of_le h rfl fun b => ?_
    have hput := liveTotal_places (objWeight (.frame b)) hp (CapTable.install_ok hin).1
    have hspace := liveSpaceCount_setCaps v.mem hp t b
    have hone : objWeight (.frame b) ⟨.frame a, rights, none⟩ = if b = a then 1 else 0 := by
      unfold objWeight
      simp [eq_comm]
    simp only [Ledger.owners, Holdings.total, hput, hspace, hone, hframes, count_cons_if]
    omega
  | mintRing hp hfree huse howner hwait hnone hsq hcq hmask hin hg =>
    refine owned_of_le h rfl fun a => ?_
    have hput := frameTotal_places hp (CapTable.install_ok hin).1 (fun a heq => by cases heq) a
    have hspace := liveSpaceCount_setCaps v.mem hp
    simp only [Ledger.owners, Holdings.total, hput, hspace, le_refl]
  | parkCall hstate hpq hq hnone hin hg =>
    refine owned_of_le h rfl fun a => ?_
    have hput := frameTotal_places hq (CapTable.reclaim_some hin).1 (fun a heq => by cases heq) a
    have hspace := liveSpaceCount_setCaps v.mem hq
    simp only [Ledger.owners, Holdings.total, hput, hspace, le_refl]
  | receiveCall hqueue hside hcall hq hnone hin =>
    refine owned_of_le h rfl fun a => ?_
    have hput := frameTotal_places hq (CapTable.reclaim_some hin).1 (fun a heq => by cases heq) a
    have hspace := liveSpaceCount_setCaps v.mem hq
    simp only [Ledger.owners, Holdings.total, hput, hspace, le_refl]
  | @mapFrame p proc k cap addr va flags maps hp hk hobj hrec =>
    refine owned_of_le h rfl fun a => ?_
    have hput := liveTotal_put_same (w := objWeight (.frame a)) hp
      (x := { proc with maps }) rfl
    have htables := setSpace_tables (m := v.mem)
      (x := (v.mem.spaces proc.l4).addLeaf va ⟨addr, flags⟩) rfl
    have hlive := liveSpaceCount_of_tables htables
    have hcount := spaceCount_of_tables htables
    have hspace := liveSpaceCount_put (x := { proc with maps }) v.mem hp rfl
    simp only [Ledger.owners, Holdings.total, hput, hlive, hspace, hcount, le_refl]
  | @mapFb p proc k cap _ _ _ _ _ _ f fbMaps sp hp hk hobj hslot hrec htables hleaves =>
    refine owned_of_le h rfl fun a => ?_
    have hput := liveTotal_put_same (w := objWeight (.frame a)) hp
      (x := { proc with fbMaps }) rfl
    have hlive := liveSpaceCount_of_tables (setSpace_tables htables)
    have hcount := spaceCount_of_tables (setSpace_tables htables)
    have hspace := liveSpaceCount_put (x := { proc with fbMaps }) v.mem hp rfl
    simp only [Ledger.owners, Holdings.total, hput, hlive, hspace, hcount, le_refl]
  | mapBound hp hk hobj hdev htables hleaves =>
    refine owned_of_le h rfl fun a => ?_
    have hlive := liveSpaceCount_of_tables (setSpace_tables htables)
    have hcount := spaceCount_of_tables (setSpace_tables htables)
    simp only [Ledger.owners, Holdings.total, hlive, hcount, le_refl]
  | @takeEndpoint p proc k cap id n hp hk hobj hstate hnone hfirst hg hn =>
    refine owned_of_le h rfl fun a => ?_
    have hput := liveTotal_put (objWeight (.frame a)) hp
      (proc.setCaps (proc.caps.set k none))
    have hrev := procWeight_revoke (objWeight (.frame a)) hk
    have hspace := liveSpaceCount_setCaps v.mem hp (proc.caps.set k none) a
    simp only [Ledger.owners, Ledger.settle, Holdings.total]
    omega
  | @takeBound p proc k cap dev hp hk hobj hstate hnone hfirst hg =>
    refine owned_of_le h rfl fun a => ?_
    have hput := liveTotal_put (objWeight (.frame a)) hp
      (proc.setCaps (proc.caps.set k none))
    have hrev := procWeight_revoke (objWeight (.frame a)) hk
    have hspace := liveSpaceCount_setCaps v.mem hp (proc.caps.set k none) a
    have hdev := allFrames_detach v.devs dev a
    simp only [Ledger.owners, Holdings.total, List.count_append]
    omega
  | dropEndpoint hheld hobj hdoomed hn =>
    refine owned_of_le h rfl fun a => ?_
    simp only [Ledger.owners, Ledger.settle, Holdings.total, hheld, listTotal_cons]
    omega
  | dropRing hheld hobj =>
    refine owned_of_le h rfl fun a => ?_
    simp only [Ledger.owners, Holdings.total, hheld, listTotal_cons]
    omega
  | @dropFrame cap rest a hheld hobj =>
    refine owned_of_le h rfl fun b => ?_
    have hone : objWeight (.frame b) cap = if b = a then 1 else 0 := by
      unfold objWeight
      rw [hobj]
      simp [eq_comm]
    simp only [Ledger.owners, Holdings.total, hheld, listTotal_cons, hone, count_cons_if]
    omega
  | dropReply hheld hobj =>
    refine owned_of_le h rfl fun a => ?_
    simp only [Ledger.owners, Holdings.total, hheld, listTotal_cons]
    omega
  | @parkBind p proc k cap dev d b hp hk hobj hstate hd hb hg =>
    refine owned_of_le h rfl fun a => ?_
    have hdev := allFrames_setDevice (d := d)
      (x := { d with bound := some { b with waiter := some p } }) hd (by
        unfold VirtioBlk.frames
        rw [hb]
        rfl) a
    simp only [Ledger.owners, hdev, le_refl]
  | @unwait dev d b hd hb =>
    refine owned_of_le h rfl fun a => ?_
    have hdev := allFrames_setDevice (d := d)
      (x := { d with bound := some { b with waiter := none } }) hd (by
        unfold VirtioBlk.frames
        rw [hb]
        rfl) a
    simp only [Ledger.owners, hdev, le_refl]
  | @post p proc dev d id userData head inf chain hp hd huse howner hsubmit hframe hg =>
    refine owned_of_le h rfl fun a => ?_
    have hdev := allFrames_setDevice (d := d) (x := { d with
      inflights := inf, chains := Function.update d.chains (head / descPerReq) chain }) hd rfl a
    simp only [Ledger.owners, hdev, le_refl]
  | @complete dev d inf hd hinf hwf =>
    refine owned_of_le h rfl fun a => ?_
    have hdev := allFrames_setDevice (d := d)
      (x := { d with inflights := inf }) hd rfl a
    simp only [Ledger.owners, hdev, le_refl]
  | @dmaLink bi a fa key hbi halloc =>
    obtain ⟨hfresh, hmarked, hsame⟩ := FrameAlloc.alloc_marked halloc
    refine ⟨hsame.trans h.refused, fun b => ?_⟩
    have hb := h.owners b
    have hm := hmarked b
    have hdev := allFrames_setDomain (e := [a])
      (d := ⟨bi.domain.root, bi.domain.levels, bi.domain.tables ++ [(key, a)],
        bi.domain.leaves⟩) hbi b (by
        unfold Domain.frames
        simp only [List.map_append, List.count_append, List.map_cons, List.map_nil]
        omega)
    have hlive := liveSpaceCount_of_tables (m := v.mem) (n := ⟨fa, v.mem.spaces⟩)
      (fun _ => rfl) v.proc b
    have hcount := spaceCount_of_tables (m := v.mem) (n := ⟨fa, v.mem.spaces⟩)
      (fun _ => rfl) v.spaces b
    rw [count_cons_if, List.count_nil] at hdev
    simp only [Ledger.owners, Holdings.total] at hb ⊢
    omega
  | @dmaLeaf bi leaves hbi =>
    refine owned_of_le h rfl fun a => ?_
    have hdev := allFrames_setDomain (d := { bi.domain with leaves })
      (e := []) hbi a (by simp [Domain.frames])
    simp only [Ledger.owners, hdev, List.count_nil]
    omega
  | @leave p proc hp hstate hheld hdying htransit hcalm hg =>
    refine owned_of_le h rfl fun a => ?_
    have hrem := liveTotal_remove (objWeight (.frame a)) hp
    have hspace := Tally.tally_erase (fun proc : Process => (v.mem.spaceFrames proc.l4).count a) hp
    have hboot := bootCount_update v.boot p [] a
    simp only [Ledger.owners, Holdings.total, hheld, listTotal_iter, listTotal_nil,
      List.count_append, spaceCount_cons, List.map_nil, List.count_nil, liveSpaceCount]
      at hboot ⊢
    omega
  | @enter p proc boot rest spaces k budget rights hp hstate hcaps hspaces hframes hdying =>
    refine owned_of_le h rfl fun a => ?_
    have hadd := liveTotal_add (objWeight (.frame a)) hp proc
    have hproc : procWeight (objWeight (.frame a)) proc = 0 := by
      unfold procWeight
      rw [hcaps, CapTable.set_slots, Tally.tally_insert _ _ rfl]
      simp [CapTable.new, objWeight]
    have hspace := Tally.tally_insert
      (fun proc : Process => (v.mem.spaceFrames proc.l4).count a) proc hp
    have hboot := bootCount_update v.boot p boot a
    simp only [Ledger.owners, Holdings.total, hspaces, hframes, List.count_append,
      spaceCount_cons, liveSpaceCount] at hboot ⊢
    omega
  | _ => exact owned_of_le h rfl fun a => le_refl _

/-! ### What ownership excludes -/

section

variable {v : Ledger} {a : Nat}

/-- At most one Frame capability names a frame. -/
theorem Ledger.Owned.frame_le_one (h : v.Owned) :
    liveTotal (objWeight (.frame a)) v.proc ≤ 1 := by
  have hown := h.owners a
  have hone := v.mem.fa.marked_le_one a
  simp only [Ledger.owners, Holdings.total] at hown
  omega

/-- The address spaces of two live processes differ. -/
theorem Ledger.Owned.l4_injective (h : v.Owned) {p q : ProcSlot} {proc proc' : Process}
    (hp : v.proc p = some proc) (hq : v.proc q = some proc') (hl4 : proc.l4 = proc'.l4) :
    p = q := by
  by_contra hne
  have hown := h.owners proc.l4
  have hone := v.mem.fa.marked_le_one proc.l4
  have hadd := Tally.add_le_tally
    (fun prg : Process => (v.mem.spaceFrames prg.l4).count proc.l4) hne hp hq
  have hpos : 0 < (v.mem.spaceFrames proc.l4).count proc.l4 :=
    List.count_pos_iff.mpr (by simp [Mem.spaceFrames])
  simp only [← hl4] at hadd
  simp only [Ledger.owners, liveSpaceCount] at hown
  omega

end

end Plinth
