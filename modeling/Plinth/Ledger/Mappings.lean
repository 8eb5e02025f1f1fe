import Plinth.Ledger.Frames
import Plinth.Ledger.Retain

/-!
# `Plinth.Ledger.Mappings`: what backs a mapping of user code

A process maps pages in the window for user-chosen mappings with three calls. `frame_map` and
`fb_map` record the page with the slot of the capability, and a capability that leaves the slot
takes the page with it. `bind_device` records nothing.

`Warranted` says that each such page stands in a record whose slot holds a capability for it, or
that it belongs to a bound device whose capability the process retains. Every action keeps this,
unless it takes a bound device away from a process that still maps pages of it.
-/

set_option autoImplicit false

namespace Plinth

variable {x y : Process} {va phys : Nat} {l : Leaf}

/-! ### The records of a process -/

/-- A record of `frame_map` for the page of `va`, through a capability for the frame at `phys`. -/
def Process.FrameRecorded (proc : Process) (va phys : Nat) : Prop :=
  ∃ (va' : Nat) (k : CapSlot) (cap : Capability), some (va', k.val) ∈ proc.maps ∧
    va / frameSize = va' / frameSize ∧ proc.caps.slots k = some cap ∧ cap.object = .frame phys

/-- The `fb_map` record maps the page of `va` to `phys`, which is a page of the framebuffer `o`. -/
def FbMap.Shows (f : FbMap) (o : CapObject) (va phys : Nat) : Prop :=
  ∃ physBase width height stride bpp format i,
    o = .framebuffer physBase width height stride bpp format ∧ i < f.pages ∧
      va / frameSize = (f.vaBase + i * frameSize) / frameSize ∧
      phys = physBase + i * frameSize ∧ i * frameSize < height * stride * bpp

/-- A record of `fb_map` for the page of `va`, through a capability for a framebuffer with the page
at `phys`. -/
def Process.FbRecorded (proc : Process) (va phys : Nat) : Prop :=
  ∃ (f : FbMap) (k : CapSlot) (cap : Capability), some f ∈ proc.fbMaps ∧ f.slot = k.val ∧
    proc.caps.slots k = some cap ∧ f.Shows cap.object va phys

/-- The mapping of the page of `va` to `phys` is recorded with a capability. -/
def Process.Recorded (proc : Process) (va phys : Nat) : Prop :=
  proc.FrameRecorded va phys ∨ proc.FbRecorded va phys

/-- The kinds that the records stand for. -/
def CapObject.isMappable : CapObject → Bool
  | .frame _ => true
  | .framebuffer .. => true
  | _ => false

theorem FbMap.Shows.mappable {f : FbMap} {o : CapObject} (h : f.Shows o va phys) :
    o.isMappable = true := by
  obtain ⟨physBase, width, height, stride, bpp, format, i, rfl, -⟩ := h
  rfl

/-- The records stay valid as long as the slots keep what they hold. -/
theorem Process.Recorded.keep (h : x.Recorded va phys)
    (hmaps : ∀ e, some e ∈ x.maps → some e ∈ y.maps)
    (hfb : ∀ f, some f ∈ x.fbMaps → some f ∈ y.fbMaps)
    (hslots : ∀ k cap, x.caps.slots k = some cap → cap.object.isMappable = true →
      ∃ cap', y.caps.slots k = some cap' ∧ cap'.object = cap.object) : y.Recorded va phys := by
  rcases h with ⟨va', k, cap, hrec, hva, hk, hobj⟩ | ⟨f, k, cap, hrec, hslot, hk, hshows⟩
  · obtain ⟨cap', hk', hobj'⟩ := hslots k cap hk (by rw [hobj]; rfl)
    exact Or.inl ⟨va', k, cap', hmaps _ hrec, hva, hk', hobj'.trans hobj⟩
  · obtain ⟨cap', hk', hobj'⟩ := hslots k cap hk hshows.mappable
    exact Or.inr ⟨f, k, cap', hfb f hrec, hslot, hk', by rw [hobj']; exact hshows⟩

/-- A capability that enters the table leaves the records valid. -/
theorem Process.Recorded.place (h : x.Recorded va phys) {cap : Capability} {k : CapSlot}
    {t : CapTable} (hin : CapTable.Places x.caps cap k t) : (x.setCaps t).Recorded va phys :=
  h.keep (fun _ he => he) (fun _ hf => hf) fun _ c hc _ => ⟨c, hin.keeps hc, rfl⟩

/-- A capability of another kind that leaves the table leaves the records valid. -/
theorem Process.Recorded.revoke (h : x.Recorded va phys) {cap : Capability} {k : CapSlot}
    (hk : x.caps.slots k = some cap) (hkind : cap.object.isMappable = false) :
    (x.setCaps (x.caps.set k none)).Recorded va phys := by
  refine h.keep (fun _ he => he) (fun _ hf => hf) fun j c hj hmap => ⟨c, ?_, rfl⟩
  have hne : j ≠ k := by
    rintro rfl
    rw [hk, Option.some.injEq] at hj
    subst hj
    rw [hkind] at hmap
    cases hmap
  rw [Process.setCaps_caps, CapTable.set_slots, Function.update_of_ne hne]
  exact hj

theorem mem_mapsOf {k va' : Nat} (h : some (va', k) ∈ x.maps) : va' ∈ x.mapsOf k :=
  List.mem_filterMap.mpr ⟨some (va', k), h, by simp⟩

theorem mem_fbOf {f : FbMap} {k i : Nat} (h : some f ∈ x.fbMaps) (hslot : f.slot = k)
    (hi : i < f.pages) : f.vaBase + i * frameSize ∈ x.fbOf k := by
  refine List.mem_flatMap.mpr ⟨some f, h, ?_⟩
  dsimp only
  rw [if_pos hslot]
  exact List.mem_map.mpr ⟨i, List.mem_range.mpr hi, rfl⟩

/-- A capability that leaves its slot with the mappings made through it leaves the records of the
other mappings valid. -/
theorem Process.Recorded.unmap (h : x.Recorded va phys) {cap : Capability} {k : CapSlot} (m : Mem)
    (hk : x.caps.slots k = some cap) (hva : va / frameSize ∉ (x.vasFor cap k).map (· / frameSize)) :
    (unmapForSlot m (x.setCaps (x.caps.set k none)) cap k).1.Recorded va phys := by
  have hslots : ∀ j c, j ≠ k → x.caps.slots j = some c →
      (unmapForSlot m (x.setCaps (x.caps.set k none)) cap k).1.caps.slots j = some c := by
    intro j c hne hj
    rw [unmapForSlot_caps, Process.setCaps_caps, CapTable.set_slots, Function.update_of_ne hne]
    exact hj
  have hmaps : ∀ va' (j : CapSlot), j ≠ k → some (va', j.val) ∈ x.maps → some (va', j.val) ∈
      (unmapForSlot m (x.setCaps (x.caps.set k none)) cap k).1.maps := by
    intro va' j hne hrec
    unfold unmapForSlot
    split
    · refine List.mem_map.mpr ⟨some (va', j.val), hrec, ?_⟩
      dsimp only
      rw [if_neg fun heq => hne (Fin.ext heq)]
    · exact hrec
    · exact hrec
  have hfb : ∀ (f : FbMap) (j : CapSlot), j ≠ k → f.slot = j.val → some f ∈ x.fbMaps → some f ∈
      (unmapForSlot m (x.setCaps (x.caps.set k none)) cap k).1.fbMaps := by
    intro f j hne hslot hrec
    unfold unmapForSlot
    split
    · exact hrec
    · refine List.mem_map.mpr ⟨some f, hrec, ?_⟩
      dsimp only
      rw [if_neg fun heq => hne (Fin.ext (hslot.symm.trans heq))]
    · exact hrec
  -- A record of the slot itself would name a page that is unmapped.
  rcases h with ⟨va', j, c, hrec, hpage, hj, hobj⟩ | ⟨f, j, c, hrec, hslot, hj, hshows⟩
  · have hne : j ≠ k := by
      rintro rfl
      rw [hk, Option.some.injEq] at hj
      subst hj
      refine hva (List.mem_map.mpr ⟨va', ?_, hpage.symm⟩)
      unfold Process.vasFor
      rw [hobj]
      exact mem_mapsOf hrec
    exact Or.inl ⟨va', j, c, hmaps va' j hne hrec, hpage, hslots j c hne hj, hobj⟩
  · have hne : j ≠ k := by
      rintro rfl
      rw [hk, Option.some.injEq] at hj
      subst hj
      obtain ⟨physBase, width, height, stride, bpp, format, i, hobj, hi, hpage, -⟩ := hshows
      refine hva (List.mem_map.mpr ⟨f.vaBase + i * frameSize, ?_, hpage.symm⟩)
      unfold Process.vasFor
      rw [hobj]
      exact mem_fbOf hrec hslot hi
    exact Or.inr ⟨f, j, c, hfb f j hne hslot hrec, hslot, hslots j c hne hj, hshows⟩

/-- The framebuffer mappings of a slot go, with their records. -/
theorem Process.Recorded.unmapFb (h : x.Recorded va phys) (m : Mem) (k : CapSlot)
    (hva : va / frameSize ∉ (x.fbOf k).map (· / frameSize)) :
    (unmapFbForSlot m x k).1.Recorded va phys := by
  rcases h with hframe | ⟨f, j, c, hrec, hslot, hj, hshows⟩
  · exact Or.inl hframe
  · have hne : f.slot ≠ k := by
      intro heq
      obtain ⟨physBase, width, height, stride, bpp, format, i, -, hi, hpage, -⟩ := hshows
      exact hva (List.mem_map.mpr ⟨f.vaBase + i * frameSize, mem_fbOf hrec heq hi, hpage.symm⟩)
    refine Or.inr ⟨f, j, c, List.mem_map.mpr ⟨some f, hrec, ?_⟩, hslot, hj, hshows⟩
    dsimp only
    rw [if_neg hne]

/-! ### The mappings after an action -/

/-- An action on the memory adds no mapping in the window. -/
theorem MemAct.leaf_window {m m' : Store} (act : MemAct m m') {l4 : Nat}
    (hl : (m'.mem.spaces l4).leaf va = some l) :
    (m.mem.spaces l4).leaf va = some l ∨ outsideMapWindow va := by
  cases act with
  | @link a l4' fa key halloc hlow =>
    by_cases heq : l4 = l4'
    · subst heq
      rw [Mem.setSpace_spaces_self] at hl
      exact Or.inl hl
    · rw [Mem.setSpace_spaces_of_ne _ _ heq] at hl
      exact Or.inl hl
  | @openSpace l4' rest hframes =>
    by_cases heq : l4 = l4'
    · subst heq
      rw [Mem.setSpace_spaces_self] at hl
      cases hl
    · rw [Mem.setSpace_spaces_of_ne _ _ heq] at hl
      exact Or.inl hl
  | unmap l4' vas =>
    have hun := Mem.unmapAll_unmaps m.mem l4' vas
    by_cases heq : l4 = l4'
    · subst heq
      exact Or.inl (hun.leaf_some hl).1
    · rw [hun.other l4 heq] at hl
      exact Or.inl hl
  | @load l4' va' leaf hout =>
    by_cases heq : l4 = l4'
    · subst heq
      rw [Mem.setSpace_spaces_self, AddressSpace.addLeaf_leaf] at hl
      split at hl
      · rename_i hpage
        right
        unfold outsideMapWindow at hout ⊢
        rwa [hpage]
      · exact Or.inl hl
    · rw [Mem.setSpace_spaces_of_ne _ _ heq] at hl
      exact Or.inl hl
  | _ => exact Or.inl hl

/-- The actions on the memory map no page in the window. -/
theorem MemAct.windowFree {m m' : Store} (act : MemAct m m') {l4 : Nat}
    (h : m.mem.WindowFree l4) : m'.mem.WindowFree l4 := by
  intro va l hl
  rcases act.leaf_window hl with hold | hout
  · exact h va l hold
  · exact hout

/-- The mapping of the page of `va` to `l` in the space of slot `p` was there before, and what
recorded it records it still. -/
def Kept (P P' : ProcSlot → Option Process) (m m' : Mem) : Prop :=
  ∀ p y va l, P' p = some y → (m'.spaces y.l4).leaf va = some l →
    ∃ x, P p = some x ∧ x.l4 = y.l4 ∧ (m.spaces x.l4).leaf va = some l ∧
      (x.Recorded va l.phys → y.Recorded va l.phys)

section

variable {P P' : ProcSlot → Option Process} {m m' : Mem} {p q : ProcSlot} {cap : Capability}
  {k : CapSlot} {t : CapTable}

theorem Kept.refl (P : ProcSlot → Option Process) (m : Mem) : Kept P P m m :=
  fun _ y _ _ hy hl => ⟨y, hy, rfl, hl, id⟩

/-- A process is rewritten, and the memory stays. -/
theorem Kept.put (hq : P q = some x) (hl4 : y.l4 = x.l4)
    (hrec : ∀ va phys, x.Recorded va phys → y.Recorded va phys) :
    Kept P (Function.update P q (some y)) m m := by
  intro p z va l hz hl
  by_cases heq : p = q
  · subst heq
    rw [Function.update_self, Option.some.injEq] at hz
    subst hz
    exact ⟨x, hq, hl4.symm, by rwa [← hl4], hrec va l.phys⟩
  · rw [Function.update_of_ne heq] at hz
    exact ⟨z, hz, rfl, hl, id⟩

theorem Kept.place (hq : P q = some x) (hin : CapTable.Places x.caps cap k t) :
    Kept P (Function.update P q (some (x.setCaps t))) m m :=
  .put hq rfl fun _ _ h => h.place hin

/-- A process is rewritten, and some of its pages are unmapped. -/
theorem Kept.unmap {vas : List Nat} (hq : P q = some x) (hl4 : y.l4 = x.l4)
    (hrec : ∀ va phys, va / frameSize ∉ vas.map (· / frameSize) → x.Recorded va phys →
      y.Recorded va phys) :
    Kept P (Function.update P q (some y)) m (m.unmapAll x.l4 vas) := by
  intro p z va l hz hl
  have hun := Mem.unmapAll_unmaps m x.l4 vas
  by_cases heq : p = q
  · subst heq
    rw [Function.update_self, Option.some.injEq] at hz
    subst hz
    rw [hl4] at hl
    obtain ⟨hold, hnot⟩ := hun.leaf_some hl
    exact ⟨x, hq, hl4.symm, hold, hrec va l.phys hnot⟩
  · rw [Function.update_of_ne heq] at hz
    refine ⟨z, hz, rfl, ?_, id⟩
    by_cases hspace : z.l4 = x.l4
    · rw [hspace] at hl ⊢
      exact (hun.leaf_some hl).1
    · rwa [hun.other _ hspace] at hl

end

/-- A table action keeps the mappings that it leaves, and their records. -/
theorem TableAct.kept {give : ProcSlot → CapSlot → Fate → Prop}
    {take : ProcSlot → CapSlot → Prop} {strand : Capability → Prop} {h h' : Holdings}
    (act : TableAct give take strand h h') : Kept h.proc h'.proc h.mem h'.mem := by
  cases act with
  | @charge p proc k cap budget budget' hp hk hobj hnone =>
    refine .put hp rfl fun va phys hrec => hrec.keep (fun _ he => he) (fun _ hf => hf) ?_
    intro j c hj hmap
    have hne : j ≠ k := by
      rintro rfl
      rw [hk, Option.some.injEq] at hj
      subst hj
      rw [hobj] at hmap
      cases hmap
    exact ⟨c, by simp [Function.update_of_ne hne, hj], rfl⟩
  | @give p proc k cap f hp hk hnone hdying hfirst hg =>
    dsimp only
    rw [giveAway_mem]
    refine .unmap hp (giveAway_l4 _ _ _ _) fun va phys hva hrec => ?_
    have hkeep := hrec.unmap h.mem hk hva
    unfold giveAway
    dsimp only
    split
    · exact hkeep.keep (fun _ he => he) (fun _ hf => hf) fun j c hj _ => ⟨c, hj, rfl⟩
    · exact hkeep
  | land htr hpq hq hin => exact .place hq (CapTable.installHome_some hin).1
  | child htr hpq hq hlender hin => exact .place hq (CapTable.install_ok hin).1
  | back htr hp hin => exact .place hp (CapTable.reclaim_some hin).1
  | undo htr hp hin hown hfree => exact .place hp hin
  | lost htr hp hfull => exact .refl _ _
  | @take p proc k cap hp hk hkind hnone hdying hfirst hg =>
    dsimp only
    rw [unmapForSlot_mem]
    change Kept _ _ h.mem (h.mem.unmapAll proc.l4 (proc.vasFor cap k))
    exact .unmap hp (by simp) fun va phys hva hrec => hrec.unmap h.mem hk hva
  | home hheld ho hkind hp hnone hin => exact .place hp (CapTable.goHome_some hin).1
  | strand hheld ho hkind hp hfull hg => exact .refl _ _
  | drop hheld hplain => exact .refl _ _
  | @unmapFb p proc k hp => exact .unmap hp rfl fun va phys hva hrec => hrec.unmapFb h.mem k hva
  | @clearOrigins p hdying hp hnone =>
    intro q y va l hy hl
    dsimp only at hy hl
    obtain ⟨x, hx, rfl⟩ := Option.map_eq_some_iff.mp hy
    refine ⟨x, hx, rfl, hl, fun hrec => hrec.keep (fun _ he => he) (fun _ hf => hf) ?_⟩
    intro j c hj _
    refine ⟨CapTable.clearLender p c, ?_, by simp⟩
    rw [Process.setCaps_caps, CapTable.clearOrigin_slots, hj]
    rfl
  | reorder hperm => exact .refl _ _

/-- The new record is there, and the old ones stay. -/
theorem recordFirst_mem {α : Type} {e : α} {es es' : List (Option α)}
    (h : recordFirst e es = some es') : some e ∈ es' ∧ ∀ d, some d ∈ es → some d ∈ es' := by
  induction es generalizing es' with
  | nil => cases h
  | cons d es ih =>
    cases d with
    | none =>
      simp only [recordFirst, Option.some.injEq] at h
      subst h
      exact ⟨List.mem_cons_self, fun d hd => List.mem_cons_of_mem _ (by simpa using hd)⟩
    | some d =>
      obtain ⟨rest, hrest, rfl⟩ := Option.map_eq_some_iff.mp h
      obtain ⟨hnew, hold⟩ := ih hrest
      refine ⟨List.mem_cons_of_mem _ hnew, fun c hc => ?_⟩
      rcases List.mem_cons.mp hc with heq | hc
      · rw [heq]
        exact List.mem_cons_self
      · exact List.mem_cons_of_mem _ (hold c hc)

/-! ### What backs a mapping -/

/-- The page at `phys` belongs to a bound device whose capability the process in slot `p`
retains. -/
def Ledger.Rests (v : Ledger) (p : ProcSlot) (phys : Nat) : Prop :=
  ∃ dev b, v.Retains p (.boundDevice dev) ∧
    (v.devs.devices dev).bind VirtioBlk.bound = some b ∧ phys ∈ b.pages

/-- Every mapping in the window is recorded with a capability, or it rests on a bound device. -/
def Ledger.Warranted (v : Ledger) : Prop :=
  ∀ p proc va l, v.proc p = some proc → (v.mem.spaces proc.l4).leaf va = some l →
    outsideMapWindow va ∨ proc.Recorded va l.phys ∨ v.Rests p l.phys

variable {g : Guard} {v v' : Ledger} {p : ProcSlot}

/-- A rewrite of an address space of a live process changes no other process's mappings. -/
theorem Ledger.Owned.leaf_other (hown : v.Owned) {q : ProcSlot} {sp : AddressSpace}
    (hq : v.proc q = some x) (hp : v.proc p = some y) (hne : p ≠ q) :
    (v.mem.setSpace x.l4 sp).spaces y.l4 = v.mem.spaces y.l4 := by
  refine Mem.setSpace_spaces_of_ne _ _ fun heq => hne ?_
  exact hown.l4_injective hp hq heq

/-- A mapping after an action was there before, with its record, or the action makes it with a
capability for it. -/
theorem Act.mapping (act : Act g v v') (hown : v.Owned) (hy : v'.proc p = some y)
    (hl : (v'.mem.spaces y.l4).leaf va = some l) (hin : ¬ outsideMapWindow va) :
    (∃ x, v.proc p = some x ∧ x.l4 = y.l4 ∧ (v.mem.spaces x.l4).leaf va = some l ∧
      (x.Recorded va l.phys → y.Recorded va l.phys)) ∨
    y.Recorded va l.phys ∨ v'.Rests p l.phys := by
  cases act with
  | table act => exact Or.inl (act.kept p y va l hy hl)
  | mem act => exact Or.inl ⟨y, hy, rfl, (act.leaf_window hl).resolve_right hin, id⟩
  | grant hp hok hg hgiver hbound hinst =>
    exact Or.inl (Kept.place hp (CapTable.install_ok hinst).1 p y va l hy hl)
  | mintFrame hp hframes hnone hinst =>
    exact Or.inl (Kept.place hp (CapTable.install_ok hinst).1 p y va l hy hl)
  | mintRing hp hfree huse howner hwait hnone hsq hcq hmask hinst hg =>
    exact Or.inl (Kept.place hp (CapTable.install_ok hinst).1 p y va l hy hl)
  | @mapFrame q x k cap addr va' flags maps hq hk hobj hrec =>
    have hmem := recordFirst_mem hrec
    dsimp only at hy hl
    by_cases heq : p = q
    · subst heq
      rw [Function.update_self, Option.some.injEq] at hy
      subst hy
      rw [Mem.setSpace_spaces_self, AddressSpace.addLeaf_leaf] at hl
      split at hl
      · rename_i hpage
        obtain rfl := Option.some.inj hl
        exact Or.inr (Or.inl (Or.inl ⟨va', k, cap, hmem.1, hpage, hk, hobj⟩))
      · exact Or.inl ⟨x, hq, rfl, hl, fun hold => hold.keep (fun e he => hmem.2 e he)
          (fun _ hf => hf) fun j c hj _ => ⟨c, hj, rfl⟩⟩
    · rw [Function.update_of_ne heq] at hy
      rw [hown.leaf_other hq hy heq] at hl
      exact Or.inl ⟨y, hy, rfl, hl, id⟩
  | @mapFb q x k cap physBase width height stride bpp format f fbMaps sp hq hk hobj hslot hrec
      htables hleaves hspan =>
    have hmem := recordFirst_mem hrec
    dsimp only at hy hl
    by_cases heq : p = q
    · subst heq
      rw [Function.update_self, Option.some.injEq] at hy
      subst hy
      rw [Mem.setSpace_spaces_self] at hl
      rcases hleaves va l hl with hold | ⟨i, hi, hpage, hphys⟩
      · exact Or.inl ⟨x, hq, rfl, hold, fun hrec => hrec.keep (fun _ he => he)
          (fun e he => hmem.2 e he) fun j c hj _ => ⟨c, hj, rfl⟩⟩
      · exact Or.inr (Or.inl (Or.inr ⟨f, k, cap, hmem.1, hslot, hk, physBase, width, height,
          stride, bpp, format, i, hobj, hi, hpage, hphys, hspan i hi⟩))
    · rw [Function.update_of_ne heq] at hy
      rw [hown.leaf_other hq hy heq] at hl
      exact Or.inl ⟨y, hy, rfl, hl, id⟩
  | @mapBound q x k cap dev b sp hq hk hobj hdev htables hleaves =>
    by_cases heq : p = q
    · subst heq
      rw [hq, Option.some.injEq] at hy
      subst hy
      dsimp only at hl
      rw [Mem.setSpace_spaces_self] at hl
      rcases hleaves va l hl with hold | hphys
      · exact Or.inl ⟨x, hq, rfl, hold, id⟩
      · exact Or.inr (Or.inr ⟨dev, b, Or.inl (.of_slot hq hk hobj), hdev, hphys⟩)
    · dsimp only at hl
      rw [hown.leaf_other hq hy heq] at hl
      exact Or.inl ⟨y, hy, rfl, hl, id⟩
  | @takeEndpoint q x k cap id n hq hk hobj hstate hnone hfirst hg hn =>
    have hkind : cap.object.isMappable = false := by
      rw [hobj]
      rfl
    have hkept := Kept.put (m := v.mem) (y := x.setCaps (x.caps.set k none)) hq rfl
      fun _ _ hrec => hrec.revoke hk hkind
    exact Or.inl (hkept p y va l hy hl)
  | @takeBound q x k cap dev hq hk hobj hstate hnone hfirst hg =>
    have hkind : cap.object.isMappable = false := by
      rw [hobj]
      rfl
    have hkept := Kept.put (m := v.mem) (y := x.setCaps (x.caps.set k none)) hq rfl
      fun _ _ hrec => hrec.revoke hk hkind
    exact Or.inl (hkept p y va l hy hl)
  | parkCall hstate hpq hq hnone hinst hg =>
    exact Or.inl (Kept.place hq (CapTable.reclaim_some hinst).1 p y va l hy hl)
  | receiveCall hqueue hside hcall hq hnone hinst hg =>
    exact Or.inl (Kept.place hq (CapTable.reclaim_some hinst).1 p y va l hy hl)
  | @leave q x hq hstate hheld hdying htransit hcalm hg =>
    have hne : p ≠ q := by
      rintro rfl
      dsimp only at hy
      rw [Function.update_self] at hy
      cases hy
    dsimp only at hy
    rw [Function.update_of_ne hne] at hy
    exact Or.inl ⟨y, hy, rfl, hl, id⟩
  | @enter q x boot rest spaces k budget rights hq hstate hcaps hspaces hframes hdying hwindow =>
    dsimp only at hy hl
    by_cases heq : p = q
    · subst heq
      rw [Function.update_self, Option.some.injEq] at hy
      subst hy
      exact absurd (hwindow va l hl) hin
    · rw [Function.update_of_ne heq] at hy
      exact Or.inl ⟨y, hy, rfl, hl, id⟩
  | _ => exact Or.inl ⟨y, hy, rfl, hl, id⟩

/-- A bound device stays bound, with the same pages, unless its capability is released. -/
theorem Act.bound_pages (act : Act g v v') {dev : DevId} {b : Bound}
    (hb : (v.devs.devices dev).bind VirtioBlk.bound = some b)
    (htake : ∀ q x k cap, v.transit = none → v.proc q = some x → x.caps.slots k = some cap →
      cap.object = .boundDevice dev → ¬ g.take v q k) :
    ∃ b', (v'.devs.devices dev).bind VirtioBlk.bound = some b' ∧ b'.pages = b.pages := by
  -- What a rewrite of one device does to the device at hand.
  have hset : ∀ {dev' : DevId} {d d' : VirtioBlk}, v.devs.devices dev' = some d →
      (∀ c, d.bound = some c → ∃ c', d'.bound = some c' ∧ c'.pages = c.pages) →
      ∃ b', ((v.devs.setDevice dev' (some d')).devices dev).bind VirtioBlk.bound = some b' ∧
        b'.pages = b.pages := by
    intro dev' d d' hd hbound
    unfold Devices.setDevice
    dsimp only
    by_cases heq : dev = dev'
    · subst heq
      rw [hd] at hb
      rw [Function.update_self]
      exact hbound b hb
    · rw [Function.update_of_ne heq]
      exact ⟨b, hb, rfl⟩
  cases act with
  | @parkBind q x k cap dev' d c hq hk hobj hstate hd hc hg =>
    refine hset hd fun c' hc' => ?_
    obtain rfl := Option.some.inj (hc.symm.trans hc')
    exact ⟨_, rfl, rfl⟩
  | post hq hd huse howner hsubmit hframe hg => exact hset hd fun c hc => ⟨c, hc, rfl⟩
  | complete hd hinf hwf => exact hset hd fun c hc => ⟨c, hc, rfl⟩
  | @unwait dev' d c hd hc =>
    refine hset hd fun c' hc' => ?_
    obtain rfl := Option.some.inj (hc.symm.trans hc')
    exact ⟨_, rfl, rfl⟩
  | @takeBound q x k cap dev' hq hk hobj hstate hnone hfirst hg =>
    have hne : dev ≠ dev' := by
      rintro rfl
      exact htake q x k cap hnone hq hk hobj hg
    refine ⟨b, ?_, rfl⟩
    dsimp only
    rcases devices_detach v.devs dev' with hsame | hnone
    · rw [hsame]
      exact hb
    · rw [hnone, Function.update_of_ne hne]
      exact hb
  | _ => exact ⟨b, hb, rfl⟩

/-- What rests on a bound device rests on it still, if the guard keeps the capability. -/
theorem Act.rests (act : Act g v v') (hbase : v.Base) {phys : Nat} (hy : v'.proc p = some y)
    (h : v.Rests p phys) (hg : ∀ dev b, (v.devs.devices dev).bind VirtioBlk.bound = some b →
      phys ∈ b.pages → g.Retentive v p (.boundDevice dev)) : v'.Rests p phys := by
  obtain ⟨dev, b, hret, hb, hphys⟩ := h
  have hkeep := hg dev b hb hphys
  rcases act.retains (by simp) hkeep hret with hret' | ⟨-, hgone, -⟩
  · obtain ⟨b', hb', hpages⟩ := act.bound_pages hb fun q x k cap hnone hq hk hobj htake => by
      -- Nobody else holds the capability.
      obtain rfl := Ledger.Holds.unique (hret.holds hnone) (.of_slot hq hk hobj)
        (hbase.keyed.bounds dev)
      exact hkeep.take k x cap htake hq hk hobj
    exact ⟨dev, b', hret', hb', by rw [hpages]; exact hphys⟩
  · rw [hgone] at hy
    cases hy

/-- In the ledger `v`, the guard keeps the bound devices on which mappings rest. -/
def Guard.KeepsMapped (g : Guard) (v : Ledger) : Prop :=
  ∀ p proc va l dev b, v.proc p = some proc → (v.mem.spaces proc.l4).leaf va = some l →
    ¬ outsideMapWindow va → ¬ proc.Recorded va l.phys →
    (v.devs.devices dev).bind VirtioBlk.bound = some b → l.phys ∈ b.pages →
    g.Retentive v p (.boundDevice dev)

theorem Act.warranted (act : Act g v v') (hbase : v.Base) (hown : v.Owned)
    (hg : g.KeepsMapped v) (h : v.Warranted) : v'.Warranted := by
  intro p y va l hy hl
  by_cases hin : outsideMapWindow va
  · exact Or.inl hin
  · right
    rcases act.mapping hown hy hl hin with ⟨x, hx, -, hold, hrec⟩ | hnew
    · by_cases hwas : x.Recorded va l.phys
      · exact Or.inl (hrec hwas)
      · have hrests := ((h p x va l hx hold).resolve_left hin).resolve_left hwas
        exact Or.inr (act.rests hbase hy hrests fun dev b hb hphys =>
          hg p x va l dev b hx hold hin hwas hb hphys)
    · exact hnew

end Plinth
