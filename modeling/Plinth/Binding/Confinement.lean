import Plinth.Binding.BoundDomain
import Plinth.Runs.Frames
import Plinth.Spawning.Load

/-!
# `Plinth.Binding.Confinement`: what a bound device reaches

`Board.Confined` says that the domain of a bound device maps frames of the binding only, that these
are allocated and have no other owner, and that no access of the device gets past them, before,
during and after `unbind`.

The boot self-test maps a scratch frame in the domain, frees it, and leaves the mapping. So
`bound_confined` is about the runs in which the self-test maps nothing, and `selftestRun` shows a
run in which the device reaches a page table of a process. In these runs translation is on before
the kernel proper runs with a bound device.
-/

set_option autoImplicit false

namespace Plinth

open Transition

/-! ### What an entry of the kernel does to the domain -/

/-- The domain of the bound device stays or goes, and a bound device was bound before, with the same
frames. -/
structure Devices.Calm (ds ds' : Devices) : Prop where
  translated : ds'.translated = ds.translated
  domain : ds'.boundDomain = ds.boundDomain ∨ ds'.boundDomain = none
  binding : ∀ dev c', ds'.binding dev = some c' → ∃ c, ds.binding dev = some c ∧
    c'.frames = c.frames

namespace Devices.Calm

variable {ds ds' ds'' : Devices}

theorem refl (ds : Devices) : ds.Calm ds := ⟨rfl, Or.inl rfl, fun _ c h => ⟨c, h, rfl⟩⟩

theorem trans (h : ds.Calm ds') (h' : ds'.Calm ds'') : ds.Calm ds'' := by
  refine ⟨h'.translated.trans h.translated, ?_, fun dev c'' hc'' => ?_⟩
  · rcases h'.domain with hsame | hnone
    · rw [hsame]
      exact h.domain
    · exact Or.inr hnone
  · obtain ⟨c', hc', hframes'⟩ := h'.binding dev c'' hc''
    obtain ⟨c, hc, hframes⟩ := h.binding dev c' hc'
    exact ⟨c, hc, hframes'.trans hframes⟩

/-- A device is rewritten, and its binding keeps its frames. -/
theorem setDevice {dev : DevId} {d d' : VirtioBlk} (hd : ds.devices dev = some d)
    (h : ∀ c', d'.bound = some c' → ∃ c, d.bound = some c ∧ c'.frames = c.frames) :
    ds.Calm (ds.setDevice dev (some d')) := by
  refine ⟨rfl, Or.inl rfl, fun dev' c' hc' => ?_⟩
  unfold Devices.binding Devices.setDevice at hc'
  dsimp only at hc'
  by_cases heq : dev' = dev
  · subst heq
    rw [Function.update_self] at hc'
    obtain ⟨c, hc, hframes⟩ := h c' hc'
    refine ⟨c, ?_, hframes⟩
    unfold Devices.binding
    rw [hd]
    exact hc
  · rw [Function.update_of_ne heq] at hc'
    exact ⟨c', hc', rfl⟩

/-- The shared domain is replaced. -/
theorem setDomain {bi : BlockIommu} (d : Domain) (hbi : ds.iommu = some bi) :
    ds.Calm (ds.setDomain bi d) := by
  refine ⟨?_, Or.inl ?_, fun _ c h => ⟨c, h, rfl⟩⟩
  · unfold Devices.translated Devices.setDomain
    rw [hbi]
    rfl
  · unfold Devices.boundDomain Devices.setDomain
    rw [hbi]
    rfl

/-- A device is unbound. -/
theorem detach (ds : Devices) (dev : DevId) : ds.Calm (ds.detach dev).1 := by
  have hbinding : ∀ dev' c', ((Function.update ds.devices dev none) dev').bind VirtioBlk.bound =
      some c' → ∃ c, ds.binding dev' = some c ∧ c'.frames = c.frames := by
    intro dev' c' hc'
    by_cases heq : dev' = dev
    · subst heq
      rw [Function.update_self] at hc'
      cases hc'
    · rw [Function.update_of_ne heq] at hc'
      exact ⟨c', hc', rfl⟩
  unfold Devices.detach
  split
  · exact refl ds
  · dsimp only
    split
    · exact ⟨rfl, Or.inl rfl, hbinding⟩
    · rename_i bi hbi
      have hbi' : ds.iommu = some bi := hbi
      split
      · exact ⟨rfl, Or.inl rfl, hbinding⟩
      · refine ⟨?_, Or.inr rfl, hbinding⟩
        unfold Devices.translated
        rw [hbi']
        rfl

end Devices.Calm

theorem Act.devices_calm {g : Guard} {v v' : Ledger} (act : Act g v v') : v.devs.Calm v'.devs := by
  cases act with
  | @parkBind q x k cap dev d c hq hk hobj hstate hd hc hg =>
    refine .setDevice hd fun c' hc' => ⟨c, hc, ?_⟩
    obtain rfl := Option.some.inj hc'
    rfl
  | post hq hd huse howner hsubmit hframe hg => exact .setDevice hd fun c hc => ⟨c, hc, rfl⟩
  | complete hd hinf hwf => exact .setDevice hd fun c hc => ⟨c, hc, rfl⟩
  | @unwait dev d c hd hc =>
    refine .setDevice hd fun c' hc' => ⟨c, hc, ?_⟩
    obtain rfl := Option.some.inj hc'
    rfl
  | dmaLink hbi halloc => exact .setDomain _ hbi
  | dmaLeaf hbi => exact .setDomain _ hbi
  | takeBound hq hk hobj hstate hnone hfirst hg => exact .detach v.devs _
  | _ => exact .refl v.devs

theorem Path.devices_calm {g : Guard} {v v' : Ledger} (path : Path g v v') :
    v.devs.Calm v'.devs := by
  induction path with
  | refl => exact .refl _
  | tail _ act ih => exact ih.trans act.devices_calm

theorem Kernel.step_calm {s t : Kernel} {ℓ : Label} (hs : Reachable Kernel.system always s)
    (hnext : s.step ℓ = some t) : s.devs.Calm t.devs := by
  obtain ⟨-, spent, hpath⟩ := (Kernel.good_of_reachable hs).step_path hnext
  exact hpath.devices_calm

/-! ### The frames that the boot code takes -/

/-- Frames are taken, and no deallocation is refused. -/
structure FrameAlloc.Grows (fa fa' : FrameAlloc) : Prop where
  marked : ∀ a, fa.marked a ≤ fa'.marked a
  refused : fa'.refused = fa.refused

theorem FrameAlloc.Grows.trans {fa fa' fa'' : FrameAlloc} (h : fa.Grows fa') (h' : fa'.Grows fa'') :
    fa.Grows fa'' :=
  ⟨fun a => (h.marked a).trans (h'.marked a), h'.refused.trans h.refused⟩

theorem FrameAlloc.Grows.alloc {fa fa' : FrameAlloc} {a : Nat} (h : fa.alloc = .ok (a, fa')) :
    fa.Grows fa' := by
  obtain ⟨-, hmarks, hrefused⟩ := FrameAlloc.alloc_marked h
  exact ⟨fun b => by rw [hmarks b]; exact Nat.le_add_right _ _, hrefused⟩

theorem Links.grows {fa fa' : FrameAlloc} {t t' : List (TableKey × Nat)} (h : Links fa t fa' t') :
    fa.Grows fa' := by
  induction h with
  | refl fa _ => exact ⟨fun _ => le_refl _, rfl⟩
  | step halloc _ ih => exact (FrameAlloc.Grows.alloc halloc).trans ih

/-- The address of an allocated frame is the address of a page. -/
theorem FrameAlloc.alloc_aligned {fa fa' : FrameAlloc} {a : Nat} (h : fa.alloc = .ok (a, fa')) :
    a / frameSize * frameSize = a := by
  obtain ⟨-, hmarks, -⟩ := FrameAlloc.alloc_marked h
  have hone := hmarks a
  rw [if_pos rfl] at hone
  unfold FrameAlloc.marked at hone
  split at hone
  · rename_i hcond
    have hdiv := Nat.div_add_mod a frameSize
    rw [hcond.1, Nat.mul_comm] at hdiv
    omega
  · omega

/-- The tables that a mapping links are taken from the pool. -/
theorem Domain.map_marked (d : Domain) (fa : FrameAlloc) (iova : Nat) :
    fa.Grows (d.map fa iova).2.2 ∧ ∀ a, (d.map fa iova).2.2.marked a + d.frames.count a =
      fa.marked a + (d.map fa iova).2.1.frames.count a := by
  have hlinks := linkTables_links (d.keys iova) fa d.tables
  have hfa : (d.map fa iova).2.2 = (linkTables (d.keys iova) fa d.tables).2.1 := by
    unfold Domain.map
    dsimp only
    split <;> rfl
  have hframes : (d.map fa iova).2.1.frames =
      (linkTables (d.keys iova) fa d.tables).2.2.map Prod.snd ++ [d.root] := by
    unfold Domain.map Domain.frames
    dsimp only
    split <;> rfl
  rw [hfa, hframes]
  refine ⟨hlinks.grows, fun a => ?_⟩
  have hmarked := hlinks.marked a
  unfold Domain.frames
  rw [List.count_append, List.count_append]
  omega

/-- A page is mapped if the pool has a frame for each missing table and the page is free. -/
theorem Domain.map_isSome (d : Domain) (fa : FrameAlloc) (iova : Nat) :
    (d.map fa iova).1 = (decide ((missingTables (d.tables.map Prod.fst) (d.keys iova)).length ≤
      fa.available) && !d.leaves.contains iova) := by
  have hlink := linkTables_missing (d.keys iova) fa d.tables
  unfold Domain.map
  dsimp only
  split at hlink
  · rename_i hfew
    rw [hlink, decide_eq_false (by omega)]
    rfl
  · rename_i henough
    rw [hlink.1, decide_eq_true (by omega)]
    cases d.leaves.contains iova <;> rfl

namespace BoundDomain

/-- A buffer takes the tables above it from the pool, and its frame is the only new one that the
domain maps. -/
theorem mapBuffer_spec (bd : BoundDomain) (fa : FrameAlloc) (phys : Nat) :
    let r := bd.mapBuffer fa phys
    fa.Grows r.2.2 ∧
      (∀ a, r.2.2.marked a + bd.domain.frames.count a =
        fa.marked a + r.2.1.domain.frames.count a) ∧
      ∀ e ∈ r.2.1.maps, e ∈ bd.maps ∨ r.1.isSome = true ∧ e.2 = phys := by
  unfold mapBuffer
  cases halloc : bd.iova.alloc with
  | none => exact ⟨⟨fun _ => le_refl _, rfl⟩, fun _ => rfl, fun e he => Or.inl he⟩
  | some r =>
    obtain ⟨iova, window⟩ := r
    obtain ⟨hgrows, hmarked⟩ := bd.domain.map_marked fa iova
    dsimp only
    by_cases hok : (bd.domain.map fa iova).1 = true
    · rw [if_pos hok]
      refine ⟨hgrows, hmarked, fun e he => ?_⟩
      rcases List.mem_cons.mp he with rfl | hold
      · exact Or.inr ⟨rfl, rfl⟩
      · exact Or.inl hold
    · rw [if_neg hok]
      exact ⟨hgrows, hmarked, fun e he => Or.inl he⟩

/-- The loop over the fixed frames: they are the only new ones that the domain maps. -/
theorem mapFrames_spec (frames : List Nat) (bd : BoundDomain) (fa : FrameAlloc) :
    let r := mapFrames frames bd fa
    fa.Grows r.2 ∧ ∀ iovas bd', r.1 = some (iovas, bd') →
      (∀ a, r.2.marked a + bd.domain.frames.count a =
        fa.marked a + bd'.domain.frames.count a) ∧
      ∀ e ∈ bd'.maps, e ∈ bd.maps ∨ ∃ f ∈ frames, e.2 = f / frameSize * frameSize := by
  induction frames generalizing bd fa with
  | nil =>
    refine ⟨⟨fun _ => le_refl _, rfl⟩, fun iovas bd' heq => ?_⟩
    simp only [mapFrames, Option.some.injEq, Prod.mk.injEq] at heq
    obtain ⟨-, rfl⟩ := heq
    exact ⟨fun _ => rfl, fun e he => Or.inl he⟩
  | cons frame frames ih =>
    obtain ⟨hgrows, hmarked, hmaps⟩ := bd.mapBuffer_spec fa (frame / frameSize * frameSize)
    unfold mapFrames
    split
    · rename_i bd₁ fa₁ heq
      rw [heq] at hgrows
      exact ⟨hgrows, fun _ _ hno => by cases hno⟩
    · rename_i iova bd₁ fa₁ heq
      rw [heq] at hgrows hmarked hmaps
      obtain ⟨hgrows', hrest⟩ := ih bd₁ fa₁
      split
      · rename_i fa₂ heq'
        rw [heq'] at hgrows'
        exact ⟨hgrows.trans hgrows', fun _ _ hno => by cases hno⟩
      · rename_i iovas bd₂ fa₂ heq'
        rw [heq'] at hgrows' hrest
        obtain ⟨hmarked', hmaps'⟩ := hrest iovas bd₂ rfl
        refine ⟨hgrows.trans hgrows', fun iovas' bd' hres => ?_⟩
        simp only [Option.some.injEq, Prod.mk.injEq] at hres
        obtain ⟨-, rfl⟩ := hres
        refine ⟨fun a => ?_, fun e he => ?_⟩
        · have h1 := hmarked a
          have h2 := hmarked' a
          dsimp only at h1 h2 ⊢
          omega
        · rcases hmaps' e he with hold | ⟨f, hf, hphys⟩
          · rcases hmaps e hold with hold | ⟨-, hphys⟩
            · exact Or.inl hold
            · exact Or.inr ⟨frame, List.mem_cons_self, hphys⟩
          · exact Or.inr ⟨f, List.mem_cons_of_mem _ hf, hphys⟩

end BoundDomain

/-! ### The boot code -/

/-- The domain of the bound device is replaced. -/
theorem allFrames_setBoundDomain {ds : Devices} {bi : BlockIommu} (hbi : ds.iommu = some bi)
    (d : Domain) (a : Nat) :
    (ds.setBoundDomain (some d)).allFrames.count a +
      (ds.boundDomain.elim [] Domain.frames).count a =
      ds.allFrames.count a + d.frames.count a := by
  rw [allFrames_count, allFrames_count]
  unfold Devices.setBoundDomain Devices.boundDomain
  rw [hbi]
  simp only [Option.map_some, Option.bind_some, iommuFrames, Option.getD_some, List.count_append]
  cases bi.bound with
  | none => simp only [Option.elim_none, Option.map_none, Option.getD_none, List.count_nil]; omega
  | some d' => simp only [Option.elim_some, Option.map_some, Option.getD_some]; omega

namespace Board

variable {b b' b'' : Board} {l l' : List Nat}

/-- The boot code takes frames from the pool. Those of `l` are new, and have no owner yet. -/
structure Grows (b b' : Board) (l : List Nat) : Prop where
  shape : b'.kernel = { b.kernel with
    mem := { b.kernel.mem with fa := b'.fa }, devs := b'.kernel.devs }
  devices : b'.kernel.devs.devices = b.kernel.devs.devices
  translated : b'.kernel.devs.translated = b.kernel.devs.translated
  booting : b'.booting = b.booting
  refused : b'.fa.refused = b.fa.refused
  frames : ∀ a, b'.kernel.devs.allFrames.count a + b.fa.marked a + l.count a ≤
    b.kernel.devs.allFrames.count a + b'.fa.marked a
  domain : b.bound.map BoundDomain.domain = b.kernel.devs.boundDomain →
    b'.bound.map BoundDomain.domain = b'.kernel.devs.boundDomain

namespace Grows

theorem refl (b : Board) : b.Grows b [] :=
  ⟨rfl, rfl, rfl, rfl, rfl, fun _ => le_refl _, id⟩

theorem trans (h : b.Grows b' l) (h' : b'.Grows b'' l') : b.Grows b'' (l ++ l') := by
  refine ⟨?_, h'.devices.trans h.devices, h'.translated.trans h.translated,
    h'.booting.trans h.booting, h'.refused.trans h.refused, fun a => ?_, h'.domain ∘ h.domain⟩
  · rw [h'.shape, h.shape]
  · have h1 := h.frames a
    have h2 := h'.frames a
    rw [List.count_append]
    omega

theorem binding (h : b.Grows b' l) (dev : DevId) :
    b'.kernel.devs.binding dev = b.kernel.devs.binding dev := by
  unfold Devices.binding
  rw [h.devices]

/-- Only the allocator changes. -/
theorem setFa {fa : FrameAlloc} (hrefused : fa.refused = b.fa.refused)
    (hmarked : ∀ a, b.fa.marked a + l.count a ≤ fa.marked a) : b.Grows (b.setFa fa) l := by
  refine ⟨rfl, rfl, rfl, rfl, hrefused, fun a => ?_, id⟩
  have ha := hmarked a
  show b.kernel.devs.allFrames.count a + b.fa.marked a + l.count a ≤
    b.kernel.devs.allFrames.count a + fa.marked a
  omega

/-- The domain of the bound device changes. -/
theorem setBound {bi : BlockIommu} (bd : BoundDomain) (hbi : b.kernel.devs.iommu = some bi)
    {fa : FrameAlloc} (hrefused : fa.refused = b.fa.refused)
    (hmarked : ∀ a, b.fa.marked a + bd.domain.frames.count a ≤
      fa.marked a + (b.kernel.devs.boundDomain.elim [] Domain.frames).count a) :
    b.Grows ((b.setFa fa).setBound bd) [] := by
  refine ⟨rfl, rfl, ?_, rfl, hrefused, fun a => ?_, fun _ => ?_⟩
  · show (b.kernel.devs.setBoundDomain (some bd.domain)).translated = _
    unfold Devices.translated Devices.setBoundDomain
    rw [hbi]
    rfl
  · have ha := hmarked a
    have hcount := allFrames_setBoundDomain hbi bd.domain a
    show (b.kernel.devs.setBoundDomain (some bd.domain)).allFrames.count a + b.fa.marked a +
      [].count a ≤ b.kernel.devs.allFrames.count a + fa.marked a
    rw [List.count_nil]
    omega
  · show some bd.domain = (b.kernel.devs.setBoundDomain (some bd.domain)).boundDomain
    unfold Devices.boundDomain Devices.setBoundDomain
    rw [hbi]
    rfl

theorem booted (h : b.Grows b' l) (hb : Kernel.Booted b.kernel) : Kernel.Booted b'.kernel := by
  have howned : ∀ a, b'.kernel.devs.allFrames.count a ≤ b'.fa.marked a := by
    intro a
    have ha := h.frames a
    have hold : b.kernel.devs.allFrames.count a ≤ b.fa.marked a := hb.owned a
    omega
  have hrefused : b'.fa.refused = [] := h.refused.trans hb.refused
  have hquiet : ∀ dev d, b'.kernel.devs.devices dev = some d → Devices.quiet d := by
    rw [h.devices]
    exact hb.quiet
  rw [h.shape]
  exact ⟨hb.table, hb.idle, hb.endpoints, hb.asserts, hb.wakes, hb.rings, hb.subs, hquiet, howned,
    hrefused⟩

/-- A new frame is allocated. -/
theorem marked_pos (h : b.Grows b' l) (hb : Kernel.Booted b.kernel) {a : Nat} (ha : a ∈ l) :
    0 < b'.fa.marked a := by
  have hframes := h.frames a
  have hpos := List.count_pos_iff.mpr ha
  have hold : b.kernel.devs.allFrames.count a ≤ b.fa.marked a := hb.owned a
  have hnew : b'.kernel.devs.allFrames.count a + b.fa.marked a + l.count a ≤
    b.kernel.devs.allFrames.count a + b'.fa.marked a := hframes
  omega

end Grows

theorem allocZeroed_spec (n : Nat) (fa : FrameAlloc) :
    (allocZeroed n fa).2.refused = fa.refused ∧
      (∀ a, (allocZeroed n fa).2.marked a = fa.marked a + (allocZeroed n fa).1.count a) ∧
      ∀ a ∈ (allocZeroed n fa).1, a / frameSize * frameSize = a := by
  induction n generalizing fa with
  | zero => exact ⟨rfl, fun _ => rfl, fun _ h => nomatch h⟩
  | succ n ih =>
    unfold allocZeroed
    split
    · exact ⟨rfl, fun _ => rfl, fun _ h => nomatch h⟩
    · rename_i a fa' halloc
      obtain ⟨-, hmarks, hrefused⟩ := FrameAlloc.alloc_marked halloc
      obtain ⟨hrefused', hmarked, haligned⟩ := ih fa'
      refine ⟨hrefused'.trans hrefused, fun c => ?_, fun c hc => ?_⟩
      · dsimp only
        rw [hmarked c, hmarks c, count_cons_if]
        omega
      · rcases List.mem_cons.mp hc with rfl | hmem
        · exact FrameAlloc.alloc_aligned halloc
        · exact haligned c hmem

/-- A domain is built only if there is none. It maps the fixed frames. -/
theorem bindPrepare_spec (b : Board) (fixed : List Nat) :
    let r := b.bindPrepare fixed
    b.Grows r.2 [] ∧
      (r.1 = none → r.2.bound = b.bound ∧ r.2.kernel.devs = b.kernel.devs) ∧
      (r.1.isSome = true → b.kernel.devs.boundDomain = none ∧ ∀ bd, r.2.bound = some bd →
        ∀ e ∈ bd.maps, ∃ f ∈ fixed, e.2 = f / frameSize * frameSize) := by
  unfold bindPrepare
  split
  · exact ⟨.refl b, fun _ => ⟨rfl, rfl⟩, fun h => nomatch h⟩
  · rename_i bi hbi
    split
    · exact ⟨.refl b, fun _ => ⟨rfl, rfl⟩, fun h => nomatch h⟩
    · rename_i hnone
      have hdomain : b.kernel.devs.boundDomain = none := by
        unfold Devices.boundDomain
        rw [hbi, Option.bind_some]
        simpa using hnone
      split
      · exact ⟨.refl b, fun _ => ⟨rfl, rfl⟩, fun h => nomatch h⟩
      · rename_i root fa halloc
        have hroot := FrameAlloc.Grows.alloc halloc
        obtain ⟨-, hmarks, -⟩ := FrameAlloc.alloc_marked halloc
        obtain ⟨hgrows, hspec⟩ :=
          BoundDomain.mapFrames_spec fixed ⟨⟨root, bi.domain.levels, [], []⟩,
          .new boundIovaBase boundIovaPages, []⟩ fa
        split
        · rename_i fa' heq
          rw [heq] at hgrows
          have hall := hroot.trans hgrows
          exact ⟨.setFa hall.refused fun a => hall.marked a, fun _ => ⟨rfl, rfl⟩,
            fun h => nomatch h⟩
        · rename_i iovas bd fa' heq
          rw [heq] at hgrows hspec
          obtain ⟨hmarked, hmaps⟩ := hspec iovas bd rfl
          refine ⟨.setBound bd hbi (hroot.trans hgrows).refused fun a => ?_, (fun h => nomatch h),
            fun _ => ⟨hdomain, fun bd' heq' e he => ?_⟩⟩
          · have h1 := hmarked a
            have h2 := hmarks a
            have h3 : (Domain.frames ⟨root, bi.domain.levels, [], []⟩).count a =
                if a = root then 1 else 0 := by
              unfold Domain.frames
              rw [List.map_nil, List.nil_append, count_cons_if, List.count_nil, Nat.zero_add]
            dsimp only at h1
            omega
          · obtain rfl : bd = bd' := Option.some.inj heq'
            exact (hmaps e he).resolve_left (fun h => nomatch h)

/-- A data frame is mapped in the domain of the bound device. -/
theorem bindMapDma_spec (hb : b.bound.map BoundDomain.domain = b.kernel.devs.boundDomain)
    (phys : Nat) :
    let r := b.bindMapDma phys
    b.Grows r.2 [] ∧
      (r.2.kernel.devs.boundDomain = none → b.kernel.devs.boundDomain = none) ∧
      ∀ bd', r.2.bound = some bd' → ∃ bd, b.bound = some bd ∧
        ∀ e ∈ bd'.maps, e ∈ bd.maps ∨ r.1.isSome = true ∧ e.2 = phys / frameSize * frameSize := by
  unfold bindMapDma
  split
  · rename_i hnone
    exact ⟨.refl b, id, fun bd' hbd => by rw [hnone] at hbd; cases hbd⟩
  · rename_i bd hbd
    rw [hbd, Option.map_some] at hb
    obtain ⟨bi, hbi, -⟩ := Option.bind_eq_some_iff.mp hb.symm
    obtain ⟨hgrows, hmarked, hmaps⟩ := bd.mapBuffer_spec b.fa (phys / frameSize * frameSize)
    have hset : b.Grows ((b.setFa (bd.mapBuffer b.fa (phys / frameSize * frameSize)).2.2).setBound
        (bd.mapBuffer b.fa (phys / frameSize * frameSize)).2.1) [] := by
      refine .setBound _ hbi hgrows.refused fun a => ?_
      rw [← hb, Option.elim_some]
      have ha := hmarked a
      omega
    refine ⟨hset, fun hno => ?_, fun bd' hbd' => ⟨bd, hbd, ?_⟩⟩
    · have hcoherent := hset.domain (by rw [hbd]; exact hb)
      rw [hno] at hcoherent
      cases hcoherent
    · obtain rfl := Option.some.inj hbd'
      exact hmaps

/-! ### The invariant -/

/-- The domain of the bound device maps frames of the binding only. While the board boots, no
process runs, and a binding has a domain. Afterwards translation is on if a device is bound. -/
structure Inv (b : Board) : Prop where
  reachable : Reachable Kernel.system always b.kernel
  domain : b.bound.map BoundDomain.domain = b.kernel.devs.boundDomain
  maps : ∀ dev c bd, b.kernel.devs.binding dev = some c → b.bound = some bd →
    ∀ e ∈ bd.maps, e.2 ∈ c.frames
  booted : b.booting = true → Kernel.Booted b.kernel ∧
    (b.kernel.devs.boundDomain = none → ∀ dev, b.kernel.devs.binding dev = none)
  running : b.booting = false → b.kernel.devs.translated = true ∨
    ∀ dev, b.kernel.devs.binding dev = none

theorem Inv.of_booted (hb : Kernel.Booted b.kernel) (hbooting : b.booting = true)
    (hdomain : b.bound.map BoundDomain.domain = b.kernel.devs.boundDomain)
    (hmaps : ∀ dev c bd, b.kernel.devs.binding dev = some c → b.bound = some bd →
      ∀ e ∈ bd.maps, e.2 ∈ c.frames)
    (hnone : b.kernel.devs.boundDomain = none → ∀ dev, b.kernel.devs.binding dev = none) :
    b.Inv :=
  ⟨⟨[], .start hb⟩, hdomain, hmaps, fun _ => ⟨hb, hnone⟩, fun h => by rw [hbooting] at h; cases h⟩

/-- The boot code takes frames and maps nothing that the binding does not own. -/
theorem Inv.grow (h : b.Inv) (hbooting : b.booting = true) (hg : b.Grows b' l)
    (hmaps : ∀ dev c bd, b.kernel.devs.binding dev = some c → b'.bound = some bd →
      ∀ e ∈ bd.maps, e.2 ∈ c.frames)
    (hnone : b'.kernel.devs.boundDomain = none → b.kernel.devs.boundDomain = none) : b'.Inv := by
  obtain ⟨hb, hunbound⟩ := h.booted hbooting
  refine .of_booted (hg.booted hb) (hg.booting.trans hbooting) (hg.domain h.domain)
    (fun dev c bd hc hbd => ?_) fun hno dev => ?_
  · rw [hg.binding] at hc
    exact hmaps dev c bd hc hbd
  · rw [hg.binding]
    exact hunbound (hnone hno) dev

/-- The boot code takes frames, and no device is bound. -/
theorem Inv.grow_unbound (h : b.Inv) (hbooting : b.booting = true) (hg : b.Grows b' l)
    (hno : ∀ dev, b.kernel.devs.binding dev = none) : b'.Inv := by
  refine .of_booted (hg.booted (h.booted hbooting).1) (hg.booting.trans hbooting)
    (hg.domain h.domain) (fun dev c bd hc _ => ?_) fun _ dev => ?_
  · rw [hg.binding, hno] at hc
    cases hc
  · rw [hg.binding, hno]

/-- A device is bound, with new frames. -/
theorem Inv.bind (h : b.Inv) (hbooting : b.booting = true) (hg : b.Grows b' l) {dev : DevId}
    {d : VirtioBlk} {c : Bound} (hd : b.kernel.devs.devices dev = none) (hc : d.bound = some c)
    (hquiet : Devices.quiet d) (hno : ∀ dev, b.kernel.devs.binding dev = none)
    (hframes : ∀ a, c.frames.count a ≤ l.count a) (hdomain : b'.bound.isSome = true)
    (hmaps : ∀ bd, b'.bound = some bd → ∀ e ∈ bd.maps, e.2 ∈ c.frames) :
    (b'.setDevice dev d).Inv := by
  have hb := (h.booted hbooting).1
  have hb' := hg.booted hb
  have hd' : b'.kernel.devs.devices dev = none := by
    rw [hg.devices]
    exact hd
  have hbinding : ∀ dev' c', (b'.kernel.devs.setDevice dev (some d)).binding dev' = some c' →
      c' = c := by
    intro dev' c' hc'
    unfold Devices.binding Devices.setDevice at hc'
    dsimp only at hc'
    by_cases heq : dev' = dev
    · subst heq
      rw [Function.update_self, Option.bind_some, hc] at hc'
      exact (Option.some.inj hc').symm
    · rw [Function.update_of_ne heq] at hc'
      have hold := (hg.binding dev').trans (hno dev')
      unfold Devices.binding at hold
      rw [hold] at hc'
      cases hc'
  have howned : ∀ a, (b'.kernel.devs.setDevice dev (some d)).allFrames.count a ≤
      b'.fa.marked a := by
    intro a
    have hnew := hg.frames a
    have hold : b.kernel.devs.allFrames.count a ≤ b.fa.marked a := hb.owned a
    have hcount : (b'.kernel.devs.setDevice dev (some d)).allFrames.count a =
        b'.kernel.devs.allFrames.count a + c.frames.count a := by
      rw [allFrames_count, allFrames_count]
      unfold Devices.setDevice
      dsimp only
      rw [Tally.tally_insert _ d hd']
      have hframes : d.frames = c.frames := by
        unfold VirtioBlk.frames
        rw [hc]
      rw [hframes]
      omega
    have hle := hframes a
    omega
  refine .of_booted ⟨hb'.table, hb'.idle, hb'.endpoints, hb'.asserts, hb'.wakes, hb'.rings,
    hb'.subs, fun dev' d' hdev' => ?_, howned, hb'.refused⟩ (hg.booting.trans hbooting)
    (hg.domain h.domain) (fun dev' c' bd hc' hbd => ?_) fun hnone dev' => ?_
  · change Function.update b'.kernel.devs.devices dev (some d) dev' = some d' at hdev'
    by_cases heq : dev' = dev
    · subst heq
      rw [Function.update_self, Option.some.injEq] at hdev'
      subst hdev'
      exact hquiet
    · rw [Function.update_of_ne heq] at hdev'
      exact hb'.quiet dev' d' hdev'
  · rw [hbinding dev' c' hc']
    exact hmaps bd hbd
  · obtain ⟨bd, hbd⟩ := Option.isSome_iff_exists.mp hdomain
    have hcoherent := hg.domain h.domain
    change b'.kernel.devs.boundDomain = none at hnone
    rw [hbd, hnone] at hcoherent
    cases hcoherent

theorem Inflights.quiet_new (n : Nat) :
    Inflights.new n = Inflights.new (Inflights.new n).slots := by
  unfold Inflights.new
  simp

/-- To bring a device up keeps the invariant. -/
theorem Inv.init (h : b.Inv) (hbooting : b.booting = true) {dev : DevId}
    (hd : b.kernel.devs.devices dev = none) (regs : DeviceRegs) : (b.init dev regs).Inv := by
  obtain ⟨hrefused, hmarked, haligned⟩ := allocZeroed_spec 4 b.fa
  have hfour : b.Grows (b.setFa (allocZeroed 4 b.fa).2) (allocZeroed 4 b.fa).1 :=
    .setFa hrefused fun a => (hmarked a).ge
  unfold Board.init
  split
  · rename_i desc avail used buf fa heq
    rw [heq] at hfour haligned
    split
    · obtain ⟨hprep, hfail, hok⟩ := bindPrepare_spec (b.setFa fa) [desc, avail, used, buf]
      split
      · rename_i iova₀ iova₁ iova₂ bufIova b₁ hres
        rw [hres] at hprep hok
        obtain ⟨hnone, hmaps⟩ := hok rfl
        -- There was no domain, so no device is bound yet.
        have hno := (h.booted hbooting).2 hnone
        have hg₁ := hfour.trans hprep
        split
        · exact h.grow_unbound hbooting hg₁ hno
        · split
          · exact h.grow_unbound hbooting hg₁ hno
          · rename_i data fa' halloc
            obtain ⟨-, hmarks, hrefused'⟩ := FrameAlloc.alloc_marked halloc
            have hdata : b₁.Grows (b₁.setFa fa') [data] := by
              refine .setFa hrefused' fun a => ?_
              rw [hmarks a, count_cons_if, List.count_nil, Nat.zero_add]
            have hg₂ := hg₁.trans hdata
            have hcoherent : (b₁.setFa fa').bound.map BoundDomain.domain =
                (b₁.setFa fa').kernel.devs.boundDomain := hg₂.domain h.domain
            obtain ⟨hmap, -, hnew⟩ := bindMapDma_spec hcoherent data
            split
            · rename_i b₂ hres'
              rw [hres'] at hmap
              exact h.grow_unbound hbooting (hg₂.trans hmap) hno
            · rename_i dataIova b₂ hres'
              rw [hres'] at hmap hnew
              have hg₃ := hg₂.trans hmap
              have hsome : b₂.bound.isSome = true := by
                have hbound : b₂.bound = ((b₁.setFa fa').bindMapDma data).2.bound := by rw [hres']
                have hfirst : ((b₁.setFa fa').bindMapDma data).1 = some dataIova := by rw [hres']
                rw [hbound]
                unfold bindMapDma at hfirst ⊢
                split at hfirst
                · cases hfirst
                · rfl
              refine h.bind hbooting hg₃ hd rfl ⟨Inflights.quiet_new _, rfl⟩ hno (fun a => ?_)
                hsome fun bd hbd e he => ?_
              · simp [Bound.frames, List.count_cons]
              · obtain ⟨bd₁, hbd₁, hfrom⟩ := hnew bd hbd
                rcases hfrom e he with hold | ⟨-, hphys⟩
                · obtain ⟨f, hf, hphys⟩ := hmaps bd₁ hbd₁ e hold
                  rw [hphys, haligned f hf]
                  simp only [List.mem_cons, List.not_mem_nil, or_false] at hf
                  simp only [Bound.frames, List.mem_cons, List.not_mem_nil, or_false]
                  tauto
                · rw [hphys, FrameAlloc.alloc_aligned halloc]
                  simp [Bound.frames]
      · rename_i res b₁ hnot hres
        cases hlist : res with
        | none =>
          rw [hres, hlist] at hprep hfail
          obtain ⟨hbound, hdevs⟩ := hfail rfl
          refine h.grow hbooting (hfour.trans hprep) (fun dev c bd hc hbd => ?_) fun hno => ?_
          · rw [hbound] at hbd
            exact h.maps dev c bd hc hbd
          · rwa [hdevs] at hno
        | some iovas =>
          rw [hres, hlist] at hprep hok
          exact h.grow_unbound hbooting (hfour.trans hprep) ((h.booted hbooting).2 (hok rfl).1)
    · exact h.grow hbooting hfour h.maps id
  · rename_i l fa hnot heq
    rw [heq] at hfour
    exact h.grow hbooting hfour h.maps id

/-- To turn translation on keeps the invariant. -/
theorem Inv.blockEnable (h : b.Inv) (hbooting : b.booting = true) (acknowledged : Bool) :
    (b.blockEnable acknowledged).Inv := by
  obtain ⟨hb, hunbound⟩ := h.booted hbooting
  unfold Board.blockEnable
  split
  · have hdomain : ∀ ds : Devices, ({ ds with iommu := ds.iommu.map fun bi =>
        { bi with enabled := true } } : Devices).boundDomain = ds.boundDomain := by
      intro ds
      unfold Devices.boundDomain
      cases ds.iommu <;> rfl
    have hframes : ∀ ds : Devices, ({ ds with iommu := ds.iommu.map fun bi =>
        { bi with enabled := true } } : Devices).allFrames = ds.allFrames := by
      intro ds
      unfold Devices.allFrames
      cases ds.iommu <;> rfl
    refine .of_booted ⟨hb.table, hb.idle, hb.endpoints, hb.asserts, hb.wakes, hb.rings, hb.subs,
      hb.quiet, fun a => ?_, hb.refused⟩ hbooting ?_ h.maps fun hno => ?_
    · rw [hframes]
      exact hb.owned a
    · rw [hdomain]
      exact h.domain
    · rw [hdomain] at hno
      exact hunbound hno
  · exact h

/-! ### The self-test -/

/-- The self-test maps its frame: there is a domain with an IOVA to spare, and the pool has a frame
for the self-test and one for each missing table. -/
def selftestMaps (b : Board) : Bool :=
  match b.bound with
  | none => false
  | some bd =>
    match bd.iova.alloc with
    | none => false
    | some (iova, _) =>
      decide ((missingTables (bd.domain.tables.map Prod.fst) (bd.domain.keys iova)).length <
        b.fa.available) && !bd.domain.leaves.contains iova

theorem bindMapDma_selftest {phys : Nat} {fa : FrameAlloc}
    (halloc : b.fa.alloc = .ok (phys, fa)) :
    ((b.setFa fa).bindMapDma phys).1.isSome = b.selftestMaps := by
  have hone := FrameAlloc.alloc_available halloc
  have hbound : (b.setFa fa).bound = b.bound := rfl
  unfold bindMapDma selftestMaps
  rw [hbound]
  cases b.bound with
  | none => rfl
  | some bd =>
    dsimp only
    unfold BoundDomain.mapBuffer
    cases bd.iova.alloc with
    | none => rfl
    | some r =>
      obtain ⟨iova, window⟩ := r
      have hmap := bd.domain.map_isSome fa iova
      have hlt : ((missingTables (bd.domain.tables.map Prod.fst) (bd.domain.keys iova)).length ≤
          fa.available) ↔ (missingTables (bd.domain.tables.map Prod.fst)
          (bd.domain.keys iova)).length < b.fa.available := by omega
      rw [decide_eq_decide.mpr hlt] at hmap
      have hfa : (b.setFa fa).fa = fa := rfl
      dsimp only
      rw [hfa, ← hmap]
      cases (bd.domain.map fa iova).1 <;> rfl

/-- A self-test that maps nothing keeps the invariant. -/
theorem Inv.bindSelftestRead (h : b.Inv) (hbooting : b.booting = true) (dev : DevId)
    (elems : List (Nat × UInt8)) (hno : b.selftestMaps = false) :
    (b.bindSelftestRead dev elems).Inv := by
  have hb := (h.booted hbooting).1
  unfold Board.bindSelftestRead
  split
  · exact h
  · rename_i phys fa halloc
    obtain ⟨-, hmarks, hrefused⟩ := FrameAlloc.alloc_marked halloc
    have htaken : b.Grows (b.setFa fa) [phys] := by
      refine .setFa hrefused fun a => ?_
      rw [hmarks a, count_cons_if, List.count_nil, Nat.zero_add]
    have hfails := bindMapDma_selftest halloc
    rw [hno] at hfails
    obtain ⟨hmap, hdomain, hnew⟩ := bindMapDma_spec (htaken.domain h.domain) phys
    split
    · rename_i b₁ hres
      rw [hres] at hmap hdomain hnew
      have hg := htaken.trans hmap
      have hpos := hg.marked_pos hb (List.mem_append_left _ List.mem_cons_self)
      obtain ⟨hrefused', hback⟩ := FrameAlloc.giveBack_marked hpos
      -- The scratch frame goes back, and the tables stay.
      have hend : b.Grows (b₁.setFa (b₁.fa.giveBack phys)) [] := by
        refine ⟨?_, hg.devices, hg.translated, hg.booting, hrefused'.trans hg.refused, fun a => ?_,
          hg.domain⟩
        · show b₁.kernel.setFa _ = _
          unfold Kernel.setFa
          rw [hg.shape]
          rfl
        · have hframes := hg.frames a
          have hgiven := hback a
          dsimp only at hframes hgiven
          rw [List.append_nil, count_cons_if, List.count_nil, Nat.zero_add] at hframes
          show b₁.kernel.devs.allFrames.count a + b.fa.marked a + [].count a ≤
            b.kernel.devs.allFrames.count a + (b₁.fa.giveBack phys).marked a
          rw [List.count_nil]
          omega
      refine h.grow hbooting hend (fun dev c bd hc hbd e he => ?_) hdomain
      obtain ⟨bd₀, hbd₀, hfrom⟩ := hnew bd hbd
      rcases hfrom e he with hold | ⟨hsome, -⟩
      · exact h.maps dev c bd₀ hc hbd₀ e hold
      · cases hsome
    · rename_i dataIova b₁ hres
      rw [hres] at hfails
      cases hfails

/-- An entry of the kernel keeps the invariant, if translation is on or no device is bound. -/
theorem Inv.entry (h : b.Inv) {t : Kernel} {ℓ : Label} (hnext : b.kernel.step ℓ = some t)
    (hprotected : b.kernel.devs.translated = true ∨ ∀ dev, b.kernel.devs.binding dev = none) :
    (b.afterEntry t).Inv := by
  have hcalm := Kernel.step_calm h.reachable hnext
  refine ⟨h.reachable.next trivial hnext, ?_, fun dev c' bd hc' hbd => ?_, (fun hno => nomatch hno),
    fun _ => ?_⟩
  · show (if t.devs.boundDomain.isSome = true then b.bound else none).map BoundDomain.domain =
      t.devs.boundDomain
    rcases hcalm.domain with hsame | hnone
    · rw [hsame, ← h.domain]
      cases b.bound <;> rfl
    · rw [hnone]
      rfl
  · obtain ⟨c, hc, hframes⟩ := hcalm.binding dev c' hc'
    change (if t.devs.boundDomain.isSome = true then b.bound else none) = some bd at hbd
    split at hbd
    · rw [hframes]
      exact h.maps dev c bd hc hbd
    · cases hbd
  · rcases hprotected with hon | hno
    · exact Or.inl (hcalm.translated.trans hon)
    · refine Or.inr fun dev => ?_
      cases hc' : t.devs.binding dev with
      | none => exact hc'
      | some c' =>
        obtain ⟨c, hc, -⟩ := hcalm.binding dev c' hc'
        rw [hno dev] at hc
        cases hc

/-! ### Confinement -/

/-- A device is bound, and DMA goes through the domains or no device is bound. -/
def protects (b : Board) : Bool :=
  b.kernel.devs.translated ||
    (List.finRange maxDevices).all fun dev => (b.kernel.devs.binding dev).isNone

/-- The guard of the runs in which the self-test maps nothing, and in which the kernel proper runs
with a bound device only if translation is on. -/
def confines (b : Board) : Event → Prop
  | .bindSelftest _ _ => b.selftestMaps = false
  | .entry _ => b.protects = true
  | _ => True

theorem inv_of_reachable (hb : Reachable Board.system confines b) : b.Inv := by
  refine hb.invariant (fun b hstart => ?_) fun b event b' _ h hok hnext => ?_
  · obtain ⟨hnone, hdomain⟩ := hstart.noDomain
    refine .of_booted hstart.booted hstart.booting ?_ (fun dev c bd hc => ?_)
      fun _ => hstart.noBinding
    · rw [hnone, hdomain]
      rfl
    · rw [hstart.noBinding dev] at hc
      cases hc
  · cases event with
    | init dev regs =>
      change (if (b.booting && !b.kernel.devs.ready dev && !b.kernel.devs.translated) = true then
        some (b.init dev regs) else none) = some b' at hnext
      split at hnext
      · rename_i hcond
        obtain rfl := Option.some.inj hnext
        rw [Bool.and_eq_true, Bool.and_eq_true] at hcond
        refine h.init hcond.1.1 ?_ regs
        have habsent := hcond.1.2
        unfold Devices.ready at habsent
        simpa using habsent
      · cases hnext
    | blockEnable acknowledged =>
      change (if b.booting = true then some (b.blockEnable acknowledged) else none) = some b'
        at hnext
      split at hnext
      · rename_i hbooting
        obtain rfl := Option.some.inj hnext
        exact h.blockEnable hbooting acknowledged
      · cases hnext
    | bindSelftest dev elems =>
      change (if (b.booting && b.kernel.devs.ready dev) = true then
        some (b.bindSelftestRead dev elems) else none) = some b' at hnext
      split at hnext
      · rename_i hcond
        obtain rfl := Option.some.inj hnext
        rw [Bool.and_eq_true] at hcond
        exact h.bindSelftestRead hcond.1 dev elems hok
      · cases hnext
    | entry ℓ =>
      obtain ⟨t, hstep, rfl⟩ := Option.map_eq_some_iff.mp hnext
      refine h.entry hstep ?_
      have hprotects : b.protects = true := hok
      unfold protects at hprotects
      rw [Bool.or_eq_true, List.all_eq_true] at hprotects
      exact hprotects.imp_right fun hall dev =>
        Option.isNone_iff_eq_none.mp (hall dev (List.mem_finRange dev))

end Board

/-- The frame at `a` is an allocated frame of device `dev`, and nothing else owns it. -/
structure Kernel.DeviceFrame (s : Kernel) (dev : DevId) (a : Nat) : Prop where
  marked : s.mem.fa.marked a = 1
  noCap : s.frameCaps a = 0
  noTable : ∀ p proc, s.procs.proc p = some proc → a ∉ s.mem.spaceFrames proc.l4
  noBoot : ∀ p, a ∉ ((s.procs.table p).bootFrames).map Prod.snd
  noDevice : ∀ dev' d, dev' ≠ dev → s.devs.devices dev' = some d → a ∉ d.frames
  noDomain : a ∉ iommuFrames s.devs.iommu

theorem Kernel.deviceFrame_of_binding {s : Kernel} (hs : Reachable Kernel.system always s)
    {dev : DevId} {c : Bound} (hc : s.devs.binding dev = some c) {a : Nat} (ha : a ∈ c.frames) :
    s.DeviceFrame dev a := by
  have hle := Kernel.owners_le (Kernel.owned_of_reachable hs) a
  have hone := FrameAlloc.marked_le_one s.mem.fa a
  obtain ⟨d, hd, hbound⟩ := Option.bind_eq_some_iff.mp hc
  have hframes : d.frames = c.frames := by
    unfold VirtioBlk.frames
    rw [hbound]
  have hpos : 0 < d.frames.count a := by
    rw [hframes]
    exact List.count_pos_iff.mpr ha
  have hcount := allFrames_count s.devs a
  have hentry := Tally.le_tally (fun d : VirtioBlk => d.frames.count a) hd
  refine ⟨by omega, by omega, fun p proc hp hmem => ?_, fun p hmem => ?_,
    fun dev' d' hne hd' hmem => ?_, fun hmem => ?_⟩
  · have htable : (s.mem.spaceFrames proc.l4).count a ≤ liveSpaceCount s.mem s.procs.proc a :=
      Tally.le_tally (fun proc => (s.mem.spaceFrames proc.l4).count a) hp
    have hin := List.count_pos_iff.mpr hmem
    omega
  · have hboot : ((s.ledger.boot p).map Prod.snd).count a ≤ bootCount s.ledger.boot a :=
      Finset.single_le_sum (f := fun p => ((s.ledger.boot p).map Prod.snd).count a)
        (fun _ _ => Nat.zero_le _) (Finset.mem_univ p)
    have hin : 0 < ((s.ledger.boot p).map Prod.snd).count a := List.count_pos_iff.mpr hmem
    omega
  · have htwo := Tally.add_le_tally (fun d : VirtioBlk => d.frames.count a) hne hd' hd
    have hin := List.count_pos_iff.mpr hmem
    omega
  · have hin := List.count_pos_iff.mpr hmem
    omega

namespace Board

variable {b : Board}

/-- A bound device reaches the frames of its binding only. -/
structure Confined (b : Board) : Prop where
  /-- The domain maps frames of the binding, and these are allocated. -/
  maps : ∀ dev c bd, b.kernel.devs.binding dev = some c → b.bound = some bd →
    ∀ e ∈ bd.maps, e.2 ∈ c.frames ∧ b.fa.marked e.2 = 1
  /-- Once a library OS can run, an access of the device reaches a frame of the binding that
  nothing else owns, whatever its address is. -/
  access : b.booting = false → ∀ dev c addr phys, b.kernel.devs.binding dev = some c →
    b.dma dev addr = some phys → ∃ f ∈ c.frames, f ≤ phys ∧ phys < f + frameSize ∧
      b.kernel.DeviceFrame dev f
  /-- In each state of an unbind, an access reaches a frame of the binding that is allocated. -/
  unbind : ∀ dev c n addr phys, b.kernel.devs.binding dev = some c →
    (b.unbinding c n).dma addr = some phys → ∃ f ∈ c.frames, f ≤ phys ∧ phys < f + frameSize ∧
      (b.unbinding c n).fa.marked f = 1
  /-- The last state of an unbind is the one that the kernel goes on with. -/
  ends : ∀ dev c, b.kernel.devs.binding dev = some c →
    (b.unbinding c (unbindSteps c b.kernel.devs.boundDomain).length).fa =
      (b.kernel.devs.unbind b.fa dev).2

theorem translate_mem {bd : BoundDomain} {addr phys : Nat} (h : bd.translate addr = some phys) :
    ∃ e ∈ bd.maps, e.2 ≤ phys ∧ phys < e.2 + frameSize := by
  obtain ⟨f, hf, rfl⟩ := Option.map_eq_some_iff.mp h
  obtain ⟨before, after, heq, -⟩ := List.lookup_eq_some_iff.mp hf
  refine ⟨(addr / frameSize, f), by simp [heq], Nat.le_add_right _ _, ?_⟩
  have hlt := Nat.mod_lt addr (show 0 < frameSize by decide)
  show f + addr % frameSize < f + frameSize
  omega

/-- A device that was reset makes no access until the unbind ends. -/
theorem apply_live (steps : List UnbindStep) {u : Unbinding} (h : u.live = false) :
    (steps.foldl Unbinding.apply u).live = false := by
  induction steps generalizing u with
  | nil => exact h
  | cons step steps ih =>
    refine ih ?_
    cases step with
    | reset => rfl
    | free a => exact h
    | detach => exact h

theorem unbinding_ends {dev : DevId} {c : Bound} (hc : b.kernel.devs.binding dev = some c) :
    (b.unbinding c (unbindSteps c b.kernel.devs.boundDomain).length).fa =
      (b.kernel.devs.unbind b.fa dev).2 := by
  obtain ⟨d, hd, hbound⟩ := Option.bind_eq_some_iff.mp hc
  have hfree : ∀ (l : List Nat) (u : Unbinding),
      (l.map UnbindStep.free).foldl Unbinding.apply u = { u with fa := u.fa.giveBackAll l } := by
    intro l
    induction l with
    | nil => exact fun u => rfl
    | cons a l ih =>
      intro u
      rw [List.map_cons, List.foldl_cons, ih]
      rfl
  unfold unbinding
  rw [List.take_length]
  unfold unbindSteps
  rw [List.cons_append, List.foldl_cons, List.foldl_append, hfree, List.foldl_cons, hfree]
  unfold Devices.unbind
  rw [hd]
  dsimp only
  rw [hbound]
  unfold Devices.bindTeardown Devices.boundDomain
  show (b.fa.giveBackAll c.frames).giveBackAll _ = _
  rw [show (b.kernel.devs.setDevice dev none).iommu = b.kernel.devs.iommu from rfl]
  cases b.kernel.devs.iommu with
  | none => rfl
  | some bi =>
    rw [Option.bind_some]
    dsimp only
    cases bi.bound <;> rfl

theorem confined_of_inv (h : b.Inv) : b.Confined := by
  have hmaps : ∀ dev c bd, b.kernel.devs.binding dev = some c → b.bound = some bd →
      ∀ e ∈ bd.maps, e.2 ∈ c.frames ∧ b.fa.marked e.2 = 1 := by
    intro dev c bd hc hbd e he
    have hmem := h.maps dev c bd hc hbd e he
    exact ⟨hmem, (Kernel.deviceFrame_of_binding h.reachable hc hmem).marked⟩
  refine ⟨hmaps, fun hrun dev c addr phys hc hdma => ?_, fun dev c n addr phys hc hdma => ?_,
    fun _ _ => unbinding_ends⟩
  · have hon : b.kernel.devs.translated = true := by
      refine (h.running hrun).resolve_right fun hno => ?_
      rw [hno dev] at hc
      cases hc
    unfold Board.dma at hdma
    rw [hc, Option.isSome_some, if_pos rfl, if_pos hon] at hdma
    obtain ⟨bd, hbd, htrans⟩ := Option.bind_eq_some_iff.mp hdma
    obtain ⟨e, he, hlow, hhigh⟩ := translate_mem htrans
    have hmem := h.maps dev c bd hc hbd e he
    exact ⟨e.2, hmem, hlow, hhigh, Kernel.deviceFrame_of_binding h.reachable hc hmem⟩
  · cases n with
    | zero =>
      obtain ⟨bd, hbd, htrans⟩ := Option.bind_eq_some_iff.mp hdma
      obtain ⟨e, he, hlow, hhigh⟩ := translate_mem htrans
      obtain ⟨hmem, hmarked⟩ := hmaps dev c bd hc hbd e he
      exact ⟨e.2, hmem, hlow, hhigh, hmarked⟩
    | succ n =>
      -- The reset comes first.
      have hdead : (b.unbinding c (n + 1)).live = false :=
        apply_live _ (u := Unbinding.apply ⟨true, b.bound, b.fa⟩ .reset) rfl
      unfold Unbinding.dma at hdma
      rw [hdead, if_neg Bool.false_ne_true] at hdma
      cases hdma

/-- In every run in which the self-test maps nothing and translation is on before the kernel proper
runs with a bound device, the bound device is confined. -/
theorem bound_confined (hb : Reachable Board.system confines b) : b.Confined :=
  confined_of_inv (inv_of_reachable hb)

/-- A machine with a remapping unit, before the device to bind is brought up. -/
def bindBoard : Board where
  kernel := Kernel.atBoot Kernel.smallFrames
    ⟨fun _ => none, some ⟨false, ⟨8 * frameSize, 4, [], []⟩, none⟩⟩
  bound := none
  booting := true

theorem bindBoard_starts : Starts bindBoard :=
  ⟨Kernel.atBoot_booted rfl (fun _ _ h => nomatch h) (by decide) (by decide), rfl, ⟨rfl, rfl⟩,
    fun _ => rfl⟩

/-- The device is brought up, translation is on, and the self-test reads a sector. -/
def bringUp : List Event :=
  [.init 1 ⟨true, 64, 0xFE000000⟩, .blockEnable true, .bindSelftest 1 [(0, 0)]]

/-- The launch of a library OS with the device. -/
def launchBound : Event :=
  .entry (.run 0 [some Kernel.smallImage] [some ⟨.boundDevice 1, rightMap, none⟩])

/-- The boot without the self-test. -/
def quietRun : List Event := [.init 1 ⟨true, 64, 0xFE000000⟩, .blockEnable true, launchBound]

/-- The device reaches its data buffer. -/
theorem bound_confined_quietRun : (system.runFrom bindBoard quietRun).Confined ∧
    (system.runFrom bindBoard quietRun).dma 1 (boundIovaBase + 4 * frameSize) =
      some (72 * frameSize) := by
  refine ⟨bound_confined ?_, by decide +kernel⟩
  have hstart : Reachable system confines bindBoard := ⟨[], .start bindBoard_starts⟩
  have hup := (hstart.pass (a := .init 1 ⟨true, 64, 0xFE000000⟩) trivial).pass
    (a := .blockEnable true) trivial
  refine hup.pass (a := launchBound) ?_
  show Board.protects _ = true
  decide +kernel

/-- The boot with the self-test. -/
def selftestRun : List Event := bringUp ++ [launchBound]

/-- The device reaches the level-4 table of the process. -/
theorem selftestRun_reaches : ∃ b, Reachable Board.system always b ∧ ¬ b.Confined ∧
    ∃ proc, b.kernel.procs.proc 0 = some proc ∧ proc.l4 = 73 * frameSize ∧
      b.dma 1 (boundIovaBase + 5 * frameSize) = some proc.l4 := by
  have htable : ((system.runFrom bindBoard selftestRun).kernel.procs.proc 0).map Process.l4 =
      some (73 * frameSize) := by decide +kernel
  have hreach : (system.runFrom bindBoard selftestRun).dma 1 (boundIovaBase + 5 * frameSize) =
      some (73 * frameSize) := by decide +kernel
  have hbinding : ((system.runFrom bindBoard selftestRun).kernel.devs.binding 1).map Bound.frames =
      some [64 * frameSize, 65 * frameSize, 66 * frameSize, 67 * frameSize, 72 * frameSize] := by
    decide +kernel
  have hmaps : (system.runFrom bindBoard selftestRun).bound.map (fun bd =>
      bd.maps.contains (boundIovaBase / frameSize + 5, 73 * frameSize)) = some true := by
    decide +kernel
  obtain ⟨proc, hp, hl4⟩ := Option.map_eq_some_iff.mp htable
  obtain ⟨c, hc, hframes⟩ := Option.map_eq_some_iff.mp hbinding
  obtain ⟨bd, hbd, hcontains⟩ := Option.map_eq_some_iff.mp hmaps
  refine ⟨_, (system.run bindBoard_starts selftestRun).reachable,
    fun hconfined => ?_, proc, hp, hl4,
    by rw [hreach, hl4]⟩
  have hmem := (hconfined.maps 1 c bd hc hbd _ (List.contains_iff_mem.mp hcontains)).1
  rw [hframes] at hmem
  revert hmem
  decide

end Board

end Plinth
