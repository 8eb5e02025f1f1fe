import Plinth.Mapping.Atomic

/-!
# `Plinth.Shims.RingSetup`: the rings that a process makes when it needs them

`shim_ring` and `evt_ring` of `libplinth` and `ring::init` of `libos` make a ring on its first use:
they allocate and map two frames and register them. They differ in the addresses and in the size.
An attempt that fails returns at once, and nothing that it did is undone. The next one starts over,
with new frames.

`attempts_clean_iff` says when attempts that fail leave nothing behind: only if the first of their
calls fails already. The addresses of `evt_ring` are those of `init`, in the other order, so a
process that reads events cannot make the ring of the executor, and each `init` costs it a frame
(`init_leaks`).
-/

set_option autoImplicit false

namespace Plinth

open Transition

/-- Where the frames of a ring are mapped, and its depth. -/
structure RingSetup where
  sqVa : Nat
  cqVa : Nat
  entries : Nat
  deriving DecidableEq, Repr

namespace RingSetup

/-- The calls after the first one, which gave the capability at `sq`. -/
def rest (c : RingSetup) (sq : Nat) (s : Kernel) (core : Core) : Nat × Kernel :=
  let sqMap := s.sysFrameMap core sq c.sqVa
  if sqMap.1 = errCode then (errCode, sqMap.2)
  else
    let cq := sqMap.2.sysFrameAlloc core
    if cq.1 = errCode then (errCode, cq.2)
    else
      let cqMap := cq.2.sysFrameMap core cq.1 c.cqVa
      if cqMap.1 = errCode then (errCode, cqMap.2)
      else cqMap.2.ringRegister core sq cq.1 c.entries

/-- The chain of calls. The result is the handle, or `SYS_ERR`. -/
def attempt (c : RingSetup) (s : Kernel) (core : Core) : Nat × Kernel :=
  let sq := s.sysFrameAlloc core
  if sq.1 = errCode then (errCode, sq.2) else c.rest sq.1 sq.2 core

/-- The ring is made once. `handle` is the static that remembers it, `SYS_ERR` before that, and the
result is its new value. -/
def once (c : RingSetup) (handle : Nat) (s : Kernel) (core : Core) : Nat × Kernel :=
  if handle ≠ errCode then (handle, s) else c.attempt s core

/-- The ring of `sys_block_read`, with `SHIM_SQ_VA`, `SHIM_CQ_VA` and `SHIM_RING_ENTRIES`. -/
def shim : RingSetup := ⟨userMapEnd - 2 * frameSize, userMapEnd - frameSize, 2⟩

/-- The ring of `sys_event_recv`, with `EVT_SQ_VA`, `EVT_CQ_VA` and `EVT_RING_ENTRIES`. -/
def evt : RingSetup := ⟨userMapEnd - 4 * frameSize, userMapEnd - 3 * frameSize, 4⟩

/-- The ring of the executor, with `SQ_VA`, `CQ_VA` and `ENTRIES`. -/
def executor : RingSetup := ⟨userMapEnd - 3 * frameSize, userMapEnd - 4 * frameSize, 16⟩

/-- `shim_ring`. -/
def shimRing (handle : Nat) (s : Kernel) (core : Core) : Nat × Kernel := shim.once handle s core

/-- `evt_ring`. -/
def evtRing (handle : Nat) (s : Kernel) (core : Core) : Nat × Kernel := evt.once handle s core

/-- `ring::init`: whether the ring is there, and the new value of its handle. -/
def init (handle : Nat) (s : Kernel) (core : Core) : Bool × Nat × Kernel :=
  let r := executor.once handle s core
  (r.1 ≠ errCode, r)

/-- One attempt after the other. -/
def attempts (core : Core) (cs : List RingSetup) (s : Kernel) : Kernel :=
  cs.foldl (fun s c => (c.attempt s core).2) s

/-- The process on the core has the capabilities and the mappings in `t` that it has in `s`. -/
structure Clean (s t : Kernel) (core : Core) (proc : Process) : Prop where
  process : ∃ x, t.procs.current core = some x ∧ x.caps = proc.caps ∧ x.maps = proc.maps ∧
    x.fbMaps = proc.fbMaps ∧ x.l4 = proc.l4
  leaf : ∀ va, (t.mem.spaces proc.l4).leaf va = (s.mem.spaces proc.l4).leaf va

/-- The allocator has no frame, or the table of the process no slot. -/
def NoFrame (s : Kernel) (proc : Process) : Prop :=
  (∃ e, s.mem.fa.alloc = .error e) ∨ proc.caps.firstFree = none

/-- While the static is not set, a call is an attempt. -/
theorem once_errCode (c : RingSetup) (s : Kernel) (core : Core) :
    c.once errCode s core = c.attempt s core := if_neg fun h => h rfl

/-! ### The first call -/

variable {s t : Kernel} {core : Core} {proc : Process}

theorem slot_ne_errCode (k : CapSlot) : k.val ≠ errCode := by
  have hlt := k.isLt
  unfold maxCaps at hlt
  unfold errCode u64Max
  omega

/-- `frame_alloc` fails for want of a frame or of a slot, and then only the allocator can have
changed. -/
theorem frameAlloc_none (hcur : s.procs.current core = some proc) (h : NoFrame s proc) :
    (s.sysFrameAlloc core).1 = errCode ∧ MapCall.Unmoved s (s.sysFrameAlloc core).2 ∧
      NoFrame (s.sysFrameAlloc core).2 proc := by
  unfold Kernel.sysFrameAlloc
  rw [hcur]
  dsimp only
  cases halloc : s.mem.fa.alloc with
  | error e => exact ⟨rfl, ⟨rfl, fun _ _ => rfl⟩, Or.inl ⟨e, halloc⟩⟩
  | ok r =>
    obtain ⟨addr, fa⟩ := r
    rcases h with ⟨e, he⟩ | hfull
    · rw [halloc] at he
      cases he
    · dsimp only
      unfold CapTable.mint CapTable.install
      rw [hfull]
      exact ⟨rfl, ⟨rfl, fun _ _ => rfl⟩, Or.inr hfull⟩

/-- Else the process has a capability in a slot that was empty. -/
theorem frameAlloc_some (hcur : s.procs.current core = some proc) (h : ¬ NoFrame s proc) :
    (s.sysFrameAlloc core).1 ≠ errCode ∧ ∃ x k cap, proc.caps.slots k = none ∧
      (s.sysFrameAlloc core).2.procs.current core = some x ∧ x.caps.slots k = some cap := by
  unfold Kernel.sysFrameAlloc
  rw [hcur]
  dsimp only
  cases halloc : s.mem.fa.alloc with
  | error e => exact absurd (Or.inl ⟨e, halloc⟩) h
  | ok r =>
    obtain ⟨addr, fa⟩ := r
    dsimp only
    cases hmint : proc.caps.mint (.frame addr) (rightRead ||| rightWrite ||| rightMap) with
    | error e => exact absurd (Or.inr (CapTable.install_error hmint)) h
    | ok r =>
      obtain ⟨k, table⟩ := r
      have hplaces := (CapTable.install_ok hmint).1
      exact ⟨slot_ne_errCode k, proc.setCaps table, k, _, hplaces.empty, Function.update_self ..,
        hplaces.slot_self⟩

/-! ### The calls take nothing away -/

/-- The process on the core has every capability in `t` that it has in `s`, where it has it. -/
def Keeps (core : Core) (s t : Kernel) : Prop :=
  ∀ x, s.procs.current core = some x → ∃ y, t.procs.current core = some y ∧
    ∀ k cap, x.caps.slots k = some cap → y.caps.slots k = some cap

theorem Keeps.refl (s : Kernel) : Keeps core s s := fun x hx => ⟨x, hx, fun _ _ => id⟩

theorem Keeps.trans {u : Kernel} (h : Keeps core s t) (h' : Keeps core t u) : Keeps core s u := by
  intro x hx
  obtain ⟨y, hy, hkeep⟩ := h x hx
  obtain ⟨z, hz, hkeep'⟩ := h' y hy
  exact ⟨z, hz, fun k cap hk => hkeep' k cap (hkeep k cap hk)⟩

theorem keeps_frameAlloc (s : Kernel) : Keeps core s (s.sysFrameAlloc core).2 := by
  intro x hx
  unfold Kernel.sysFrameAlloc
  rw [hx]
  dsimp only
  split
  · exact ⟨x, hx, fun _ _ => id⟩
  · split
    · rename_i j table hmint
      exact ⟨x.setCaps table, Function.update_self ..,
        fun k cap => (CapTable.install_ok hmint).1.keeps⟩
    · exact ⟨x, hx, fun _ _ => id⟩

theorem keeps_frameMap (s : Kernel) (slot va : Nat) :
    Keeps core s (s.sysFrameMap core slot va).2 := by
  intro x hx
  rcases MapCall.frameMap_called hx slot va with ⟨-, hrun⟩ | ⟨y, cap, hcall⟩
  · change s.sysFrameMap core slot va = _ at hrun
    rw [hrun]
    exact ⟨x, hx, fun _ _ => id⟩
  · have hrun := hcall.run
    change s.sysFrameMap core slot va = _ at hrun
    rw [hrun]
    split
    · refine ⟨y, Function.update_self .., ?_⟩
      rw [hcall.caps]
      exact fun _ _ => id
    · exact ⟨x, hx, fun _ _ => id⟩

theorem keeps_ringRegister (s : Kernel) (sqSlot cqSlot entries : Nat) :
    Keeps core s (s.ringRegister core sqSlot cqSlot entries).2 := by
  intro x hx
  unfold Kernel.ringRegister
  split
  · exact ⟨x, hx, fun _ _ => id⟩
  · rw [hx]
    dsimp only
    split
    · split
      · exact ⟨x, hx, fun _ _ => id⟩
      · split
        · exact ⟨x, hx, fun _ _ => id⟩
        · split
          · rename_i j table hmint
            exact ⟨x.setCaps table, Function.update_self ..,
              fun k cap => (CapTable.install_ok hmint).1.keeps⟩
          · exact ⟨x, hx, fun _ _ => id⟩
    · exact ⟨x, hx, fun _ _ => id⟩

/-- What every call of a chain does, the chain does, wherever it ends. -/
theorem rest_ends {R : Kernel → Prop} (c : RingSetup) (sq : Nat) (hs : R s)
    (halloc : ∀ s, R s → R (s.sysFrameAlloc core).2)
    (hmap : ∀ s slot va, R s → R (s.sysFrameMap core slot va).2)
    (hregister : ∀ s sqSlot cqSlot entries, R s →
      R (s.ringRegister core sqSlot cqSlot entries).2) : R (c.rest sq s core).2 := by
  have hsq := hmap _ sq c.sqVa hs
  have hcq := halloc _ hsq
  unfold rest
  dsimp only
  split
  · exact hsq
  · split
    · exact hcq
    · have hcqMap := hmap _ ((s.sysFrameMap core sq c.sqVa).2.sysFrameAlloc core).1 c.cqVa hcq
      split
      · exact hcqMap
      · exact hregister _ _ _ _ hcqMap

theorem keeps_rest (c : RingSetup) (sq : Nat) : Keeps core s (c.rest sq s core).2 :=
  rest_ends (R := Keeps core s) c sq (Keeps.refl s) (fun t h => h.trans (keeps_frameAlloc t))
    (fun t slot va h => h.trans (keeps_frameMap t slot va))
    fun t sqSlot cqSlot entries h => h.trans (keeps_ringRegister t sqSlot cqSlot entries)

theorem keeps_attempt (c : RingSetup) (s : Kernel) : Keeps core s (c.attempt s core).2 := by
  unfold attempt
  dsimp only
  split
  · exact keeps_frameAlloc s
  · exact (keeps_frameAlloc s).trans (keeps_rest c _)

theorem keeps_attempts (cs : List RingSetup) (s : Kernel) :
    Keeps core s (attempts core cs s) := by
  induction cs generalizing s with
  | nil => exact Keeps.refl s
  | cons c cs ih => exact (keeps_attempt c s).trans (ih _)

/-- An attempt is a run of the kernel. -/
theorem attempt_reachable (hs : Reachable Kernel.system always s)
    (hcur : s.procs.current core = some proc) (c : RingSetup) :
    Reachable Kernel.system always (c.attempt s core).2 := by
  have honCore : ∀ {s t : Kernel}, Keeps core s t → (∃ x, s.procs.current core = some x) →
      s.onCore core t = some t ∧ ∃ x, t.procs.current core = some x := by
    intro s t hkeeps ⟨x, hx⟩
    obtain ⟨y, hy, -⟩ := hkeeps x hx
    refine ⟨?_, y, hy⟩
    unfold Kernel.onCore
    rw [hx]
    rfl
  have halloc : ∀ s, Reachable Kernel.system always s ∧ (∃ x, s.procs.current core = some x) →
      Reachable Kernel.system always (s.sysFrameAlloc core).2 ∧
        ∃ x, (s.sysFrameAlloc core).2.procs.current core = some x := by
    intro s ⟨hs, hx⟩
    obtain ⟨hon, hx'⟩ := honCore (keeps_frameAlloc s) hx
    exact ⟨hs.next (a := Label.frameAlloc core) trivial hon, hx'⟩
  have hfirst := halloc s ⟨hs, proc, hcur⟩
  unfold attempt
  dsimp only
  split
  · exact hfirst.1
  · refine (rest_ends (R := fun s => Reachable Kernel.system always s ∧
      ∃ x, s.procs.current core = some x) c _ hfirst halloc (fun s slot va h => ?_)
        fun s sqSlot cqSlot entries h => ?_).1
    · obtain ⟨hon, hx⟩ := honCore (keeps_frameMap s slot va) h.2
      exact ⟨h.1.next (a := Label.frameMap core slot va) trivial hon, hx⟩
    · obtain ⟨hon, hx⟩ := honCore (keeps_ringRegister s sqSlot cqSlot entries) h.2
      exact ⟨h.1.next (a := Label.ringRegister core sqSlot cqSlot entries) trivial hon, hx⟩

/-! ### Attempts that fail -/

/-- An attempt whose first call fails. -/
theorem attempt_none (hcur : s.procs.current core = some proc) (h : NoFrame s proc)
    (c : RingSetup) : (c.attempt s core).1 = errCode ∧ MapCall.Unmoved s (c.attempt s core).2 ∧
      NoFrame (c.attempt s core).2 proc := by
  obtain ⟨hfail, hrest⟩ := frameAlloc_none hcur h
  unfold attempt
  dsimp only
  rw [if_pos hfail]
  exact ⟨rfl, hrest⟩

theorem attempts_none (hcur : s.procs.current core = some proc) (h : NoFrame s proc)
    (cs : List RingSetup) : MapCall.Unmoved s (attempts core cs s) := by
  induction cs generalizing s with
  | nil => exact ⟨rfl, fun _ _ => rfl⟩
  | cons c cs ih =>
    obtain ⟨-, hunmoved, hnone⟩ := attempt_none hcur h c
    obtain ⟨hprocs, hleaf⟩ := ih (by rw [hunmoved.procs]; exact hcur) hnone
    exact ⟨hprocs.trans hunmoved.procs, fun l4 a => (hleaf l4 a).trans (hunmoved.leaf l4 a)⟩

/-- An attempt that gets its first frame keeps it. -/
theorem attempt_some (hcur : s.procs.current core = some proc) (h : ¬ NoFrame s proc)
    (c : RingSetup) : ∃ x k cap, proc.caps.slots k = none ∧
      (c.attempt s core).2.procs.current core = some x ∧ x.caps.slots k = some cap := by
  obtain ⟨hok, x, k, cap, hempty, hx, hk⟩ := frameAlloc_some hcur h
  obtain ⟨y, hy, hkeep⟩ := keeps_rest c (s.sysFrameAlloc core).1 x hx
  refine ⟨y, k, cap, hempty, ?_, hkeep k cap hk⟩
  unfold attempt
  dsimp only
  rw [if_neg hok]
  exact hy

/-- Attempts leave the process as it was only if there are none, or if the first one does not get
a frame. Then none of the others does either. -/
theorem attempts_clean_iff (hcur : s.procs.current core = some proc) (cs : List RingSetup) :
    Clean s (attempts core cs s) core proc ↔ cs = [] ∨ NoFrame s proc := by
  constructor
  · intro hclean
    cases cs with
    | nil => exact Or.inl rfl
    | cons c cs =>
      right
      by_contra hroom
      obtain ⟨x, k, cap, hempty, hx, hk⟩ := attempt_some hcur hroom c
      obtain ⟨y, hy, hkeep⟩ := keeps_attempts cs (c.attempt s core).2 x hx
      obtain ⟨z, hz, hcaps, -⟩ := hclean.process
      obtain rfl := Option.some.inj (hy.symm.trans hz)
      have hheld := hkeep k cap hk
      rw [hcaps, hempty] at hheld
      cases hheld
  · rintro (rfl | hnone)
    · exact ⟨⟨proc, hcur, rfl, rfl, rfl, rfl⟩, fun _ => rfl⟩
    · obtain ⟨hprocs, hleaf⟩ := attempts_none hcur hnone cs
      exact ⟨⟨proc, by rw [hprocs]; exact hcur, rfl, rfl, rfl, rfl⟩, hleaf proc.l4⟩

/-- A process alone on the machine, after 15 frames: its table is full. -/
def fullTableRun : List Label :=
  .run 0 [some Kernel.codeImage] [] :: List.replicate 15 (.frameAlloc 0)

/-- The process with the full table tries to make two rings. -/
theorem attempts_clean_iff_fullTable : ∃ proc,
    (Kernel.smallMachine.runFrom fullTableRun).procs.current 0 = some proc ∧
      Clean (Kernel.smallMachine.runFrom fullTableRun)
        (attempts 0 [shim, executor] (Kernel.smallMachine.runFrom fullTableRun)) 0 proc := by
  have hfacts : ((Kernel.smallMachine.runFrom fullTableRun).procs.current 0).map
      (fun proc => proc.caps.firstFree) = some none := by decide +kernel
  obtain ⟨proc, hproc, hfull⟩ := Option.map_eq_some_iff.mp hfacts
  exact ⟨proc, hproc, (attempts_clean_iff hproc _).mpr (Or.inr (Or.inr hfull))⟩

/-- The number of slots that the process on the core has filled. -/
def filled (s : Kernel) (core : Core) : Option Nat :=
  (s.procs.current core).map fun proc =>
    ((List.finRange maxCaps).filter fun k => (proc.caps.slots k).isSome).length

theorem filled_of_clean (h : Clean s t core proc) (hcur : s.procs.current core = some proc) :
    filled t core = filled s core := by
  obtain ⟨x, hx, hcaps, -⟩ := h.process
  unfold filled
  rw [hx, hcur, Option.map_some, Option.map_some, hcaps]

/-- A process that has made the ring of its events. -/
def readerRun : Kernel :=
  (evtRing errCode (Kernel.smallMachine.runFrom [.run 0 [some Kernel.codeImage] []]) 0).2

/-- The ring of the executor wants the same addresses. Its `init` fails, and each time the process
has one frame more, until its table is full. -/
theorem init_leaks : ∃ s proc, Reachable Kernel.system always s ∧
    s.procs.current 0 = some proc ∧ (init errCode s 0).1 = false ∧
    (init errCode s 0).2.2 = attempts 0 [executor] s ∧
    ¬ Clean s (attempts 0 [executor] s) 0 proc ∧
    (List.range 14).map (fun n => filled (attempts 0 (List.replicate n executor) s) 0) =
      (List.range 14).map fun n => some (min (4 + n) 16) := by
  have hruns : (readerRun.procs.current 0).isSome = true := by decide +kernel
  obtain ⟨proc, hproc⟩ := Option.isSome_iff_exists.mp hruns
  have hreach : Reachable Kernel.system always readerRun := by
    have hstart : ((Kernel.smallMachine.runFrom [.run 0 [some Kernel.codeImage] []]).procs.current
        0).isSome = true := by decide +kernel
    obtain ⟨x, hx⟩ := Option.isSome_iff_exists.mp hstart
    unfold readerRun evtRing
    rw [once_errCode]
    exact attempt_reachable (Kernel.reachable_small _) hx evt
  have hinit : (init errCode readerRun 0).2.2 = attempts 0 [executor] readerRun := by
    unfold init
    rw [once_errCode]
    rfl
  refine ⟨readerRun, proc, hreach, hproc, by decide +kernel, hinit, fun hclean => ?_,
    by decide +kernel⟩
  exact absurd (filled_of_clean hclean hproc) (by decide +kernel)

end RingSetup

end Plinth
