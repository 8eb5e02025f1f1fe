import Plinth.Refine.Memory
import Plinth.Runs.Boot

/-!
# `Plinth.Binding.Doorbell`: the doorbell page

A bound device is driven through its notify register, and `bind_device` maps the page of this
register into the library OS. `init` decides from the reported layout if the page is free of the
control structures (`notify_page_isolated`), and it records the page in another place, from other
words.

Nothing acts on the decision: `init` prints it, and `bind_device` maps the recorded page in any
case. `sharedRun_maps` has a common-config structure in that page. `doorbell_apart_iff` says for
which layouts the page is safe, and when the decision overflows.
-/

set_option autoImplicit false

namespace Plinth

/-! ### The layout -/

/-- `VirtioCfg`: a structure of the device, in a BAR. -/
structure VirtioCfg where
  bar : UInt8
  offset : UInt32
  length : UInt32
  deriving DecidableEq

/-- What `VirtioBlkInfo` says about the four structures. -/
structure VirtioBlkInfo where
  common : VirtioCfg
  notify : VirtioCfg
  isr : VirtioCfg
  device : VirtioCfg
  notifyMult : UInt32

namespace VirtioBlkInfo

variable {info : VirtioBlkInfo} {barPhys page : Nat} {queueNotifyOff : UInt16}

/-- The control structures, in the order of the test. -/
def controls (info : VirtioBlkInfo) : List VirtioCfg := [info.common, info.isr, info.device]

/-- All four structures are in one BAR. `init` refuses another layout. -/
def oneBar (info : VirtioBlkInfo) : Bool :=
  info.controls.all fun c => c.bar == info.notify.bar

/-- The offset of the notify register of queue 0 in the BAR, without a bound. -/
def notifyOffset (info : VirtioBlkInfo) (queueNotifyOff : UInt16) : Nat :=
  info.notify.offset.toNat + queueNotifyOff.toNat * info.notifyMult.toNat

/-- A `u32` result. `none` means that the operation overflows. -/
def checked32 (n : Nat) : Option Nat := if n < 2 ^ 32 then some n else none

/-- The closure `shares`: does a structure have a byte in the notify page? The second sum is
computed only if the structure starts below the end of the page. -/
def shares (info : VirtioBlkInfo) (notifyPage : Nat) (c : VirtioCfg) : Option Bool :=
  if c.bar ≠ info.notify.bar then some false
  else
    match checked32 (notifyPage + frameSize) with
    | none => none
    | some pageEnd =>
      if c.offset.toNat < pageEnd then
        match checked32 (c.offset.toNat + c.length.toNat) with
        | none => none
        | some last => some (decide (notifyPage < last))
      else some false

/-- `shares(..) || shares(..) || ..`, which stops at the first structure that shares the page. -/
def anyShares (info : VirtioBlkInfo) (notifyPage : Nat) : List VirtioCfg → Option Bool
  | [] => some false
  | c :: cs =>
    match info.shares notifyPage c with
    | none => none
    | some true => some true
    | some false => info.anyShares notifyPage cs

/-- `notify_page_isolated`. `none` means that a `u32` operation overflows. -/
def notifyPageIsolated (info : VirtioBlkInfo) (queueNotifyOff : UInt16) : Option Bool :=
  match checked32 (queueNotifyOff.toNat * info.notifyMult.toNat) with
  | none => none
  | some rel =>
    match checked32 (info.notify.offset.toNat + rel) with
    | none => none
    | some addr => (info.anyShares (addr / frameSize * frameSize) info.controls).map (! ·)

/-- The page that `init` records for the doorbell, in `u64`. -/
def notifyPagePhys (info : VirtioBlkInfo) (barPhys : Nat) (queueNotifyOff : UInt16) :
    Option Nat :=
  let reg := barPhys + info.notifyOffset queueNotifyOff
  if reg < 2 ^ 64 then some (reg / frameSize * frameSize) else none

/-- How `init` ends for a device that is to be bound. -/
inductive BringUp where
  | refused
  | panics
  | ready (notifyPage : Nat) (isolated : Bool)
  deriving DecidableEq

/-- The part of `init` that deals with the doorbell of a bound device. -/
def bringUp (info : VirtioBlkInfo) (barPhys : Nat) (queueNotifyOff : UInt16) : BringUp :=
  if info.oneBar then
    match info.notifyPagePhys barPhys queueNotifyOff with
    | none => .panics
    | some page =>
      match info.notifyPageIsolated queueNotifyOff with
      | none => .panics
      | some isolated => .ready page isolated
  else .refused

/-! ### When the decision can be computed -/

/-- The sums of the test fit for each structure up to the first one that shares the page. -/
def TestFits (page : Nat) : List VirtioCfg → Prop
  | [] => True
  | c :: cs =>
    (c.offset.toNat < page + frameSize → c.offset.toNat + c.length.toNat < 2 ^ 32) ∧
      (page + frameSize ≤ c.offset.toNat ∨ c.offset.toNat + c.length.toNat ≤ page →
        TestFits page cs)

/-- The notify register and the end of its page are below 2^32, and the sums of the test fit. -/
def DecisionFits (info : VirtioBlkInfo) (queueNotifyOff : UInt16) : Prop :=
  info.notifyOffset queueNotifyOff < 2 ^ 32 ∧
    info.notifyOffset queueNotifyOff / frameSize * frameSize + frameSize < 2 ^ 32 ∧
    TestFits (info.notifyOffset queueNotifyOff / frameSize * frameSize) info.controls

theorem checked32_of_lt {n : Nat} (h : n < 2 ^ 32) : checked32 n = some n := if_pos h

theorem checked32_of_ge {n : Nat} (h : 2 ^ 32 ≤ n) : checked32 n = none :=
  if_neg (Nat.not_lt.mpr h)

/-- The test of one structure. -/
theorem shares_eq {c : VirtioCfg} (hbar : c.bar = info.notify.bar)
    (hpage : page + frameSize < 2 ^ 32) :
    info.shares page c =
      if c.offset.toNat < page + frameSize then
        if c.offset.toNat + c.length.toNat < 2 ^ 32 then
          some (decide (page < c.offset.toNat + c.length.toNat))
        else none
      else some false := by
  unfold shares
  rw [if_neg (not_not.mpr hbar), checked32_of_lt hpage]
  dsimp only
  split
  · by_cases hsum : c.offset.toNat + c.length.toNat < 2 ^ 32
    · rw [checked32_of_lt hsum, if_pos hsum]
    · rw [checked32_of_ge (Nat.not_lt.mp hsum), if_neg hsum]
  · rfl

theorem anyShares_ne_none (hpage : page + frameSize < 2 ^ 32) (cs : List VirtioCfg)
    (hbar : ∀ c ∈ cs, c.bar = info.notify.bar) :
    info.anyShares page cs ≠ none ↔ TestFits page cs := by
  induction cs with
  | nil => exact ⟨fun _ => trivial, fun _ => Option.some_ne_none _⟩
  | cons c cs ih =>
    have ih := ih fun c' hc' => hbar c' (List.mem_cons_of_mem _ hc')
    unfold anyShares TestFits
    rw [shares_eq (hbar c List.mem_cons_self) hpage]
    by_cases hlow : c.offset.toNat < page + frameSize
    · rw [if_pos hlow]
      by_cases hsum : c.offset.toNat + c.length.toNat < 2 ^ 32
      · rw [if_pos hsum]
        by_cases hin : page < c.offset.toNat + c.length.toNat
        · rw [decide_eq_true hin]
          refine ⟨fun _ => ⟨fun _ => hsum, fun h => ?_⟩, fun _ => Option.some_ne_none _⟩
          omega
        · rw [decide_eq_false hin]
          refine ih.trans ⟨fun h => ⟨fun _ => hsum, fun _ => h⟩, fun h => h.2 (Or.inr ?_)⟩
          omega
      · rw [if_neg hsum]
        exact ⟨fun h => absurd rfl h, fun h => absurd (h.1 hlow) hsum⟩
    · rw [if_neg hlow]
      refine ih.trans ⟨fun h => ⟨fun h' => absurd h' hlow, fun _ => h⟩, fun h => h.2 (Or.inl ?_)⟩
      omega

theorem notifyPageIsolated_ne_none (queueNotifyOff : UInt16) (hbar : info.oneBar = true) :
    info.notifyPageIsolated queueNotifyOff ≠ none ↔ info.DecisionFits queueNotifyOff := by
  have hbars : ∀ c ∈ info.controls, c.bar = info.notify.bar := by
    intro c hc
    exact eq_of_beq (List.all_eq_true.mp hbar c hc)
  have hoff : info.notify.offset.toNat + queueNotifyOff.toNat * info.notifyMult.toNat =
      info.notifyOffset queueNotifyOff := rfl
  unfold notifyPageIsolated DecisionFits
  by_cases hreg : info.notifyOffset queueNotifyOff < 2 ^ 32
  · rw [checked32_of_lt (by omega)]
    dsimp only
    rw [hoff, checked32_of_lt hreg]
    dsimp only
    rw [ne_eq, Option.map_eq_none_iff]
    by_cases hpage : info.notifyOffset queueNotifyOff / frameSize * frameSize + frameSize < 2 ^ 32
    · refine (anyShares_ne_none hpage _ hbars).trans ?_
      exact ⟨fun h => ⟨hreg, hpage, h⟩, fun h => h.2.2⟩
    · refine ⟨fun h => absurd ?_ h, fun h => absurd h.2.1 hpage⟩
      unfold controls anyShares shares
      rw [if_neg (not_not.mpr (hbars info.common List.mem_cons_self)),
        checked32_of_ge (Nat.not_lt.mp hpage)]
  · refine ⟨fun h => absurd ?_ h, fun h => absurd h.1 hreg⟩
    by_cases hrel : queueNotifyOff.toNat * info.notifyMult.toNat < 2 ^ 32
    · rw [checked32_of_lt hrel]
      dsimp only
      rw [hoff, checked32_of_ge (Nat.not_lt.mp hreg)]
    · rw [checked32_of_ge (Nat.not_lt.mp hrel)]

/-! ### The page that is mapped -/

/-- No byte of a control structure is in the page of the address `phys`. -/
def ControlApart (info : VirtioBlkInfo) (barPhys phys : Nat) : Prop :=
  ∀ c ∈ info.controls, ∀ i < c.length.toNat,
    (barPhys + c.offset.toNat + i) / frameSize ≠ phys / frameSize

/-- Every control structure is empty, or it ends before the page or starts behind it. -/
def NoneTouches (info : VirtioBlkInfo) (barPhys page : Nat) : Prop :=
  ∀ c ∈ info.controls, c.length = 0 ∨ barPhys + c.offset.toNat + c.length.toNat ≤ page ∨
    page + frameSize ≤ barPhys + c.offset.toNat

instance : Decidable (info.NoneTouches barPhys page) :=
  inferInstanceAs (Decidable (∀ c ∈ info.controls, _))

/-- A structure has no byte in a page if and only if it is empty or beside the page. -/
theorem controlApart_iff (hpage : page % frameSize = 0) :
    info.ControlApart barPhys page ↔ info.NoneTouches barPhys page := by
  unfold ControlApart NoneTouches
  refine forall_congr' fun c => forall_congr' fun _ => ?_
  have hlen : c.length = 0 ↔ c.length.toNat = 0 := UInt32.toNat_inj.symm
  rw [hlen]
  unfold frameSize at hpage ⊢
  constructor
  · intro h
    by_contra hnot
    -- The first byte of the structure that is not before the page is in the page.
    refine h (page - (barPhys + c.offset.toNat)) ?_ ?_
    · omega
    · omega
  · intro h i hi
    omega

end VirtioBlkInfo

/-! ### The call -/

namespace Kernel

variable {s t : Kernel} {core : Core} {slot va infoPtr : Nat} {proc : Process} {cap : Capability}
  {dev : DevId} {b : Bound}

/-- A `bind_device` that succeeds maps the recorded notify page at `va`. -/
theorem sysBindDevice_doorbell (hcur : s.procs.current core = some proc)
    (hcap : proc.caps.lookup slot rightMap = .ok cap) (hobj : cap.object = .boundDevice dev)
    (hbound : (s.devs.devices dev).bind VirtioBlk.bound = some b)
    (h : s.sysBindDevice core slot va infoPtr = (0, t)) :
    (t.mem.spaces proc.l4).leaf va = some ⟨b.notifyPagePhys, doorbellFlags⟩ := by
  obtain ⟨object, rights, origin⟩ := cap
  dsimp only at hobj
  subst hobj
  unfold sysBindDevice at h
  rw [hcur] at h
  dsimp only at h
  rw [hcap] at h
  dsimp only at h
  split at h
  · cases h
  · rw [hbound] at h
    dsimp only at h
    split at h
    · cases h
    · rename_i mem hmap
      cases h
      have hok : (mapPages proc.l4 ((va, b.notifyPagePhys, doorbellFlags) :: (bindPages va b).tail)
        [] s.mem).1 = true := congrArg Prod.fst hmap
      have hhead := mapPages_head hok
      rwa [show mapPages proc.l4 ((va, b.notifyPagePhys, doorbellFlags) :: (bindPages va b).tail)
        [] s.mem = (true, mem) from hmap] at hhead

/-- When the decision about a layout can be computed, and when the doorbell page that
`bind_device` maps is free of control structures. -/
theorem doorbell_apart_iff (info : VirtioBlkInfo) (barPhys : Nat) (queueNotifyOff : UInt16)
    (hbar : info.oneBar = true) :
    (info.bringUp barPhys queueNotifyOff ≠ .panics ↔
      barPhys + info.notifyOffset queueNotifyOff < 2 ^ 64 ∧ info.DecisionFits queueNotifyOff) ∧
    ∀ page isolated, info.bringUp barPhys queueNotifyOff = .ready page isolated →
      ∀ (s t : Kernel) (core : Core) (slot va infoPtr : Nat) (proc : Process) (cap : Capability)
        (dev : DevId) (b : Bound), s.procs.current core = some proc →
        proc.caps.lookup slot rightMap = .ok cap → cap.object = .boundDevice dev →
        (s.devs.devices dev).bind VirtioBlk.bound = some b → b.notifyPagePhys = page →
        s.sysBindDevice core slot va infoPtr = (0, t) →
        ((∃ leaf, (t.mem.spaces proc.l4).leaf va = some leaf ∧
            info.ControlApart barPhys leaf.phys) ↔
          info.NoneTouches barPhys
            ((barPhys + info.notifyOffset queueNotifyOff) / frameSize * frameSize)) := by
  have hfits := info.notifyPageIsolated_ne_none queueNotifyOff hbar
  unfold VirtioBlkInfo.bringUp
  rw [if_pos hbar]
  unfold VirtioBlkInfo.notifyPagePhys
  dsimp only
  by_cases hreg : barPhys + info.notifyOffset queueNotifyOff < 2 ^ 64
  · rw [if_pos hreg]
    dsimp only
    refine ⟨?_, fun page isolated hready s t core slot va infoPtr proc cap dev b hcur hcap hobj
      hbound hpage hcall => ?_⟩
    · cases hdecided : info.notifyPageIsolated queueNotifyOff with
      | none =>
        rw [hdecided] at hfits
        exact ⟨fun h => absurd rfl h, fun h => absurd rfl (hfits.mpr h.2)⟩
      | some isolated =>
        rw [hdecided] at hfits
        exact ⟨fun _ => ⟨hreg, hfits.mp (Option.some_ne_none _)⟩,
          fun _ => VirtioBlkInfo.BringUp.noConfusion⟩
    · have hleaf := sysBindDevice_doorbell hcur hcap hobj hbound hcall
      have hsame : (barPhys + info.notifyOffset queueNotifyOff) / frameSize * frameSize = page := by
        split at hready
        · cases hready
        · cases hready
          rfl
      have haligned : page % frameSize = 0 := by
        rw [← hsame]
        exact Nat.mul_mod_left _ _
      rw [hsame, ← VirtioBlkInfo.controlApart_iff haligned]
      constructor
      · rintro ⟨leaf, hfound, hapart⟩
        rw [hleaf, Option.some.injEq] at hfound
        rw [← hfound, hpage] at hapart
        exact hapart
      · intro hapart
        refine ⟨_, hleaf, ?_⟩
        rw [hpage]
        exact hapart
  · rw [if_neg hreg]
    refine ⟨⟨fun h => absurd rfl h, fun h => absurd h.1 hreg⟩, fun page isolated hready => ?_⟩
    cases hready

/-! ### A library OS with a bound device -/

/-- The bound device of the small machine, granted to a process. -/
def boundCap : Capability := ⟨.boundDevice 1, rightMap, none⟩

/-- The small machine after the launch of the process. -/
def boundMachine : Kernel := smallMachine.runFrom [.run 0 [some smallImage] [some boundCap]]

/-- The call of the process: six pages from the start of the map window, and the geometry on the
stack. -/
def boundCall : Nat × Kernel :=
  boundMachine.sysBindDevice 0 1 userMapBase (userStackTop - 64)

/-- The process holds the device, the device has its notify page at 0xFE000000, and the call
succeeds. -/
theorem boundCall_ok : ∃ proc b, boundMachine.procs.current 0 = some proc ∧
    proc.caps.lookup 1 rightMap = .ok boundCap ∧
    (boundMachine.devs.devices 1).bind VirtioBlk.bound = some b ∧
    b.notifyPagePhys = 0xFE000000 ∧
    boundMachine.sysBindDevice 0 1 userMapBase (userStackTop - 64) = (0, boundCall.2) := by
  have hcap : (boundMachine.procs.current 0).map (fun proc => proc.caps.lookup 1 rightMap) =
      some (.ok boundCap) := by
    decide +kernel
  have hbound : ((boundMachine.devs.devices 1).bind VirtioBlk.bound).map Bound.notifyPagePhys =
      some 0xFE000000 := by
    decide +kernel
  have hok : boundCall.1 = 0 := by
    decide +kernel
  obtain ⟨proc, hcur, hlookup⟩ := Option.map_eq_some_iff.mp hcap
  obtain ⟨b, hb, hpage⟩ := Option.map_eq_some_iff.mp hbound
  exact ⟨proc, b, hcur, hlookup, hb, hpage, Prod.ext hok rfl⟩

/-- Every structure has a page of its own, and the notify structure is the last one. -/
def pagedLayout : VirtioBlkInfo where
  common := ⟨4, 0, 56⟩
  isr := ⟨4, 0x1000, 1⟩
  device := ⟨4, 0x2000, 60⟩
  notify := ⟨4, 0x3000, 4⟩
  notifyMult := 4

/-- All structures are in one page. -/
def packedLayout : VirtioBlkInfo where
  common := ⟨4, 0, 56⟩
  isr := ⟨4, 0x100, 1⟩
  device := ⟨4, 0x200, 60⟩
  notify := ⟨4, 0x800, 4⟩
  notifyMult := 4

/-- The doorbell page of the layout with separate pages is safe. -/
theorem doorbell_apart_paged : ∃ proc leaf, boundMachine.procs.current 0 = some proc ∧
    (boundCall.2.mem.spaces proc.l4).leaf userMapBase = some leaf ∧
    pagedLayout.ControlApart 0xFDFFD000 leaf.phys := by
  obtain ⟨proc, b, hcur, hcap, hbound, hpage, hcall⟩ := boundCall_ok
  obtain ⟨leaf, hleaf, hapart⟩ := ((doorbell_apart_iff pagedLayout 0xFDFFD000 0 (by decide)).2
    0xFE000000 true (by decide) boundMachine boundCall.2 0 1 userMapBase (userStackTop - 64) proc
    boundCap 1 b hcur hcap rfl hbound hpage hcall).mpr (by decide)
  exact ⟨proc, leaf, hcur, hleaf, hapart⟩

/-- With the other layout `init` decides that the page is not isolated, and `bind_device` maps the
page with the common-config structure in it. -/
theorem sharedRun_maps :
    packedLayout.bringUp 0xFE000000 0 = .ready 0xFE000000 false ∧
    ∃ proc leaf, boundMachine.procs.current 0 = some proc ∧
      (boundCall.2.mem.spaces proc.l4).leaf userMapBase = some leaf ∧
      leaf.phys = 0xFE000000 ∧ ¬ packedLayout.ControlApart 0xFE000000 leaf.phys := by
  refine ⟨by decide, ?_⟩
  obtain ⟨proc, b, hcur, hcap, hbound, hpage, hcall⟩ := boundCall_ok
  refine ⟨proc, _, hcur, sysBindDevice_doorbell hcur hcap rfl hbound hcall, hpage, ?_⟩
  rw [hpage]
  exact fun h => h packedLayout.common List.mem_cons_self 0 (by decide) (by decide)

end Kernel

end Plinth
