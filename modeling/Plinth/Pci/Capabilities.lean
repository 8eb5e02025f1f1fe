import Plinth.Rings

/-!
# `Plinth.Pci.Capabilities`: the capability list of a virtio device

`fill_caps` and `read_bar` of `kernel/src/pci.rs`. The configuration space of a function is 256
bytes, and an offset into it is a byte. The kernel is built with overflow checks, so a sum of bytes
that is no byte is a panic. A probe has its fields: each read, with its offset and size.

The list is walked over at most 48 capabilities, and a pointer is a multiple of four. So the walk
ends on every device. But the pointer can be at the end of the space, where the fields of a
capability are not, and no BAR number is looked at. `survives_iff` says which devices come through.
-/

set_option autoImplicit false

namespace Plinth

namespace Pci

/-- The configuration space of a function. -/
abbrev Space := Fin 256 → UInt8

/-- The byte at an offset. -/
def byteAt (space : Space) (off : Nat) : Nat := (space (Fin.ofNat 256 off)).toNat

/-- A field that is read. -/
structure Field where
  off : Nat
  size : Nat
  deriving DecidableEq, Repr

/-- The field is in the configuration space. -/
def Field.Inside (f : Field) : Prop := f.off + f.size ≤ 256

instance (f : Field) : Decidable f.Inside := inferInstanceAs (Decidable (_ ≤ _))

/-- A computation with its fields. It has no value if it panics. -/
structure Probe (α : Type) where
  value : Option α
  fields : List Field
  deriving Repr

/-- What follows a probe: nothing, after a panic. -/
def Probe.bind {α β : Type} (x : Probe α) (f : α → Probe β) : Probe β :=
  match x.value with
  | some a => ⟨(f a).value, x.fields ++ (f a).fields⟩
  | none => ⟨none, x.fields⟩

instance : Monad Probe where
  pure a := ⟨some a, []⟩
  bind := Probe.bind

/-! ### Configuration reads -/

/-- The dword that `read32` reads: the low two bits of the offset are ignored. -/
def dword (space : Space) (off : Nat) : Nat :=
  Ram.read (fun a => space (Fin.ofNat 256 a)) (off / 4 * 4) 4

/-- `read32`. -/
def read32 (space : Space) (off : Nat) : Probe Nat := ⟨some (dword space off), [⟨off, 4⟩]⟩

/-- `read16`: a field from its dword. -/
def read16 (space : Space) (off : Nat) : Probe Nat :=
  ⟨some (dword space off / 2 ^ (off / 2 % 2 * 16) % 2 ^ 16), [⟨off, 2⟩]⟩

/-- `read8`: a byte from its dword. -/
def read8 (space : Space) (off : Nat) : Probe Nat :=
  ⟨some (dword space off / 2 ^ (off % 4 * 8) % 2 ^ 8), [⟨off, 1⟩]⟩

/-- A sum of two bytes. -/
def addU8 (a b : Nat) : Probe Nat := ⟨if a + b < 2 ^ 8 then some (a + b) else none, []⟩

/-- A product of two bytes. -/
def mulU8 (a b : Nat) : Probe Nat := ⟨if a * b < 2 ^ 8 then some (a * b) else none, []⟩

/-! ### The records -/

/-- `VirtioCfg`. -/
structure VirtioCfg where
  bar : Nat
  offset : Nat
  length : Nat
  deriving DecidableEq, Repr

/-- `MsixCap`. -/
structure MsixCap where
  capPtr : Nat
  tableSize : Nat
  tableBar : Nat
  tableOffset : Nat
  pbaBar : Nat
  pbaOffset : Nat
  deriving DecidableEq, Repr

/-- `VirtioBlkInfo`, without the place of the device. -/
structure VirtioBlkInfo where
  deviceId : Nat
  common : VirtioCfg
  notify : VirtioCfg
  notifyMult : Nat
  isr : VirtioCfg
  device : VirtioCfg
  intrLine : Nat
  msix : Option MsixCap
  deriving DecidableEq, Repr

/-- `VirtioCfg::default`. -/
def VirtioCfg.default : VirtioCfg := ⟨0, 0, 0⟩

/-- `CAP_ID_VENDOR`. -/
def capIdVendor : Nat := 0x09

/-- `CAP_ID_MSIX`. -/
def capIdMsix : Nat := 0x11

/-- `VIRTIO_CAP_COMMON`. -/
def virtioCapCommon : Nat := 1

/-- `VIRTIO_CAP_NOTIFY`. -/
def virtioCapNotify : Nat := 2

/-- `VIRTIO_CAP_ISR`. -/
def virtioCapIsr : Nat := 3

/-- `VIRTIO_CAP_DEVICE`. -/
def virtioCapDevice : Nat := 4

/-! ### The walk -/

/-- A capability with the vendor id: the place of a structure. -/
def vendorCap (space : Space) (ptr : Nat) (info : VirtioBlkInfo) : Probe VirtioBlkInfo := do
  let cfgType ← read8 space (← addU8 ptr 3)
  let bar ← read8 space (← addU8 ptr 4)
  let offset ← read32 space (← addU8 ptr 8)
  let length ← read32 space (← addU8 ptr 12)
  let cfg : VirtioCfg := ⟨bar, offset, length⟩
  if cfgType = virtioCapCommon then pure { info with common := cfg }
  else if cfgType = virtioCapNotify then
    let notifyMult ← read32 space (← addU8 ptr 16)
    pure { info with notify := cfg, notifyMult }
  else if cfgType = virtioCapIsr then pure { info with isr := cfg }
  else if cfgType = virtioCapDevice then pure { info with device := cfg }
  else pure info

/-- An MSI-X capability. -/
def msixCap (space : Space) (ptr : Nat) (info : VirtioBlkInfo) : Probe VirtioBlkInfo := do
  let control ← read16 space (← addU8 ptr 2)
  let table ← read32 space (← addU8 ptr 4)
  let pba ← read32 space (← addU8 ptr 8)
  pure { info with
    msix := some ⟨ptr, control % 2 ^ 11 + 1, table % 8, table / 8 * 8, pba % 8, pba / 8 * 8⟩ }

/-- The capability at a pointer. -/
def recordCap (space : Space) (ptr capId : Nat) (info : VirtioBlkInfo) : Probe VirtioBlkInfo :=
  if capId = capIdVendor then vendorCap space ptr info
  else if capId = capIdMsix then msixCap space ptr info
  else pure info

/-- The loop of `fill_caps`, with `n` capabilities left to walk. -/
def walkCaps (space : Space) : Nat → Nat → VirtioBlkInfo → Probe VirtioBlkInfo
  | 0, _, info => pure info
  | n + 1, ptr, info =>
    if ptr = 0 then pure info
    else do
      let capId ← read8 space ptr
      let next ← read8 space (← addU8 ptr 1)
      let info ← recordCap space ptr capId info
      walkCaps space n (next / 4 * 4) info

/-- `fill_caps`. -/
def fillCaps (space : Space) (info : VirtioBlkInfo) : Probe VirtioBlkInfo := do
  let status ← read16 space 0x06
  if status / 2 ^ 4 % 2 = 0 then pure info
  else
    let ptr ← read8 space 0x34
    walkCaps space 48 (ptr / 4 * 4) info

/-- The map of a device, as `discover_all` reads it. -/
def discover (space : Space) : Probe VirtioBlkInfo := do
  let deviceId ← read16 space 0x02
  let intrLine ← read8 space 0x3C
  fillCaps space
    ⟨deviceId, .default, .default, 0, .default, .default, intrLine, none⟩

/-- `read_bar`: the address in a BAR, with the high half of a 64-bit BAR. -/
def readBar (space : Space) (index : Nat) : Probe Nat := do
  let off ← addU8 0x10 (← mulU8 index 4)
  let lo ← read32 space off
  if lo % 2 = 1 then pure (lo / 4 * 4)
  else if lo / 2 % 4 = 2 then
    let hi ← read32 space (← addU8 off 4)
    pure (hi * 2 ^ 32 + lo / 16 * 16)
  else pure (lo / 16 * 16)

/-! ### What the walk visits -/

/-- The capabilities that are visited from a pointer, at most `n`. -/
def chain (space : Space) : Nat → Nat → List Nat
  | 0, _ => []
  | n + 1, ptr => if ptr = 0 then [] else ptr :: chain space n (byteAt space (ptr + 1) / 4 * 4)

/-- The capabilities that `fill_caps` visits. Bit 4 of the status says that there is a list. -/
def caps (space : Space) : List Nat :=
  if byteAt space 0x06 / 2 ^ 4 % 2 = 0 then [] else chain space 48 (byteAt space 0x34 / 4 * 4)

/-- The capability is the place of a structure of a kind. -/
def isVendor (space : Space) (kind ptr : Nat) : Bool :=
  byteAt space ptr = capIdVendor ∧ byteAt space (ptr + 3) = kind

/-- The capability is an MSI-X capability. -/
def isMsix (space : Space) (ptr : Nat) : Bool := byteAt space ptr = capIdMsix

/-- The fields of the capability have offsets that are bytes. -/
def CapFits (space : Space) (ptr : Nat) : Prop :=
  (byteAt space ptr = capIdVendor → ptr + 12 < 2 ^ 8) ∧
    (isVendor space virtioCapNotify ptr → ptr + 16 < 2 ^ 8) ∧
    (isMsix space ptr → ptr + 8 < 2 ^ 8)

instance (space : Space) (ptr : Nat) : Decidable (CapFits space ptr) :=
  inferInstanceAs (Decidable (_ ∧ _ ∧ _))

/-- The place that a capability gives. -/
def cfgAt (space : Space) (ptr : Nat) : VirtioCfg :=
  ⟨byteAt space (ptr + 4), dword space (ptr + 8), dword space (ptr + 12)⟩

/-- The table that an MSI-X capability gives. -/
def msixAt (space : Space) (ptr : Nat) : MsixCap :=
  ⟨ptr, (byteAt space (ptr + 2) + 256 * byteAt space (ptr + 3)) % 2 ^ 11 + 1,
    dword space (ptr + 4) % 8, dword space (ptr + 4) / 8 * 8,
    dword space (ptr + 8) % 8, dword space (ptr + 8) / 8 * 8⟩

/-- The map after a capability whose fields fit. -/
def recorded (space : Space) (info : VirtioBlkInfo) (ptr : Nat) : VirtioBlkInfo :=
  if isVendor space virtioCapCommon ptr then { info with common := cfgAt space ptr }
  else if isVendor space virtioCapNotify ptr then
    { info with notify := cfgAt space ptr, notifyMult := dword space (ptr + 16) }
  else if isVendor space virtioCapIsr ptr then { info with isr := cfgAt space ptr }
  else if isVendor space virtioCapDevice ptr then { info with device := cfgAt space ptr }
  else if isMsix space ptr then { info with msix := some (msixAt space ptr) }
  else info

/-! ### Probes -/

namespace Probe

variable {α β : Type} {x : Probe α} {f : α → Probe β} {a : α} {b : β}

/-- The probe has the value, and its fields are in the configuration space. -/
def Ok (x : Probe α) (a : α) : Prop := x.value = some a ∧ ∀ f ∈ x.fields, f.Inside

theorem Ok.pure (a : α) : (pure a : Probe α).Ok a := ⟨rfl, nofun⟩

theorem bind_of_value (h : x.value = some a) :
    x >>= f = ⟨(f a).value, x.fields ++ (f a).fields⟩ := by
  show Probe.bind x f = _
  unfold Probe.bind
  rw [h]

theorem some_bind (a : α) (fields : List Field) (f : α → Probe β) :
    (⟨some a, fields⟩ : Probe α) >>= f = ⟨(f a).value, fields ++ (f a).fields⟩ := rfl

theorem Ok.bind (hx : x.Ok a) (hf : (f a).Ok b) : (x >>= f).Ok b := by
  rw [bind_of_value hx.1]
  exact ⟨hf.1, List.forall_mem_append.mpr ⟨hx.2, hf.2⟩⟩

/-- A sequence has a value only if both parts do. -/
theorem value_bind : (x >>= f).value = some b ↔ ∃ a, x.value = some a ∧ (f a).value = some b := by
  show (Probe.bind x f).value = some b ↔ _
  unfold Probe.bind
  cases hx : x.value with
  | none => simp
  | some a => simp

end Probe

section

variable {space : Space} {off ptr a b : Nat}

theorem byteAt_lt (space : Space) (off : Nat) : byteAt space off < 256 := UInt8.toNat_lt _

theorem dword_eq (space : Space) (off : Nat) :
    dword space off = byteAt space (off / 4 * 4) + 256 * (byteAt space (off / 4 * 4 + 1) +
      256 * (byteAt space (off / 4 * 4 + 2) + 256 * byteAt space (off / 4 * 4 + 3))) := rfl

/-- The byte of a dword at an offset is the byte there. -/
theorem byte_of_dword (space : Space) (off : Nat) :
    dword space off / 2 ^ (off % 4 * 8) % 2 ^ 8 = byteAt space off := by
  have h0 := byteAt_lt space (off / 4 * 4)
  have h1 := byteAt_lt space (off / 4 * 4 + 1)
  have h2 := byteAt_lt space (off / 4 * 4 + 2)
  have h3 := byteAt_lt space (off / 4 * 4 + 3)
  have hplace : off = off / 4 * 4 + off % 4 := by omega
  have hcases : off % 4 = 0 ∨ off % 4 = 1 ∨ off % 4 = 2 ∨ off % 4 = 3 := by omega
  rw [dword_eq]
  generalize off / 4 * 4 = base at *
  rcases hcases with h | h | h | h
  all_goals
    rw [h] at hplace ⊢
    rw [hplace]
    simp only [Nat.reduceMul, Nat.reducePow, Nat.add_zero]
    omega

theorem read8_value (space : Space) (off : Nat) :
    (read8 space off).value = some (byteAt space off) := congrArg some (byte_of_dword space off)

theorem word_of_dword (space : Space) {off : Nat} (heven : off % 2 = 0) :
    dword space off / 2 ^ (off / 2 % 2 * 16) % 2 ^ 16 =
      byteAt space off + 256 * byteAt space (off + 1) := by
  have h0 := byteAt_lt space (off / 4 * 4)
  have h1 := byteAt_lt space (off / 4 * 4 + 1)
  have h2 := byteAt_lt space (off / 4 * 4 + 2)
  have h3 := byteAt_lt space (off / 4 * 4 + 3)
  have hplace : off = off / 4 * 4 + off / 2 % 2 * 2 := by omega
  have hcases : off / 2 % 2 = 0 ∨ off / 2 % 2 = 1 := by omega
  rw [dword_eq]
  generalize off / 4 * 4 = base at *
  rcases hcases with h | h
  all_goals
    rw [h] at hplace ⊢
    rw [hplace]
    simp only [Nat.reduceMul, Nat.reducePow, Nat.add_zero, Nat.add_assoc, Nat.reduceAdd]
    omega

/-! ### Fields -/

theorem read32_ok (h : off + 4 ≤ 256) : (read32 space off).Ok (dword space off) := by
  refine ⟨rfl, fun f hf => ?_⟩
  cases List.mem_singleton.mp hf
  exact h

theorem read16_ok (h : off + 2 ≤ 256) (heven : off % 2 = 0) :
    (read16 space off).Ok (byteAt space off + 256 * byteAt space (off + 1)) := by
  refine ⟨congrArg some (word_of_dword space heven), fun f hf => ?_⟩
  cases List.mem_singleton.mp hf
  exact h

theorem read8_ok (h : off < 256) : (read8 space off).Ok (byteAt space off) := by
  refine ⟨read8_value space off, fun f hf => ?_⟩
  cases List.mem_singleton.mp hf
  exact h

theorem addU8_ok (h : a + b < 2 ^ 8) : (addU8 a b).Ok (a + b) := by
  refine ⟨if_pos h, nofun⟩

theorem mulU8_ok (h : a * b < 2 ^ 8) : (mulU8 a b).Ok (a * b) := by
  refine ⟨if_pos h, nofun⟩

theorem addU8_value {r : Nat} : (addU8 a b).value = some r ↔ a + b < 2 ^ 8 ∧ a + b = r := by
  unfold addU8
  split
  · rename_i h
    simp only [Option.some.injEq]
    exact ⟨fun hr => ⟨h, hr⟩, fun hr => hr.2⟩
  · rename_i h
    exact ⟨nofun, fun hr => absurd hr.1 h⟩

/-! ### One capability -/

variable {info : VirtioBlkInfo} {kind : Nat}

theorem isVendor_iff (hid : byteAt space ptr = capIdVendor) :
    isVendor space kind ptr = true ↔ byteAt space (ptr + 3) = kind := by
  unfold isVendor
  rw [decide_eq_true_iff]
  exact and_iff_right hid

theorem isVendor_other (hid : byteAt space ptr ≠ capIdVendor) :
    ¬ isVendor space kind ptr = true := by
  unfold isVendor
  rw [decide_eq_true_iff]
  exact fun h => hid h.1

theorem isMsix_iff : isMsix space ptr = true ↔ byteAt space ptr = capIdMsix := decide_eq_true_iff

/-- A pointer is aligned, so a field whose offset is a byte is in the space. -/
theorem vendorCap_ok (haligned : ptr % 4 = 0) (hid : byteAt space ptr = capIdVendor)
    (hfits : CapFits space ptr) : (vendorCap space ptr info).Ok (recorded space info ptr) := by
  obtain ⟨hvendor, hnotify, -⟩ := hfits
  have hend := hvendor hid
  refine (addU8_ok (by omega)).bind ((read8_ok (by omega)).bind ?_)
  refine (addU8_ok (by omega)).bind ((read8_ok (by omega)).bind ?_)
  refine (addU8_ok (by omega)).bind ((read32_ok (by omega)).bind ?_)
  refine (addU8_ok (by omega)).bind ((read32_ok (by omega)).bind ?_)
  have hmsix : ¬ isMsix space ptr = true := by
    rw [isMsix_iff, hid]
    decide
  unfold recorded
  simp only [isVendor_iff hid, if_neg hmsix] at hnotify ⊢
  split
  · exact Probe.Ok.pure _
  · split
    · rename_i hkind
      have hmult := hnotify hkind
      exact (addU8_ok (by omega)).bind ((read32_ok (by omega)).bind (Probe.Ok.pure _))
    · split
      · exact Probe.Ok.pure _
      · split
        · exact Probe.Ok.pure _
        · exact Probe.Ok.pure _

/-- A sum past the byte range is a panic, so a value says that the fields fit. -/
theorem vendorCap_fits {r : VirtioBlkInfo} (hid : byteAt space ptr = capIdVendor)
    (h : (vendorCap space ptr info).value = some r) : CapFits space ptr := by
  have hmsix : ¬ isMsix space ptr = true := by
    rw [isMsix_iff, hid]
    decide
  simp only [vendorCap, Probe.value_bind, addU8_value] at h
  obtain ⟨_, ⟨-, rfl⟩, type, htype, _, ⟨-, rfl⟩, bar, -, _, ⟨-, rfl⟩, offset, -, _, ⟨hend, rfl⟩,
    length, -, hrest⟩ := h
  rw [read8_value] at htype
  cases htype
  refine ⟨fun _ => hend, fun hkind => ?_, fun h => absurd h hmsix⟩
  rw [isVendor_iff hid] at hkind
  rw [hkind, if_neg (by decide), if_pos rfl] at hrest
  simp only [Probe.value_bind, addU8_value] at hrest
  obtain ⟨_, ⟨hmult, -⟩, -⟩ := hrest
  exact hmult

theorem msixCap_ok (haligned : ptr % 4 = 0) (hid : byteAt space ptr = capIdMsix)
    (hfits : CapFits space ptr) : (msixCap space ptr info).Ok (recorded space info ptr) := by
  have hend := hfits.2.2 (isMsix_iff.mpr hid)
  have hother : byteAt space ptr ≠ capIdVendor := by
    rw [hid]
    decide
  have hrecorded : recorded space info ptr = { info with msix := some (msixAt space ptr) } := by
    unfold recorded
    rw [if_neg (isVendor_other hother), if_neg (isVendor_other hother),
      if_neg (isVendor_other hother), if_neg (isVendor_other hother), if_pos (isMsix_iff.mpr hid)]
  rw [hrecorded]
  refine (addU8_ok (by omega)).bind ((read16_ok (by omega) (by omega)).bind ?_)
  refine (addU8_ok (by omega)).bind ((read32_ok (by omega)).bind ?_)
  exact (addU8_ok (by omega)).bind ((read32_ok (by omega)).bind (Probe.Ok.pure _))

theorem msixCap_fits {r : VirtioBlkInfo} (hid : byteAt space ptr = capIdMsix)
    (h : (msixCap space ptr info).value = some r) : CapFits space ptr := by
  have hother : byteAt space ptr ≠ capIdVendor := by
    rw [hid]
    decide
  simp only [msixCap, Probe.value_bind, addU8_value] at h
  obtain ⟨_, ⟨-, rfl⟩, control, -, _, ⟨-, rfl⟩, table, -, _, ⟨hend, -⟩, -⟩ := h
  exact ⟨fun h => absurd h hother, fun h => absurd h (isVendor_other hother), fun _ => hend⟩

/-- A capability whose fields fit is recorded, and any other is a panic. -/
theorem recordCap_ok (haligned : ptr % 4 = 0) (hfits : CapFits space ptr) :
    (recordCap space ptr (byteAt space ptr) info).Ok (recorded space info ptr) := by
  unfold recordCap
  by_cases hvendor : byteAt space ptr = capIdVendor
  · rw [if_pos hvendor]
    exact vendorCap_ok haligned hvendor hfits
  · rw [if_neg hvendor]
    by_cases hmsix : byteAt space ptr = capIdMsix
    · rw [if_pos hmsix]
      exact msixCap_ok haligned hmsix hfits
    · have hrecorded : recorded space info ptr = info := by
        unfold recorded
        rw [if_neg (isVendor_other hvendor), if_neg (isVendor_other hvendor),
          if_neg (isVendor_other hvendor), if_neg (isVendor_other hvendor),
          if_neg (by rw [isMsix_iff]; exact hmsix)]
      rw [if_neg hmsix, hrecorded]
      exact Probe.Ok.pure info

theorem recordCap_fits {r : VirtioBlkInfo}
    (h : (recordCap space ptr (byteAt space ptr) info).value = some r) : CapFits space ptr := by
  unfold recordCap at h
  split at h
  · rename_i hvendor
    exact vendorCap_fits hvendor h
  · rename_i hvendor
    split at h
    · rename_i hmsix
      exact msixCap_fits hmsix h
    · rename_i hmsix
      exact ⟨fun h => absurd h hvendor, fun h => absurd h (isVendor_other hvendor),
        fun h => absurd (isMsix_iff.mp h) hmsix⟩

/-! ### The list -/

/-- The walk from an aligned pointer has a value if the fields of every capability fit. The
induction is on the capabilities that are left. -/
theorem walkCaps_ok (n : Nat) (haligned : ptr % 4 = 0) (hptr : ptr < 256)
    (hfits : ∀ p ∈ chain space n ptr, CapFits space p) :
    (walkCaps space n ptr info).Ok ((chain space n ptr).foldl (recorded space) info) := by
  induction n generalizing ptr info with
  | zero => exact Probe.Ok.pure info
  | succ n ih =>
    unfold walkCaps
    unfold chain at hfits ⊢
    by_cases hzero : ptr = 0
    · rw [if_pos hzero, if_pos hzero]
      exact Probe.Ok.pure info
    · rw [if_neg hzero] at hfits ⊢
      rw [if_neg hzero, List.foldl_cons]
      obtain ⟨hthis, hrest⟩ := List.forall_mem_cons.mp hfits
      have hnext := byteAt_lt space (ptr + 1)
      refine (read8_ok hptr).bind ((addU8_ok (by omega)).bind ((read8_ok (by omega)).bind ?_))
      exact (recordCap_ok haligned hthis).bind (ih (by omega) (by omega) hrest)

theorem walkCaps_fits (n : Nat) {r : VirtioBlkInfo}
    (h : (walkCaps space n ptr info).value = some r) :
      ∀ p ∈ chain space n ptr, CapFits space p := by
  induction n generalizing ptr info with
  | zero => nofun
  | succ n ih =>
    unfold walkCaps at h
    unfold chain
    by_cases hzero : ptr = 0
    · rw [if_pos hzero]
      nofun
    · rw [if_neg hzero] at h ⊢
      simp only [Probe.value_bind, addU8_value] at h
      obtain ⟨id, hid, _, ⟨-, rfl⟩, next, hnext, info', hinfo, hrest⟩ := h
      rw [read8_value] at hid hnext
      cases hid
      cases hnext
      exact List.forall_mem_cons.mpr ⟨recordCap_fits hinfo, ih hrest⟩

/-- The map that a device starts with. -/
def blank (space : Space) : VirtioBlkInfo where
  deviceId := byteAt space 0x02 + 256 * byteAt space 0x03
  common := .default
  notify := .default
  notifyMult := 0
  isr := .default
  device := .default
  intrLine := byteAt space 0x3C
  msix := none

/-- The status is a word, and bit 4 is in its low byte. -/
theorem status_bit (space : Space) :
    (byteAt space 0x06 + 256 * byteAt space (0x06 + 1)) / 2 ^ 4 % 2 =
      byteAt space 0x06 / 2 ^ 4 % 2 := by
  omega

/-- A device whose capabilities fit has a map, and each field is in the space. -/
theorem discover_ok (hfits : ∀ p ∈ caps space, CapFits space p) :
    (discover space).Ok ((caps space).foldl (recorded space) (blank space)) := by
  refine (read16_ok (by omega) (by omega)).bind ((read8_ok (by omega)).bind ?_)
  refine (read16_ok (by omega) (by omega)).bind ?_
  rw [status_bit]
  unfold caps at hfits ⊢
  by_cases hbit : byteAt space 0x06 / 2 ^ 4 % 2 = 0
  · rw [if_pos hbit, if_pos hbit]
    exact Probe.Ok.pure _
  · rw [if_neg hbit] at hfits ⊢
    rw [if_neg hbit]
    have hptr := byteAt_lt space 0x34
    exact (read8_ok (by omega)).bind (walkCaps_ok 48 (by omega) (by omega) hfits)

theorem discover_fits {r : VirtioBlkInfo} (h : (discover space).value = some r) :
    ∀ p ∈ caps space, CapFits space p := by
  simp only [discover, fillCaps, Probe.value_bind] at h
  obtain ⟨id, -, line, -, status, hstatus, hrest⟩ := h
  unfold caps
  by_cases hbit : byteAt space 0x06 / 2 ^ 4 % 2 = 0
  · rw [if_pos hbit]
    nofun
  · have hword : (read16 space 0x06).value =
        some (byteAt space 0x06 + 256 * byteAt space (0x06 + 1)) :=
      congrArg some (word_of_dword space (by decide))
    rw [hword] at hstatus
    cases hstatus
    rw [if_neg hbit]
    rw [status_bit, if_neg hbit] at hrest
    simp only [Probe.value_bind, read8_value] at hrest
    obtain ⟨ptr, hptr, hwalk⟩ := hrest
    cases hptr
    exact walkCaps_fits 48 hwalk

end

/-! ### What is recorded -/

section

variable {α β γ : Type}

/-- A part of a state that some steps replace: after a run it is what the last of these steps
gave. -/
theorem foldl_last {step : β → α → β} (part : β → γ) {p : α → Bool} {v : α → γ}
    (h : ∀ b a, part (step b a) = if p a then v a else part b) (l : List α) (b : β) :
    part (l.foldl step b) = ((l.filter p).getLast?.map v).getD (part b) := by
  induction l using List.reverseRecOn with
  | nil => rfl
  | append_singleton l a ih =>
    rw [List.foldl_append, List.foldl_cons, List.foldl_nil, h, List.filter_append]
    by_cases hp : p a = true
    · rw [if_pos hp, List.filter_cons_of_pos hp, List.filter_nil, List.getLast?_append]
      rfl
    · rw [if_neg hp, List.filter_cons_of_neg hp, List.filter_nil, List.append_nil]
      exact ih

end

/-- The last capability that gives the place of a structure of a kind. -/
def lastVendor (space : Space) (kind : Nat) : Option Nat :=
  ((caps space).filter (isVendor space kind)).getLast?

/-- The last MSI-X capability. -/
def lastMsix (space : Space) : Option Nat := ((caps space).filter (isMsix space)).getLast?

/-- The map of a device whose capabilities fit. -/
def mapOf (space : Space) : VirtioBlkInfo := (caps space).foldl (recorded space) (blank space)

section

variable {space : Space} {ptr kind other : Nat}

/-- A capability is of one kind. -/
theorem isVendor_kind (h : isVendor space kind ptr = true) (hne : kind ≠ other) :
    ¬ isVendor space other ptr = true := by
  unfold isVendor at h ⊢
  rw [decide_eq_true_iff] at h ⊢
  exact fun ho => hne (h.2.symm.trans ho.2)

theorem isMsix_not_vendor (h : isMsix space ptr = true) : ¬ isVendor space kind ptr = true := by
  rw [isMsix_iff] at h
  refine isVendor_other ?_
  rw [h]
  decide

theorem recorded_common (space : Space) (info : VirtioBlkInfo) (ptr : Nat) :
    (recorded space info ptr).common =
    if isVendor space virtioCapCommon ptr then cfgAt space ptr else info.common := by
  unfold recorded
  by_cases h : isVendor space virtioCapCommon ptr = true
  · rw [if_pos h, if_pos h]
  · rw [if_neg h, if_neg h]
    repeat' split
    all_goals rfl

theorem recorded_notify (space : Space) (info : VirtioBlkInfo) (ptr : Nat) :
    (recorded space info ptr).notify =
    if isVendor space virtioCapNotify ptr then cfgAt space ptr else info.notify := by
  unfold recorded
  by_cases h : isVendor space virtioCapNotify ptr = true
  · rw [if_neg (isVendor_kind h (by decide)), if_pos h, if_pos h]
  · rw [if_neg h, if_neg h]
    repeat' split
    all_goals rfl

theorem recorded_isr (space : Space) (info : VirtioBlkInfo) (ptr : Nat) :
    (recorded space info ptr).isr =
    if isVendor space virtioCapIsr ptr then cfgAt space ptr else info.isr := by
  unfold recorded
  by_cases h : isVendor space virtioCapIsr ptr = true
  · rw [if_neg (isVendor_kind h (by decide)), if_neg (isVendor_kind h (by decide)), if_pos h,
      if_pos h]
  · rw [if_neg h, if_neg h]
    repeat' split
    all_goals rfl

theorem recorded_device (space : Space) (info : VirtioBlkInfo) (ptr : Nat) :
    (recorded space info ptr).device =
    if isVendor space virtioCapDevice ptr then cfgAt space ptr else info.device := by
  unfold recorded
  by_cases h : isVendor space virtioCapDevice ptr = true
  · rw [if_neg (isVendor_kind h (by decide)), if_neg (isVendor_kind h (by decide)),
      if_neg (isVendor_kind h (by decide)), if_pos h, if_pos h]
  · rw [if_neg h, if_neg h]
    repeat' split
    all_goals rfl

theorem recorded_msix (space : Space) (info : VirtioBlkInfo) (ptr : Nat) :
    (recorded space info ptr).msix =
    if isMsix space ptr then some (msixAt space ptr) else info.msix := by
  unfold recorded
  by_cases h : isMsix space ptr = true
  · rw [if_neg (isMsix_not_vendor h), if_neg (isMsix_not_vendor h), if_neg (isMsix_not_vendor h),
      if_neg (isMsix_not_vendor h), if_pos h, if_pos h]
  · rw [if_neg h, if_neg h]
    repeat' split
    all_goals rfl

end

section

variable (space : Space)

/-- The last capability of a kind is the one that is kept. -/
theorem mapOf_common : (mapOf space).common =
    ((lastVendor space virtioCapCommon).map (cfgAt space)).getD .default :=
  foldl_last VirtioBlkInfo.common (recorded_common space) _ _

theorem mapOf_notify : (mapOf space).notify =
    ((lastVendor space virtioCapNotify).map (cfgAt space)).getD .default :=
  foldl_last VirtioBlkInfo.notify (recorded_notify space) _ _

theorem mapOf_isr : (mapOf space).isr =
    ((lastVendor space virtioCapIsr).map (cfgAt space)).getD .default :=
  foldl_last VirtioBlkInfo.isr (recorded_isr space) _ _

theorem mapOf_device : (mapOf space).device =
    ((lastVendor space virtioCapDevice).map (cfgAt space)).getD .default :=
  foldl_last VirtioBlkInfo.device (recorded_device space) _ _

theorem mapOf_msix : (mapOf space).msix = (lastMsix space).map (msixAt space) := by
  have h := foldl_last VirtioBlkInfo.msix (recorded_msix space) (caps space) (blank space)
  show (mapOf space).msix = _
  unfold mapOf lastMsix
  rw [h]
  cases ((caps space).filter (isMsix space)).getLast? with
  | none => rfl
  | some ptr => rfl

end

/-! ### Base-address registers -/

/-- The BAR numbers of the structures and tables of a map. -/
def VirtioBlkInfo.bars (info : VirtioBlkInfo) : List Nat :=
  [info.common.bar, info.notify.bar, info.isr.bar, info.device.bar] ++
    info.msix.toList.flatMap fun m => [m.tableBar, m.pbaBar]

/-- The number is that of a BAR, and `read_bar` reads this register. -/
def NamesBar (space : Space) (bar : Nat) : Prop :=
  bar < 6 ∧ ∃ addr, (readBar space bar).value = some addr ∧
    (readBar space bar).fields.head? = some ⟨0x10 + 4 * bar, 4⟩

/-- The kernel finds its way through the device: the walk ends without a panic, each field that is
read is in the configuration space, and each place in the map is in a BAR. -/
def Survives (space : Space) : Prop :=
  ∃ info, (discover space).value = some info ∧ (∀ f ∈ (discover space).fields, f.Inside) ∧
    ∀ bar ∈ info.bars, NamesBar space bar

section

variable {space : Space} {bar : Nat}

theorem namesBar_iff : NamesBar space bar ↔ bar < 6 := by
  refine ⟨fun h => h.1, fun h => ⟨h, ?_⟩⟩
  have hindex : mulU8 bar 4 = ⟨some (bar * 4), []⟩ := by
    unfold mulU8
    rw [if_pos (by omega)]
  have hoff : addU8 0x10 (bar * 4) = ⟨some (0x10 + 4 * bar), []⟩ := by
    unfold addU8
    rw [if_pos (by omega), Nat.mul_comm]
  have hhigh : addU8 (0x10 + 4 * bar) 4 = ⟨some (0x10 + 4 * bar + 4), []⟩ := by
    unfold addU8
    rw [if_pos (by omega)]
  simp only [readBar, hindex, hoff, read32, Probe.some_bind, List.nil_append, List.cons_append,
    List.head?_cons, and_true]
  -- Each kind of BAR has an address.
  split
  · exact ⟨_, rfl⟩
  · split
    · rw [hhigh]
      exact ⟨_, rfl⟩
    · exact ⟨_, rfl⟩

/-- The place of the last capability is in a BAR, or there is none, and the place is in BAR 0. -/
theorem lastVendor_bar (kind : Nat) :
    (((lastVendor space kind).map (cfgAt space)).getD .default).bar < 6 ↔
      ∀ ptr ∈ lastVendor space kind, byteAt space (ptr + 4) < 6 := by
  cases lastVendor space kind with
  | none => simp [VirtioCfg.default]
  | some ptr => simp [cfgAt]

theorem lastMsix_bars :
    (∀ bar ∈ ((lastMsix space).map (msixAt space)).toList.flatMap fun m => [m.tableBar, m.pbaBar],
      bar < 6) ↔
    ∀ ptr ∈ lastMsix space, dword space (ptr + 4) % 8 < 6 ∧ dword space (ptr + 8) % 8 < 6 := by
  cases lastMsix space with
  | none => simp
  | some ptr => simp [msixAt]

/-- The places of the map are in BARs just when those of the last capabilities are. -/
theorem bars_iff : (∀ bar ∈ (mapOf space).bars, bar < 6) ↔
    (∀ kind ∈ [virtioCapCommon, virtioCapNotify, virtioCapIsr, virtioCapDevice],
      ∀ ptr ∈ lastVendor space kind, byteAt space (ptr + 4) < 6) ∧
    ∀ ptr ∈ lastMsix space, dword space (ptr + 4) % 8 < 6 ∧ dword space (ptr + 8) % 8 < 6 := by
  rw [← lastMsix_bars, ← mapOf_msix]
  simp only [← lastVendor_bar, VirtioBlkInfo.bars, List.forall_mem_append, List.forall_mem_cons,
    List.not_mem_nil, false_implies, implies_true, and_true, ← mapOf_common, ← mapOf_notify,
    ← mapOf_isr, ← mapOf_device]

/-- The walk ends without a panic, and it records places in BARs, just when the fields of each
capability that it visits have offsets that are bytes, and the last capability of each kind names a
BAR. -/
theorem survives_iff (space : Space) : Survives space ↔
    (∀ ptr ∈ caps space, CapFits space ptr) ∧
    (∀ kind ∈ [virtioCapCommon, virtioCapNotify, virtioCapIsr, virtioCapDevice],
      ∀ ptr ∈ lastVendor space kind, byteAt space (ptr + 4) < 6) ∧
    ∀ ptr ∈ lastMsix space, dword space (ptr + 4) % 8 < 6 ∧ dword space (ptr + 8) % 8 < 6 := by
  rw [← bars_iff]
  constructor
  · rintro ⟨info, hinfo, -, hbars⟩
    have hfits := discover_fits hinfo
    obtain ⟨hvalue, -⟩ := discover_ok hfits
    rw [hinfo] at hvalue
    cases hvalue
    exact ⟨hfits, fun bar hbar => (hbars bar hbar).1⟩
  · rintro ⟨hfits, hbars⟩
    obtain ⟨hvalue, hfields⟩ := discover_ok hfits
    exact ⟨mapOf space, hvalue, hfields, fun bar hbar => namesBar_iff.mpr (hbars bar hbar)⟩

/-- A list with one capability in the last dword of the space, which says that it is MSI-X. -/
def lastDword : Space := fun a =>
  if a = 0x06 then 0x10 else if a = 0x34 then 0xFC else if a = 0xFC then 0x11 else 0

/-- The offset of its table is past the byte range. -/
theorem lastDword_panics : (discover lastDword).value = none ∧ ¬ Survives lastDword := by
  have hpanic : (discover lastDword).value = none := by decide +kernel
  refine ⟨hpanic, ?_⟩
  rintro ⟨info, hinfo, -⟩
  rw [hpanic] at hinfo
  cases hinfo

end

end Pci

end Plinth
