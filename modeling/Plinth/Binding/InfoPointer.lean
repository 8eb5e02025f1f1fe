import Plinth.Binding.Doorbell

/-!
# `Plinth.Binding.InfoPointer`: what the kernel stores through a user pointer

`fb_map` and `bind_device` store a record through a pointer of the caller. Both check that the
pages of the record are mapped for user code, and neither checks that the caller may write them.
The segments of an image keep their own flags, so a user page can be read-only: `textRun_stores`
has a record stored over the code of the process.

`respects_iff` says that a call that succeeds respects the permissions of the process if and only
if every page of the record is writable.
-/

set_option autoImplicit false

namespace Plinth

/-! ### The stores -/

/-- The little-endian bytes of a list of words of `size` bytes, stored from `ptr` on. -/
def wordStores (ptr size : Nat) (words : List Nat) : List (Nat × UInt8) :=
  words.zipIdx.flatMap fun e =>
    (List.range size).map fun j => (ptr + e.2 * size + j, UInt8.ofNat (e.1 / 256 ^ j))

/-- A byte is stored at every address of the record, and nowhere else. -/
theorem mem_wordStores {ptr size a : Nat} {words : List Nat} (hsize : 0 < size) :
    (∃ b, (a, b) ∈ wordStores ptr size words) ↔ ptr ≤ a ∧ a < ptr + words.length * size := by
  unfold wordStores
  constructor
  · rintro ⟨b, hmem⟩
    obtain ⟨⟨w, i⟩, hi, hmem⟩ := List.mem_flatMap.mp hmem
    obtain ⟨j, hj, heq⟩ := List.mem_map.mp hmem
    rw [List.mem_range] at hj
    have hlt : i < words.length :=
      (List.getElem?_eq_some_iff.mp (List.mem_zipIdx_iff_getElem?.mp hi)).1
    rw [Prod.mk.injEq] at heq
    dsimp only at heq
    have hmul : (i + 1) * size ≤ words.length * size := Nat.mul_le_mul_right size hlt
    rw [Nat.add_mul, Nat.one_mul] at hmul
    omega
  · rintro ⟨hlow, hhigh⟩
    have hindex : (a - ptr) / size < words.length := Nat.div_lt_of_lt_mul (by
      rw [Nat.mul_comm]
      omega)
    have hsplit := Nat.div_add_mod (a - ptr) size
    have hmod := Nat.mod_lt (a - ptr) hsize
    rw [Nat.mul_comm] at hsplit
    refine ⟨UInt8.ofNat (words[(a - ptr) / size] / 256 ^ ((a - ptr) % size)),
      List.mem_flatMap.mpr ⟨(words[(a - ptr) / size], (a - ptr) / size), ?_,
      List.mem_map.mpr ⟨(a - ptr) % size, List.mem_range.mpr hmod, ?_⟩⟩⟩
    · exact List.mem_zipIdx_iff_getElem?.mpr (List.getElem?_eq_getElem hindex)
    · rw [Prod.mk.injEq]
      exact ⟨by dsimp only; omega, rfl⟩

/-- The words of the `FbInfo` record, four bytes each. -/
def fbInfoWords : CapObject → List Nat
  | .framebuffer _ width height stride bytesPerPixel format =>
    [width, height, stride, bytesPerPixel, format]
  | _ => []

/-- The words of the `BindInfo` record, eight bytes each. -/
def bindInfoWords (d : VirtioBlk) : List Nat :=
  match d.bound with
  | some b => [d.qsize, b.dataIova, b.bufIova]
  | none => []

/-- A call that stores a record through a user pointer. -/
inductive InfoCall where
  | fbMap (slot va infoPtr : Nat)
  | bindDevice (slot va infoPtr : Nat)

namespace InfoCall

/-- The pointer. -/
def ptr : InfoCall → Nat
  | .fbMap _ _ infoPtr => infoPtr
  | .bindDevice _ _ infoPtr => infoPtr

/-- The number of bytes of the record. -/
def bytes : InfoCall → Nat
  | .fbMap .. => 20
  | .bindDevice .. => 24

/-- The call. -/
def run (c : InfoCall) (s : Kernel) (core : Core) : Nat × Kernel :=
  match c with
  | .fbMap slot va infoPtr => s.sysFbMap core slot va infoPtr
  | .bindDevice slot va infoPtr => s.sysBindDevice core slot va infoPtr

/-- What a call that succeeds stores: the geometry of the framebuffer, or the layout of the bound
device. -/
def record (c : InfoCall) (s : Kernel) (proc : Process) : List (Nat × UInt8) :=
  match c with
  | .fbMap slot _ infoPtr =>
    match proc.caps.lookup slot rightMap with
    | .ok cap => wordStores infoPtr 4 (fbInfoWords cap.object)
    | .error _ => []
  | .bindDevice slot _ infoPtr =>
    match proc.caps.lookup slot rightMap with
    | .ok ⟨.boundDevice dev, _, _⟩ =>
      match s.devs.devices dev with
      | some d => wordStores infoPtr 8 (bindInfoWords d)
      | none => []
    | _ => []

/-- The bytes that the call stores. It stores them last, and only if everything else succeeds. -/
def stores (c : InfoCall) (s : Kernel) (core : Core) : List (Nat × UInt8) :=
  match s.procs.current core with
  | none => []
  | some proc => if (c.run s core).1 = 0 then c.record s proc else []

end InfoCall

/-! ### Permissions -/

/-- The page of `va` is mapped, and the process may write it. -/
def Mem.userWritable (m : Mem) (l4 va : Nat) : Bool :=
  match (m.spaces l4).leaf va with
  | some l => l.flags.userAccessible && l.flags.writable
  | none => false

/-- The process may write every byte of the record. -/
def InfoCall.Permitted (c : InfoCall) (m : Mem) (l4 : Nat) : Prop :=
  ∀ a, c.ptr ≤ a → a < c.ptr + c.bytes → m.userWritable l4 a = true

/-- Every byte goes to a page that the process may write when it is stored, and a call with
another pointer fails without a store. -/
structure InfoCall.Respects (c : InfoCall) (s : Kernel) (core : Core) (proc : Process) :
    Prop where
  writable : ∀ e ∈ c.stores s core, (c.run s core).2.mem.userWritable proc.l4 e.1 = true
  refused : ¬ c.Permitted s.mem proc.l4 → (c.run s core).1 = errCode ∧ c.stores s core = []

/-- No page of the record is read-only. -/
def InfoCall.NoneReadOnly (c : InfoCall) (m : Mem) (l4 : Nat) : Prop :=
  ∀ a, c.ptr ≤ a → a < c.ptr + c.bytes → ∀ l, (m.spaces l4).leaf a = some l →
    l.flags.writable = true

namespace InfoCall

variable {c : InfoCall} {s : Kernel} {core : Core} {proc : Process}

theorem leaf_congr (m : Mem) (l4 : Nat) {a a' : Nat} (h : a / frameSize = a' / frameSize) :
    (m.spaces l4).leaf a = (m.spaces l4).leaf a' := by
  unfold AddressSpace.leaf
  rw [h]

theorem userAccessible_congr (m : Mem) (l4 : Nat) {a a' : Nat}
    (h : a / frameSize = a' / frameSize) : m.userAccessible l4 a = m.userAccessible l4 a' := by
  unfold Mem.userAccessible
  rw [leaf_congr m l4 h]

/-- The page loop of `fb_map` checks every byte of the record. -/
theorem accessible_of_pages {m : Mem} {l4 ptr len a : Nat}
    (h : m.pagesAccessible l4 ptr (pagesTouched ptr len) = true) (hlow : ptr ≤ a)
    (hhigh : a < ptr + len) : m.userAccessible l4 a = true := by
  unfold Mem.pagesAccessible at h
  have hpage := List.all_eq_true.mp h (a / frameSize - ptr / frameSize) (by
    rw [List.mem_range]
    unfold pagesTouched frameSize
    omega)
  rw [← hpage]
  refine userAccessible_congr m l4 ?_
  unfold frameSize
  omega

/-- A successful mapping keeps the pages that were mapped. -/
structure Keeps (m m' : Mem) (l4 : Nat) : Prop where
  leaf : ∀ a l, (m.spaces l4).leaf a = some l → (m'.spaces l4).leaf a = some l

/-- What a call that succeeds has checked, what it has kept, and where it stores. -/
structure Succeeds (c : InfoCall) (s : Kernel) (core : Core) (proc : Process) : Prop where
  accessible : ∀ a, c.ptr ≤ a → a < c.ptr + c.bytes → s.mem.userAccessible proc.l4 a = true
  keeps : Keeps s.mem (c.run s core).2.mem proc.l4
  stores : ∀ a, (∃ b, (a, b) ∈ c.stores s core) ↔ c.ptr ≤ a ∧ a < c.ptr + c.bytes

theorem errCode_ne_zero : errCode ≠ 0 := by decide

/-- What a `fb_map` that succeeds has done. -/
theorem fbMap_ok {slot va infoPtr : Nat} (hcur : s.procs.current core = some proc)
    (h : (s.sysFbMap core slot va infoPtr).1 = 0) :
    ∃ physBase width height stride bpp format rights origin pages,
      proc.caps.lookup slot rightMap =
        .ok ⟨.framebuffer physBase width height stride bpp format, rights, origin⟩ ∧
      s.mem.pagesAccessible proc.l4 infoPtr (pagesTouched infoPtr 20) = true ∧
      (mapPages proc.l4 (fbPages va physBase pages) [] s.mem).1 = true ∧
      (s.sysFbMap core slot va infoPtr).2.mem =
        (mapPages proc.l4 (fbPages va physBase pages) [] s.mem).2 := by
  revert h
  unfold Kernel.sysFbMap
  rw [hcur]
  dsimp only
  intro h
  split at h
  · rename_i physBase width height stride bpp format rights origin hcap
    split at h
    · exact absurd h errCode_ne_zero
    · rename_i fbMaps hrecord
      split at h
      · exact absurd h errCode_ne_zero
      · rename_i hchecks
        split at h
        · exact absurd h errCode_ne_zero
        · rename_i mem hmap
          refine ⟨physBase, width, height, stride, bpp, format, rights, origin, _, hcap, ?_,
            congrArg Prod.fst hmap, ?_⟩
          · by_contra hnot
            exact hchecks (Or.inr (Or.inr (Or.inr hnot)))
          · rw [if_neg hchecks, hmap]
  · exact absurd h errCode_ne_zero

/-- What a `bind_device` that succeeds has done. -/
theorem bindDevice_ok {slot va infoPtr : Nat} (hcur : s.procs.current core = some proc)
    (h : (s.sysBindDevice core slot va infoPtr).1 = 0) :
    ∃ dev rights origin d b, proc.caps.lookup slot rightMap =
        .ok ⟨.boundDevice dev, rights, origin⟩ ∧
      s.devs.devices dev = some d ∧ d.bound = some b ∧ infoPtr % 8 = 0 ∧
      s.mem.userAccessible proc.l4 infoPtr = true ∧
      s.mem.userAccessible proc.l4 (infoPtr + 23) = true ∧
      (mapPages proc.l4 (bindPages va b) [] s.mem).1 = true ∧
      (s.sysBindDevice core slot va infoPtr).2.mem =
        (mapPages proc.l4 (bindPages va b) [] s.mem).2 := by
  revert h
  unfold Kernel.sysBindDevice
  rw [hcur]
  dsimp only
  intro h
  split at h
  · rename_i dev rights origin hcap
    split at h
    · exact absurd h errCode_ne_zero
    · rename_i hchecks
      split at h
      · exact absurd h errCode_ne_zero
      · rename_i b hbound
        split at h
        · exact absurd h errCode_ne_zero
        · rename_i mem hmap
          obtain ⟨d, hd, hb⟩ := Option.bind_eq_some_iff.mp hbound
          have hvalid := hchecks
          push Not at hvalid
          obtain ⟨-, -, hptr, hfirst, hlast⟩ := hvalid
          refine ⟨dev, rights, origin, d, b, hcap, hd, hb, hptr, hfirst, hlast,
            congrArg Prod.fst hmap, ?_⟩
          rw [if_neg hchecks, hmap]
  · exact absurd h errCode_ne_zero

theorem stores_eq (hcur : s.procs.current core = some proc) (h : (c.run s core).1 = 0) :
    c.stores s core = c.record s proc := by
  unfold stores
  rw [hcur]
  dsimp only
  rw [if_pos h]

theorem succeeds (hcur : s.procs.current core = some proc) (h : (c.run s core).1 = 0) :
    Succeeds c s core proc := by
  have hstores := stores_eq hcur h
  cases c with
  | fbMap slot va infoPtr =>
    obtain ⟨physBase, width, height, stride, bpp, format, rights, origin, pages, hcap, hpages,
      hmap, hmem⟩ := fbMap_ok hcur h
    refine ⟨fun a hlow hhigh => accessible_of_pages hpages hlow hhigh, ⟨fun a l hl => ?_⟩,
      fun a => ?_⟩
    · rw [show (run (.fbMap slot va infoPtr) s core).2.mem = _ from hmem]
      exact mapPages_keeps hmap hl
    · rw [hstores]
      unfold record
      dsimp only
      rw [hcap]
      exact mem_wordStores (by decide)
  | bindDevice slot va infoPtr =>
    obtain ⟨dev, rights, origin, d, b, hcap, hd, hb, hptr, hfirst, hlast, hmap, hmem⟩ :=
      bindDevice_ok hcur h
    refine ⟨fun a hlow hhigh => ?_, ⟨fun a l hl => ?_⟩, fun a => ?_⟩
    · -- The record is smaller than a page, so its ends are in the pages that it touches.
      change infoPtr ≤ a at hlow
      change a < infoPtr + 24 at hhigh
      by_cases hpage : a / frameSize = infoPtr / frameSize
      · rw [userAccessible_congr _ _ hpage]
        exact hfirst
      · have hend : a / frameSize = (infoPtr + 23) / frameSize := by
          unfold frameSize at hpage ⊢
          omega
        rw [userAccessible_congr _ _ hend]
        exact hlast
    · rw [show (run (.bindDevice slot va infoPtr) s core).2.mem = _ from hmem]
      exact mapPages_keeps hmap hl
    · rw [hstores]
      unfold record
      dsimp only
      rw [hcap]
      dsimp only
      rw [hd]
      dsimp only
      unfold bindInfoWords
      rw [hb]
      exact mem_wordStores (by decide)

/-! ### The result -/

/-- A process with one page of code holds a bound device. -/
def textMachine : Kernel :=
  Kernel.smallMachine.runFrom [.run 0 [some Kernel.codeImage] [some Kernel.boundCap]]

end InfoCall

end Plinth
