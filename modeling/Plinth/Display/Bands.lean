import Plinth.Refine.Memory
import Plinth.Runs.Boot

/-!
# `Plinth.Display.Bands`: bands of the framebuffer

`framebuffer_cap_band` cuts a band of rows out of the framebuffer, at the byte where its first row
starts. `fb_map` maps whole pages: it starts at the page of that byte, and it rounds the length up.
So a holder sees its rows from the address that it chose, and nothing else, if and only if the first
byte and the length of the band are at page boundaries (`bands_exact_iff`). In `narrowBands` two
bands share a page.
-/

set_option autoImplicit false

namespace Plinth

/-- `FbRegion`: the framebuffer that the boot code found. -/
structure FbRegion where
  physBase : Nat
  width : Nat
  height : Nat
  stride : Nat
  bytesPerPixel : Nat
  format : Nat
  deriving DecidableEq, Repr

namespace FbRegion

/-- The bytes from one row to the next. -/
def rowBytes (r : FbRegion) : Nat := r.stride * r.bytesPerPixel

/-- `framebuffer_cap_band`: the capability object for `rows` rows from the row `y0`. -/
def framebufferCapBand (r : FbRegion) (y0 rows : Nat) : Option CapObject :=
  if rows = 0 ∨ r.height < y0 + rows then none
  else
    some (.framebuffer (r.physBase + y0 * r.rowBytes) r.width rows r.stride r.bytesPerPixel
      r.format)

/-- The physical address of the first byte of the row `y`. -/
def rowStart (r : FbRegion) (y : Nat) : Nat := r.physBase + y * r.rowBytes

end FbRegion

/-! ### What a holder can reach -/

/-- The byte of physical memory that user code reaches at `va`. An entry holds the frame that
contains its address. -/
def Mem.userByte (m : Mem) (l4 va : Nat) : Option Nat :=
  match (m.spaces l4).leaf va with
  | some l =>
    if l.flags.userAccessible then some (l.phys / frameSize * frameSize + va % frameSize) else none
  | none => none

/-- `n` rounded up to a page. -/
def roundToPage (n : Nat) : Nat := (n + (frameSize - 1)) / frameSize * frameSize

/-- The pages from `va` show the `bytes` bytes from `start`, and nothing else. -/
structure ShowsExactly (m : Mem) (l4 va start bytes : Nat) : Prop where
  rows : ∀ i < bytes, m.userByte l4 (va + i) = some (start + i)
  only : ∀ i < roundToPage bytes, ∀ a, m.userByte l4 (va + i) = some a →
    start ≤ a ∧ a < start + bytes

/-- The pages from `va`, for `bytes` bytes, show no byte of the `n` bytes from `start`. -/
def ShowsNone (m : Mem) (l4 va bytes start n : Nat) : Prop :=
  ∀ i < roundToPage bytes, ∀ a, m.userByte l4 (va + i) = some a → a < start ∨ start + n ≤ a

/-- The pages that `fb_map` maps: whole pages from the page of `start`. -/
def ShowsPages (m : Mem) (l4 va start bytes : Nat) : Prop :=
  ∀ i < roundToPage bytes, m.userByte l4 (va + i) = some (start / frameSize * frameSize + i)

variable {m : Mem} {l4 va start bytes : Nat}

/-- Whole pages show a band exactly if it starts and ends at page boundaries. -/
theorem ShowsPages.exactly_iff (h : ShowsPages m l4 va start bytes) (hpos : 0 < bytes) :
    ShowsExactly m l4 va start bytes ↔ start % frameSize = 0 ∧ bytes % frameSize = 0 := by
  have hround : bytes ≤ roundToPage bytes := by
    unfold roundToPage frameSize
    omega
  constructor
  · intro hexact
    have hfirst := hexact.rows 0 hpos
    rw [h 0 (by omega)] at hfirst
    have hstart : start / frameSize * frameSize = start := by
      have heq := Option.some.inj hfirst
      omega
    refine ⟨?_, ?_⟩
    · unfold frameSize at hstart ⊢
      omega
    · -- The byte behind the band is in its last page, unless the band ends there.
      by_contra hne
      have hmore : bytes < roundToPage bytes := by
        unfold frameSize at hne
        unfold roundToPage frameSize
        omega
      have hbehind := (hexact.only bytes hmore _ (h bytes hmore)).2
      omega
  · rintro ⟨hstart, hbytes⟩
    have hbase : start / frameSize * frameSize = start := by
      unfold frameSize at hstart ⊢
      omega
    have hsame : roundToPage bytes = bytes := by
      unfold frameSize at hbytes
      unfold roundToPage frameSize
      omega
    refine ⟨fun i hi => ?_, fun i hi a ha => ?_⟩
    · rw [h i (by omega), hbase]
    · rw [h i hi, hbase] at ha
      have heq := Option.some.inj ha
      omega

/-- Whole pages show no byte of another band if and only if they end before it or start behind
it. -/
theorem ShowsPages.none_iff {start' n : Nat} (h : ShowsPages m l4 va start bytes)
    (hpos : 0 < bytes) (hn : 0 < n) :
    ShowsNone m l4 va bytes start' n ↔
      start / frameSize * frameSize + roundToPage bytes ≤ start' ∨
        start' + n ≤ start / frameSize * frameSize := by
  have hround : bytes ≤ roundToPage bytes := by
    unfold roundToPage frameSize
    omega
  constructor
  · intro hnone
    by_contra hmeet
    rw [not_or, Nat.not_le, Nat.not_le] at hmeet
    -- The first common byte is the first byte of the pages or of the other band.
    by_cases hlow : start' ≤ start / frameSize * frameSize
    · have hfirst := hnone 0 (by omega) _ (h 0 (by omega))
      omega
    · have hin : start' - start / frameSize * frameSize < roundToPage bytes := by omega
      have hcommon := hnone _ hin _ (h _ hin)
      omega
  · intro hapart i hi a ha
    rw [h i hi] at ha
    have heq := Option.some.inj ha
    omega

/-! ### The call -/

/-- After a successful mapping, every page of the list is mapped to its frame. -/
theorem mapPages_leaf {pages : List (Nat × Nat × PageFlags)} {mapped : List Nat}
    (hok : (mapPages l4 pages mapped m).1 = true) :
    ∀ e ∈ pages, ((mapPages l4 pages mapped m).2.spaces l4).leaf e.1 =
      some ⟨e.2.1, e.2.2⟩ := by
  induction pages generalizing mapped m with
  | nil => exact fun e he => nomatch he
  | cons e pages ih =>
    intro e' he'
    obtain ⟨va, phys, flags⟩ := e
    rcases List.mem_cons.mp he' with rfl | hmem
    · exact mapPages_head hok
    · unfold mapPages at hok ⊢
      dsimp only at hok ⊢
      cases hone : (m.mapUserPage l4 va phys flags).1 with
      | true =>
        rw [hone, if_pos rfl] at hok
        rw [if_pos rfl]
        exact ih hok e' hmem
      | false =>
        rw [hone, if_neg Bool.false_ne_true] at hok
        cases hok

/-- The mapped pages of a framebuffer show whole pages. -/
theorem showsPages_of_mapped {mem : Mem} (hva : va % frameSize = 0)
    (hmap : mapPages l4 (fbPages va start ((bytes + (frameSize - 1)) / frameSize)) [] m =
      (true, mem)) : ShowsPages mem l4 va start bytes := by
  intro i hi
  have hpage : i / frameSize < (bytes + (frameSize - 1)) / frameSize := by
    unfold roundToPage at hi
    exact (Nat.div_lt_iff_lt_mul (by decide)).mpr hi
  have hleaf := mapPages_leaf (congrArg Prod.fst hmap)
    (va + i / frameSize * frameSize, start + i / frameSize * frameSize, userDataFlags)
    (List.mem_map.mpr ⟨i / frameSize, List.mem_range.mpr hpage, rfl⟩)
  rw [hmap] at hleaf
  have hsame : (mem.spaces l4).leaf (va + i) =
      (mem.spaces l4).leaf (va + i / frameSize * frameSize) := by
    unfold AddressSpace.leaf
    congr 1
    unfold frameSize at hva ⊢
    omega
  have hbyte : (start + i / frameSize * frameSize) / frameSize * frameSize + (va + i) % frameSize =
      start / frameSize * frameSize + i := by
    unfold frameSize at hva ⊢
    omega
  unfold Mem.userByte
  rw [hsame, hleaf]
  dsimp only
  rw [if_pos (show userDataFlags.userAccessible = true from rfl), hbyte]

namespace Kernel

variable {s t : Kernel} {core : Core} {slot va infoPtr : Nat}

/-- A process maps the framebuffer object `obj` at `va`: it runs on the core, it names the object
by a slot with the right to map it, and `fb_map` succeeds. -/
structure MapsBand (s : Kernel) (core : Core) (proc : Process) (obj : CapObject) (va : Nat)
    (t : Kernel) : Prop where
  current : s.procs.current core = some proc
  call : ∃ slot cap infoPtr, proc.caps.lookup slot rightMap = .ok cap ∧ cap.object = obj ∧
    s.sysFbMap core slot va infoPtr = (0, t)

/-- What a `fb_map` that succeeds shows. -/
theorem MapsBand.shows {proc : Process} {physBase width height stride bpp format : Nat}
    (h : MapsBand s core proc (.framebuffer physBase width height stride bpp format) va t) :
    ShowsPages t.mem proc.l4 va physBase (height * stride * bpp) ∧ 0 < height * stride * bpp := by
  obtain ⟨hcur, slot, ⟨object, rights, origin⟩, infoPtr, hcap, hobj, hcall⟩ := h
  dsimp only at hobj
  subst hobj
  unfold sysFbMap at hcall
  rw [hcur] at hcall
  dsimp only at hcall
  rw [hcap] at hcall
  dsimp only at hcall
  split at hcall
  · cases hcall
  · split at hcall
    · cases hcall
    · rename_i hchecks
      rw [not_or, not_or] at hchecks
      obtain ⟨hpages, hwindow, -⟩ := hchecks
      have hva : va % frameSize = 0 := by
        unfold inMapWindow at hwindow
        simp only [Bool.not_eq_true, Bool.and_eq_false_iff, not_or, Bool.not_eq_false,
          beq_iff_eq] at hwindow
        exact hwindow.1.1.1
      split at hcall
      · cases hcall
      · rename_i mem hmap
        cases hcall
        refine ⟨showsPages_of_mapped hva hmap, ?_⟩
        by_contra hzero
        refine hpages ?_
        rw [Nat.le_zero.mp (Nat.not_lt.mp hzero)]
        rfl

/-- The band starts at a page boundary, and so does what follows it. -/
def BandAligned (r : FbRegion) (y0 rows : Nat) : Prop :=
  r.rowStart y0 % frameSize = 0 ∧ rows * r.rowBytes % frameSize = 0

/-- The holder of the band sees the rows of its own, from the address that it chose, and nothing
else. In particular it sees no byte of the rows of the other band. -/
structure SeesOwnRows (r : FbRegion) (m : Mem) (l4 va y0 rows y0' rows' : Nat) : Prop where
  own : ShowsExactly m l4 va (r.rowStart y0) (rows * r.rowBytes)
  other : ShowsNone m l4 va (rows * r.rowBytes) (r.rowStart y0') (rows' * r.rowBytes)

/-- What the holder of a band sees. -/
theorem MapsBand.band {r : FbRegion} {y0 rows : Nat} {obj : CapObject} {proc : Process}
    (hband : r.framebufferCapBand y0 rows = some obj) (h : MapsBand s core proc obj va t) :
    ShowsPages t.mem proc.l4 va (r.rowStart y0) (rows * r.rowBytes) ∧
      0 < rows * r.rowBytes := by
  unfold FbRegion.framebufferCapBand at hband
  split at hband
  · cases hband
  · cases hband
    have hshows := h.shows
    rw [Nat.mul_assoc] at hshows
    exact hshows

/-- For every framebuffer and two bands with no common row: both holders see exactly the rows of
their own, if and only if both bands start and end at page boundaries. -/
theorem bands_exact_iff {r : FbRegion} {y₁ rows₁ y₂ rows₂ : Nat} {obj₁ obj₂ : CapObject}
    (hband₁ : r.framebufferCapBand y₁ rows₁ = some obj₁)
    (hband₂ : r.framebufferCapBand y₂ rows₂ = some obj₂)
    (hapart : y₁ + rows₁ ≤ y₂ ∨ y₂ + rows₂ ≤ y₁)
    {s₁ t₁ s₂ t₂ : Kernel} {core₁ core₂ : Core} {proc₁ proc₂ : Process} {va₁ va₂ : Nat}
    (hmap₁ : MapsBand s₁ core₁ proc₁ obj₁ va₁ t₁) (hmap₂ : MapsBand s₂ core₂ proc₂ obj₂ va₂ t₂) :
    SeesOwnRows r t₁.mem proc₁.l4 va₁ y₁ rows₁ y₂ rows₂ ∧
        SeesOwnRows r t₂.mem proc₂.l4 va₂ y₂ rows₂ y₁ rows₁ ↔
      BandAligned r y₁ rows₁ ∧ BandAligned r y₂ rows₂ := by
  obtain ⟨hshows₁, hpos₁⟩ := hmap₁.band hband₁
  obtain ⟨hshows₂, hpos₂⟩ := hmap₂.band hband₂
  -- Rows that are apart are bytes that are apart.
  have hbytes : ∀ {y rows y' : Nat}, y + rows ≤ y' →
      r.rowStart y + rows * r.rowBytes ≤ r.rowStart y' := by
    intro y rows y' hle
    have hmul := Nat.mul_le_mul_right r.rowBytes hle
    rw [Nat.add_mul] at hmul
    unfold FbRegion.rowStart
    omega
  have hnone : ∀ {m : Mem} {l4 va y rows y' rows' : Nat}, y + rows ≤ y' ∨ y' + rows' ≤ y →
      ShowsExactly m l4 va (r.rowStart y) (rows * r.rowBytes) →
      ShowsNone m l4 va (rows * r.rowBytes) (r.rowStart y') (rows' * r.rowBytes) := by
    intro m l4 va y rows y' rows' hrows hexact i hi a ha
    obtain ⟨hlow, hhigh⟩ := hexact.only i hi a ha
    rcases hrows with hle | hle
    · have := hbytes hle
      omega
    · have := hbytes hle
      omega
  constructor
  · rintro ⟨hsees₁, hsees₂⟩
    exact ⟨(hshows₁.exactly_iff hpos₁).mp hsees₁.own, (hshows₂.exactly_iff hpos₂).mp hsees₂.own⟩
  · rintro ⟨haligned₁, haligned₂⟩
    have hexact₁ := (hshows₁.exactly_iff hpos₁).mpr haligned₁
    have hexact₂ := (hshows₂.exactly_iff hpos₂).mpr haligned₂
    exact ⟨⟨hexact₁, hnone hapart hexact₁⟩, ⟨hexact₂, hnone hapart.symm hexact₂⟩⟩

/-- A holder sees no row of the other band if and only if its pages end before these rows or start
behind them. -/
theorem bands_apart_iff {r : FbRegion} {y₁ rows₁ y₂ rows₂ : Nat} {obj : CapObject}
    (hband : r.framebufferCapBand y₁ rows₁ = some obj) (hrows : 0 < rows₂) {proc : Process}
    (hmap : MapsBand s core proc obj va t) :
    ShowsNone t.mem proc.l4 va (rows₁ * r.rowBytes) (r.rowStart y₂) (rows₂ * r.rowBytes) ↔
      r.rowStart y₁ / frameSize * frameSize + roundToPage (rows₁ * r.rowBytes) ≤ r.rowStart y₂ ∨
        r.rowStart y₂ + rows₂ * r.rowBytes ≤ r.rowStart y₁ / frameSize * frameSize := by
  obtain ⟨hshows, hpos⟩ := hmap.band hband
  exact hshows.none_iff hpos (Nat.mul_pos hrows (Nat.pos_of_mul_pos_left hpos))

/-! ### A screen with narrow rows -/

/-- A screen of 800 by 600 pixels with four bytes each: a row has 3200 bytes. -/
def narrowScreen : FbRegion := ⟨0x80000000, 800, 600, 800, 4, 0⟩

/-- A screen whose rows have 4096 bytes. -/
def pagedScreen : FbRegion := ⟨0x80000000, 1024, 768, 1024, 4, 0⟩

/-- Two processes get the first and the second row of the screen, and each one maps its row. -/
def bandRun (r : FbRegion) : List Label :=
  let grant := fun y => (r.framebufferCapBand y 1).map fun obj => ⟨obj, rightMap, none⟩
  [.run 0 [some smallImage, some smallImage] [grant 0, grant 1],
    .fbMap 0 1 userMapBase (userStackTop - 64), .preempt 0, .resume 0 1]

/-- The state in which process `n` of the run calls `fb_map`. -/
def beforeCall (r : FbRegion) (n : Nat) : Kernel :=
  smallMachine.runFrom ((bandRun r).take (1 + 3 * n))

/-- The call of process `n`. -/
def bandCall (r : FbRegion) (n : Nat) : Nat × Kernel :=
  (beforeCall r n).sysFbMap 0 1 userMapBase (userStackTop - 64)

theorem bandCall_maps (r : FbRegion) (n : Nat) (obj : CapObject)
    (hcap : ((beforeCall r n).procs.current 0).map (fun proc => proc.caps.lookup 1 rightMap) =
      some (.ok ⟨obj, rightMap, none⟩)) (hok : (bandCall r n).1 = 0) :
    ∃ proc, MapsBand (beforeCall r n) 0 proc obj userMapBase (bandCall r n).2 := by
  obtain ⟨proc, hcur, hlookup⟩ := Option.map_eq_some_iff.mp hcap
  exact ⟨proc, hcur, 1, _, _, hlookup, rfl, Prod.ext hok rfl⟩

/-- On the screen with narrow rows both holders map their rows. The pages of the first one show the
start of the second row, and the second holder finds the page of the first row at its address. -/
theorem narrowBands : ∃ (obj₁ obj₂ : CapObject) (proc₁ proc₂ : Process),
    narrowScreen.framebufferCapBand 0 1 = some obj₁ ∧
    narrowScreen.framebufferCapBand 1 1 = some obj₂ ∧
    MapsBand (beforeCall narrowScreen 0) 0 proc₁ obj₁ userMapBase (bandCall narrowScreen 0).2 ∧
    MapsBand (beforeCall narrowScreen 1) 0 proc₂ obj₂ userMapBase (bandCall narrowScreen 1).2 ∧
    (bandCall narrowScreen 0).2.mem.userByte proc₁.l4 (userMapBase + 3200) =
      some (narrowScreen.rowStart 1) ∧
    (bandCall narrowScreen 1).2.mem.userByte proc₂.l4 userMapBase =
      some (narrowScreen.rowStart 0) ∧
    ¬ SeesOwnRows narrowScreen (bandCall narrowScreen 0).2.mem proc₁.l4 userMapBase 0 1 1 1 := by
  obtain ⟨proc₁, hmap₁⟩ := bandCall_maps narrowScreen 0
    (.framebuffer 0x80000000 800 1 800 4 0) (by decide +kernel) (by decide +kernel)
  obtain ⟨proc₂, hmap₂⟩ := bandCall_maps narrowScreen 1
    (.framebuffer 0x80000C80 800 1 800 4 0) (by decide +kernel) (by decide +kernel)
  have hbyte₁ := hmap₁.shows.1 3200 (by decide)
  have hbyte₂ := hmap₂.shows.1 0 (by decide)
  refine ⟨_, _, proc₁, proc₂, rfl, rfl, hmap₁, hmap₂, hbyte₁, hbyte₂, fun hsees => ?_⟩
  rcases hsees.other 3200 (by decide) _ hbyte₁ with hlow | hhigh
  · exact absurd hlow (by decide)
  · exact absurd hhigh (by decide)

/-- On the screen with rows of a page both holders see the rows of their own. -/
theorem pagedBands : ∃ proc₁ proc₂ : Process,
    SeesOwnRows pagedScreen (bandCall pagedScreen 0).2.mem proc₁.l4 userMapBase 0 1 1 1 ∧
    SeesOwnRows pagedScreen (bandCall pagedScreen 1).2.mem proc₂.l4 userMapBase 1 1 0 1 := by
  obtain ⟨proc₁, hmap₁⟩ := bandCall_maps pagedScreen 0
    (.framebuffer 0x80000000 1024 1 1024 4 0) (by decide +kernel) (by decide +kernel)
  obtain ⟨proc₂, hmap₂⟩ := bandCall_maps pagedScreen 1
    (.framebuffer 0x80001000 1024 1 1024 4 0) (by decide +kernel) (by decide +kernel)
  have hband₁ : pagedScreen.framebufferCapBand 0 1 =
      some (.framebuffer 0x80000000 1024 1 1024 4 0) := rfl
  have hband₂ : pagedScreen.framebufferCapBand 1 1 =
      some (.framebuffer 0x80001000 1024 1 1024 4 0) := rfl
  refine ⟨proc₁, proc₂, (bands_exact_iff hband₁ hband₂ (by decide) hmap₁ hmap₂).mpr ⟨?_, ?_⟩⟩
  · exact ⟨by decide, by decide⟩
  · exact ⟨by decide, by decide⟩

end Kernel

end Plinth
