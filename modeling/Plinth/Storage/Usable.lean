import Plinth.Storage.Rollback

/-!
# `Plinth.Storage.Usable`: what a formatted range is good for

`format` takes every range with a data sector. It records the number of data sectors, but the
bitmap has one sector, which is 4096 bits, and `alloc` refuses a larger total.

`usable_iff` says that `format` leaves a usable filesystem exactly if the bitmap is large enough.
For the one direction a `create` takes a free run if there is one (`alloc_error`), in every state
of every session (`Whole.run`). For the other every `create` fails, though all sectors are free
(`refuses_large`).
-/

set_option autoImplicit false

namespace Plinth.Rwfs

open Bytes Bitmap Directory

variable {m : Mount} {d : Device} {name data out beyond : List UInt8} {total first count : Nat}
  {c : List UInt8 → Option (List UInt8)}

/-- The device with more bytes behind its range. -/
def Device.extend (d : Device) (beyond : List UInt8) : Device :=
  { d with disk := d.disk ++ beyond }

/-- The number of data sectors that the superblock on the disk has. -/
def recorded (d : Device) : Nat := rdU32 d.disk 8

/-- The filesystem stores one file of every size that fits into the recorded data area, whatever
lies behind the range and without a change to it. After every session a `create` does not fail in
the bitmap while there are as many free sectors in a row as it needs. -/
structure Usable (m : Mount) (d : Device) : Prop where
  stores : ∀ name data, ValidName name → 0 < data.length → data.length ≤ maxFileBytes →
    sectors data.length ≤ recorded d → ∃ (m' : Mount) (d' : Device), ∀ beyond,
      m.create (d.extend beyond) name data = (.ok (), m', d'.extend beyond) ∧
        ∀ out, data.length ≤ out.length → ∃ d'' : Device,
          m'.read (d'.extend beyond) name out =
            (.ok data.length, overwrite out 0 data, d''.extend beyond)
  spaced : ∀ calls name data e,
    ((Session.run ⟨m, d, []⟩ calls).mount.create (Session.run ⟨m, d, []⟩ calls).device
        name data).1 = .error (.bitmap e) →
      ¬ ClearRun (Session.run ⟨m, d, []⟩ calls).mount.bitmap
        (Session.run ⟨m, d, []⟩ calls).mount.dataSectors (sectors data.length)

/-! ### Behind the range -/

theorem length_slice_le (b : List UInt8) (off len : Nat) : (slice b off len).length ≤ len :=
  List.length_take_le _ _

theorem Device.length_write (h : first * sector + count * sector ≤ d.disk.length) :
    (d.write first count).2.disk.length = d.disk.length := by
  have hblock := length_slice_le d.frame 0 (count * sector)
  unfold Device.write
  dsimp only
  split
  · exact length_overwrite (by omega)
  · rfl

/-- A write inside the range. -/
theorem Device.write_extend (beyond : List UInt8)
    (h : first * sector + count * sector ≤ d.disk.length) :
    (d.extend beyond).write first count =
      ((d.write first count).1, (d.write first count).2.extend beyond) := by
  have hblock := length_slice_le d.frame 0 (count * sector)
  have hsame : overwrite (d.disk ++ beyond) (first * sector) (slice d.frame 0 (count * sector)) =
      overwrite d.disk (first * sector) (slice d.frame 0 (count * sector)) ++ beyond :=
    overwrite_append_left beyond (by omega)
  by_cases hok : d.status = blkOk
  · rw [Device.write_ok hok, Device.write_ok (show (d.extend beyond).status = blkOk from hok)]
    exact congrArg (fun disk => (blkOk, ({ d.next with disk := disk } : Device))) hsame
  · unfold Device.write
    rw [if_neg hok, if_neg (show (d.extend beyond).status ≠ blkOk from hok)]
    rfl

/-- A read inside the range. -/
theorem Device.read_extend (beyond : List UInt8)
    (h : first * sector + count * sector ≤ d.disk.length) :
    (d.extend beyond).read first count =
      ((d.read first count).1, (d.read first count).2.extend beyond) := by
  have hsame : slice (d.disk ++ beyond) (first * sector) (count * sector) =
      slice d.disk (first * sector) (count * sector) := slice_append_left beyond h
  by_cases hok : d.status = blkOk
  · rw [Device.read_ok hok, Device.read_ok (show (d.extend beyond).status = blkOk from hok)]
    exact congrArg (fun block => (blkOk,
      ({ (d.extend beyond).next with frame := overwrite d.frame 0 block } : Device))) hsame
  · unfold Device.read
    rw [if_neg hok, if_neg (show (d.extend beyond).status ≠ blkOk from hok)]
    rfl

theorem persistMeta_extend (h : metaBytes ≤ d.disk.length) :
    m.persistMeta (d.extend beyond) =
      ((m.persistMeta d).1, (m.persistMeta d).2.extend beyond) := by
  have hroom : 0 * sector + dataStart * sector ≤ (d.put m.metadata).disk.length := h
  have hwrite := Device.write_extend beyond hroom
  unfold Mount.persistMeta
  rw [show (d.extend beyond).put m.metadata = (d.put m.metadata).extend beyond from rfl, hwrite]

/-- `create` stays inside the range. -/
theorem create_extend (hdisk : d.disk.length = (dataStart + m.dataSectors) * sector) :
    m.create (d.extend beyond) name data = ((m.create d name data).1, (m.create d name data).2.1,
      (m.create d name data).2.2.extend beyond) := by
  unfold Mount.create
  by_cases hsize : data = [] ∨ data.length > maxFileBytes
  · rw [if_pos hsize, if_pos hsize]
  · rw [if_neg hsize, if_neg hsize]
    dsimp only
    cases halloc : Bitmap.alloc m.bitmap m.dataSectors (sectors data.length) with
    | error x => rfl
    | ok r =>
      obtain ⟨rel, bitmap⟩ := r
      dsimp only
      cases Directory.create (m.setBitmap bitmap).dir name ((dataStart + rel) % 2 ^ 32)
          data.length with
      | error x => rfl
      | ok dir =>
        obtain ⟨-, hrun, -⟩ := alloc_ok halloc
        have hword : (dataStart + rel) % 2 ^ 32 ≤ dataStart + rel := Nat.mod_le _ _
        obtain ⟨d0, hd0⟩ : ∃ d0, d0 = (d.put (zeros (sectors data.length * sector))).put data :=
          ⟨_, rfl⟩
        have hroom : (dataStart + rel) % 2 ^ 32 * sector + sectors data.length * sector ≤
            d0.disk.length := by
          rw [hd0]
          show _ ≤ d.disk.length
          rw [hdisk, ← Nat.add_mul]
          exact Nat.mul_le_mul_right _ (by omega)
        have hmeta : metaBytes ≤
            (d0.write ((dataStart + rel) % 2 ^ 32) (sectors data.length)).2.disk.length := by
          rw [Device.length_write hroom, hd0]
          show metaBytes ≤ d.disk.length
          rw [hdisk]
          unfold metaBytes dataStart sector
          omega
        dsimp only
        rw [show ((d.extend beyond).put (zeros (sectors data.length * sector))).put data =
          d0.extend beyond from hd0 ▸ rfl, ← hd0, Device.write_extend beyond hroom]
        dsimp only
        split
        · rfl
        · rw [persistMeta_extend hmeta]

/-- `read` of a file that lies inside the range. -/
theorem Sound.read_extend (h : Sound m d c) :
    m.read (d.extend beyond) name out = ((m.read d name out).1, (m.read d name out).2.1,
      (m.read d name out).2.2.extend beyond) := by
  unfold Mount.read
  cases hfind : Directory.find m.dir name with
  | error x => rfl
  | ok e =>
    obtain ⟨i, hi, hview⟩ := find_ok hfind
    obtain ⟨-, hend, -⟩ := h.extent (show m.Holds i name e from ⟨hi, hview⟩)
    have hroom : e.firstSector * sector + e.sectorCount * sector ≤ d.disk.length := by
      rw [h.length_disk, ← Nat.add_mul]
      exact Nat.mul_le_mul_right _ hend
    dsimp only
    split
    · rfl
    · rw [Device.read_extend beyond hroom]
      dsimp only
      split
      · rfl
      · rfl

/-! ### The mount in every session -/

/-- The metadata has its size, and the data area `total` sectors. -/
structure Whole (m : Mount) (total : Nat) : Prop where
  length_metadata : m.metadata.length = metaBytes
  dataSectors : m.dataSectors = total

theorem Whole.create (h : Whole m total) (d : Device) (name data : List UInt8) :
    Whole (m.create d name data).2.1 total := by
  have hmeta := h.length_metadata
  cases hplace : m.place name data with
  | none =>
    rw [create_stops hmeta hplace]
    exact h
  | some p =>
    obtain ⟨r, dir, halloc, -, -, hcreate, hslot, -, hok⟩ := create_writes (d := d) hmeta hplace
    obtain ⟨hshort, -, j, hj, hdir⟩ := create_slot hcreate
    have hi := (firstSlot_some hj).1
    by_cases hstatus : d.status = blkOk
    · have hlen : r.2.length = bitmapBytes := by
        rw [(alloc_ok halloc).1, length_setBits, length_bitmap hmeta]
      have hdirlen : dir.length = dirBytes := by
        rw [hdir, length_write hi (length_filled hshort), length_dir hmeta]
      rw [hok hstatus]
      exact ⟨length_setDir (length_setBitmap hmeta hlen) hdirlen, h.dataSectors⟩
    · have hrecord : (if 0 ∈ name then filled name p.1 data.length else zeros entrySize).length =
          entrySize := by
        split
        · exact length_filled hshort
        · exact length_zeros _
      have hwritten : (overwrite m.dir (p.2 * entrySize)
          (if 0 ∈ name then filled name p.1 data.length else zeros entrySize)).length =
          dirBytes := by
        rw [length_write (firstSlot_some hslot).1 hrecord, length_dir hmeta]
      rw [create_fails hmeta hplace hstatus]
      exact ⟨length_setDir hmeta hwritten, h.dataSectors⟩

theorem Whole.delete (h : Whole m total) (d : Device) (name : List UInt8) :
    Whole (m.delete d name).2.1 total := by
  have hmeta := h.length_metadata
  unfold Mount.delete
  cases hremove : Directory.remove m.dir name with
  | error x => exact h
  | ok p =>
    obtain ⟨e, dir⟩ := p
    have hlen : dir.length = dirBytes := (remove_ok hremove).1.trans (length_dir hmeta)
    have hmeta1 := length_setDir hmeta hlen
    dsimp only
    split
    · exact ⟨hmeta1, h.dataSectors⟩
    · rename_i bitmap hfree
      exact ⟨length_setBitmap hmeta1 ((length_free hfree).trans (length_bitmap hmeta1)),
        h.dataSectors⟩

/-- Calls with any names, and requests with any statuses. -/
theorem Whole.run {s : Session} (h : Whole s.mount total) (calls : List Call) :
    Whole (s.run calls).mount total := by
  induction calls generalizing s with
  | nil => exact h
  | cons call rest ih =>
    refine ih ?_
    cases call with
    | create name data => exact h.create s.device name data
    | delete name => exact h.delete s.device name
    | read name out => exact h
    | stat name => exact h

/-! ### The bitmap is large enough -/

theorem sectors_pos {n : Nat} (h : 0 < n) : 0 < sectors n := by
  unfold sectors
  omega

/-- `create` asks the bitmap for its sectors, and fails there only if it is refused. -/
theorem create_refused {e : BitmapError}
    (h : (m.create d name data).1 = .error (.bitmap e)) :
    data ≠ [] ∧ ∃ x, Bitmap.alloc m.bitmap m.dataSectors (sectors data.length) = .error x := by
  unfold Mount.create at h
  split at h
  · cases h
  · rename_i hsize
    refine ⟨(not_or.mp hsize).1, ?_⟩
    cases halloc : Bitmap.alloc m.bitmap m.dataSectors (sectors data.length) with
    | error x => exact ⟨x, rfl⟩
    | ok r =>
      obtain ⟨rel, bitmap⟩ := r
      dsimp only at h
      rw [halloc] at h
      dsimp only at h
      split at h
      · cases h
      · split at h
        · cases h
        · unfold Mount.persistMeta at h
          dsimp only at h
          split at h
          · cases h
          · cases h

theorem Whole.spaced {e : BitmapError} (h : Whole m total) (hfew : total ≤ 4096)
    (hfail : (m.create d name data).1 = .error (.bitmap e)) :
    ¬ ClearRun m.bitmap m.dataSectors (sectors data.length) := by
  obtain ⟨hne, x, halloc⟩ := create_refused hfail
  refine alloc_error (sectors_pos (List.length_pos_iff.mpr hne)) ?_ halloc
  rw [h.dataSectors, length_bitmap h.length_metadata]
  exact hfew

/-- What `format` writes into the superblock. -/
theorem recorded_emptyMeta {n : Nat} (h : Persisted ⟨n, emptyMeta n⟩ d) :
    recorded d = n % 2 ^ 32 := by
  have hpart : slice d.disk 8 4 = slice (emptyMeta n) 8 4 := by
    rw [← show slice d.disk 0 metaBytes = emptyMeta n from h, slice_slice (by decide)]
  have hmagic : (overwrite (zeros metaBytes) 0 magic).length = metaBytes := by
    rw [length_overwrite (by rw [length_zeros]; decide), length_zeros]
  have hself : slice (emptyMeta n) 8 (leBytes 4 n).length = leBytes 4 n :=
    slice_overwrite_self (by rw [hmagic, length_leBytes]; decide)
  rw [length_leBytes] at hself
  unfold recorded rdU32
  rw [hpart, hself, leValue_leBytes]
  rfl

/-- All sectors of a new filesystem are free. -/
theorem clearRun_emptyMeta {total n : Nat} (h : n ≤ total) :
    ClearRun (⟨total, emptyMeta total⟩ : Mount).bitmap total n := by
  refine ⟨0, by omega, fun j _ _ => ?_⟩
  rw [bitmap_emptyMeta]
  exact bit_zeros _ _

/-- The first file of a new filesystem. -/
theorem create_first {n : Nat} (h : Sound ⟨n, emptyMeta n⟩ d fun _ => none)
    (hname : ValidName name) (hpos : 0 < data.length) (hmax : data.length ≤ maxFileBytes)
    (hfits : sectors data.length ≤ n) :
    ∃ m' d', Mount.create ⟨n, emptyMeta n⟩ d name data = (.ok (), m', d') ∧
      Sound m' d' (Function.update (fun _ => none) name (some data)) ∧ Persisted m' d' := by
  obtain ⟨hne, hshort, hnul⟩ := hname
  have hcap : n ≤ Bitmap.capacity (⟨n, emptyMeta n⟩ : Mount).bitmap.length := by
    rw [length_bitmap h.length_metadata]
    exact h.few
  cases halloc : Bitmap.alloc (⟨n, emptyMeta n⟩ : Mount).bitmap n (sectors data.length) with
  | error x =>
    exact absurd (clearRun_emptyMeta hfits) (alloc_error (sectors_pos hpos) hcap halloc)
  | ok r =>
    have hroom : 0 < Directory.capacity (⟨n, emptyMeta n⟩ : Mount).dir.length := by
      rw [length_dir h.length_metadata]
      decide
    have hempty : ∀ i, view (⟨n, emptyMeta n⟩ : Mount).dir i = none := fun i => by
      rw [dir_emptyMeta]
      exact view_zeros _ _
    obtain ⟨dir, hcreate⟩ := create_empty hne hshort hroom hempty (dataStart + r.1) data.length
    exact h.create_done hnul (List.length_pos_iff.mp hpos) hmax halloc hcreate

/-! ### The bitmap is too small -/

/-- A `create` on a range with more than 4096 data sectors. -/
theorem refuses_large {n : Nat} (hlarge : 4096 < n) (hpos : 0 < data.length)
    (hmax : data.length ≤ maxFileBytes) :
    (Mount.create ⟨n, emptyMeta n⟩ d name data).1 = .error (.bitmap .outOfRange) := by
  have halloc : Bitmap.alloc (⟨n, emptyMeta n⟩ : Mount).bitmap n (sectors data.length) =
      .error .outOfRange := by
    refine alloc_beyond ?_
    rw [length_bitmap (length_emptyMeta n)]
    exact hlarge
  unfold Mount.create
  rw [if_neg (not_or.mpr ⟨List.length_pos_iff.mp hpos, Nat.not_lt.mpr hmax⟩)]
  dsimp only
  rw [halloc]

/-! ### Which ranges -/

/-- `format` leaves a usable filesystem exactly on the ranges whose data sectors fit into the
bitmap, and on those that it refuses. -/
theorem usable_iff {total : Nat} {d : Device} (hdisk : d.disk.length = total * sector)
    (hframe : d.frame.length = maxFileBytes) (hok : ∀ status ∈ d.statuses, status = blkOk) :
    (∀ m d', Mount.format total d = (.ok m, d') → Usable m d') ↔ total ≤ dataStart + 4096 := by
  constructor
  · intro h
    by_contra hlarge
    obtain ⟨d', hformat, -, -⟩ := format_fits (by omega) hdisk hframe hok
    have hn : 4096 < total - dataStart := by omega
    exact (h _ d' hformat).spaced [] [0x61] [0] .outOfRange
      (refuses_large hn (by decide) (by decide)) (clearRun_emptyMeta
        (Nat.le_trans (show 1 ≤ 4097 by decide) hn))
  · intro hhigh m d' hformat
    by_cases hlow : dataStart < total
    · obtain ⟨m1, d1, hformat1, hs, -⟩ := format_sound hlow hhigh hdisk hframe hok
      obtain ⟨d2, hformat2, -, hp⟩ := format_fits hlow hdisk hframe hok
      obtain ⟨hm1, rfl⟩ := Prod.mk.inj (hformat1.symm.trans hformat2)
      obtain ⟨hm, rfl⟩ := Prod.mk.inj (hformat.symm.trans hformat2)
      obtain rfl := Except.ok.inj hm1
      obtain rfl := Except.ok.inj hm
      have hn : total - dataStart ≤ 4096 := by omega
      refine ⟨fun name data hname hpos hmax hfits => ?_, fun calls name data e hfail => ?_⟩
      · rw [recorded_emptyMeta hp, Nat.mod_eq_of_lt (by omega)] at hfits
        obtain ⟨m', d'', hcreate, hs', -⟩ := create_first hs hname hpos hmax hfits
        have hstored : Function.update (fun _ => none) name (some data) name = some data :=
          Function.update_self ..
        refine ⟨m', d'', fun beyond => ⟨?_, fun out hout => ?_⟩⟩
        · rw [create_extend hs.length_disk, hcreate]
        · obtain ⟨d3, hread⟩ := hs'.read_some hstored hout
          exact ⟨d3, by rw [hs'.read_extend, hread]⟩
      · have hwhole : Whole ⟨total - dataStart, emptyMeta (total - dataStart)⟩
            (total - dataStart) := ⟨length_emptyMeta _, rfl⟩
        exact (Whole.run (s := ⟨_, d', []⟩) hwhole calls).spaced hn hfail
    · unfold Mount.format at hformat
      rw [if_pos (Nat.le_of_not_lt hlow)] at hformat
      cases hformat

/-- A range with two data sectors. -/
theorem usable_iff_small : (∀ m d', Mount.format 6 ⟨zeros 3072, zeros 4096, []⟩ = (.ok m, d') →
    Usable m d') ↔ 6 ≤ dataStart + 4096 :=
  usable_iff (length_zeros _) (length_zeros _) fun _ hmem => nomatch hmem

/-- A range with one data sector more than the bitmap has bits: `format` succeeds and records them,
and no file can be created. -/
theorem formatted_refuses : ∃ m d', Mount.format 4101 ⟨zeros (4101 * sector), zeros 4096, []⟩ =
    (.ok m, d') ∧ recorded d' = 4097 ∧ (m.create d' [0x61] [1]).1 = .error (.bitmap .outOfRange) ∧
      ClearRun m.bitmap m.dataSectors 4097 ∧ ¬ Usable m d' := by
  obtain ⟨d', hformat, -, hp⟩ := format_fits (d := ⟨zeros (4101 * sector), zeros 4096, []⟩)
    (show dataStart < 4101 by decide) (length_zeros _) (length_zeros _)
    fun _ hmem => nomatch hmem
  have hrefused : (Mount.create ⟨4097, emptyMeta 4097⟩ d' [0x61] [1]).1 =
      .error (.bitmap .outOfRange) := refuses_large (by decide) (by decide) (by decide)
  exact ⟨_, d', hformat, recorded_emptyMeta hp, hrefused, clearRun_emptyMeta (Nat.le_refl _),
    fun h => h.spaced [] [0x61] [1] .outOfRange hrefused (clearRun_emptyMeta (by decide))⟩

end Plinth.Rwfs
