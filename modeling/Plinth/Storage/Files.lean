import Plinth.Storage.Mount

/-!
# `Plinth.Storage.Files`: the filesystem as a map

A session is a run of calls on a mount. `contents` is what the history of the calls says about a
name: the bytes of its last successful `create`, if it was not deleted since.

`Sound` relates the mount and the device to such a map: the extents of the live files lie apart in
the data area, the bitmap is their union, and each holds the bytes of its name. `create` and
`delete` keep it (`Sound.add`, `Sound.drop`), and `persist_meta` brings the disk up to date.

`files_agree` is about every session.
-/

set_option autoImplicit false

namespace Plinth.Rwfs

open Bytes Bitmap Directory

/-! ### Sessions -/

/-- A call on the mount. -/
inductive Call where
  | create (name data : List UInt8)
  | delete (name : List UInt8)
  | read (name out : List UInt8)
  | stat (name : List UInt8)
  deriving DecidableEq, Repr

/-- The name that a call is about. -/
def Call.name : Call → List UInt8
  | create name _ => name
  | delete name => name
  | read name _ => name
  | stat name => name

/-- A call that has returned, and whether it returned `Ok`. -/
structure Event where
  call : Call
  ok : Bool
  deriving DecidableEq, Repr

/-- The mount and its device, with the history of the calls, the latest first. -/
structure Session where
  mount : Mount
  device : Device
  history : List Event

/-- One call. -/
def Session.step (s : Session) (call : Call) : Session :=
  match call with
  | .create name data =>
    match s.mount.create s.device name data with
    | (r, m, d) => ⟨m, d, ⟨call, r.isOk⟩ :: s.history⟩
  | .delete name =>
    match s.mount.delete s.device name with
    | (r, m, d) => ⟨m, d, ⟨call, r.isOk⟩ :: s.history⟩
  | .read name out =>
    match s.mount.read s.device name out with
    | (r, _, d) => ⟨s.mount, d, ⟨call, r.isOk⟩ :: s.history⟩
  | .stat name => ⟨s.mount, s.device, ⟨call, (s.mount.stat name).isOk⟩ :: s.history⟩

/-- A sequence of calls. -/
def Session.run (s : Session) (calls : List Call) : Session := calls.foldl Session.step s

/-- What the history says about a name: the bytes of its last successful `create`, if no successful
`delete` came since. -/
def contents : List Event → List UInt8 → Option (List UInt8)
  | [], _ => none
  | ⟨.create n data, true⟩ :: rest, name => if name = n then some data else contents rest name
  | ⟨.delete n, true⟩ :: rest, name => if name = n then none else contents rest name
  | _ :: rest, name => contents rest name

/-- A name of 1 to 32 bytes without a zero byte. -/
def ValidName (name : List UInt8) : Prop :=
  name ≠ [] ∧ name.length ≤ nameLen ∧ 0 ∉ name

instance (name : List UInt8) : Decidable (ValidName name) :=
  inferInstanceAs (Decidable (_ ∧ _ ∧ _))

/-- The slot `i` of the directory holds a live file. -/
def Mount.Holds (m : Mount) (i : Nat) (name : List UInt8) (e : Entry) : Prop :=
  i < Directory.capacity m.dir.length ∧ view m.dir i = some (name, e)

/-- The sector `k` of the range belongs to the entry. -/
def Covers (e : Entry) (k : Nat) : Prop :=
  e.firstSector ≤ k ∧ k < e.firstSector + e.sectorCount

/-! ### The relation between the mount and the map -/

variable {m m' : Mount} {d d' : Device} {name out data : List UInt8} {i j k rel total : Nat}
  {c : List UInt8 → Option (List UInt8)} {e e' : Entry}

/-- The mount and the device hold the map `c`. -/
structure Sound (m : Mount) (d : Device) (c : List UInt8 → Option (List UInt8)) : Prop where
  few : m.dataSectors ≤ 4096
  length_metadata : m.metadata.length = metaBytes
  length_disk : d.disk.length = (dataStart + m.dataSectors) * sector
  length_frame : d.frame.length = maxFileBytes
  statuses : ∀ status ∈ d.statuses, status = blkOk
  unique : ∀ {i j name e e'}, m.Holds i name e → m.Holds j name e' → i = j
  extent : ∀ {i name e}, m.Holds i name e → dataStart ≤ e.firstSector ∧
    e.firstSector + e.sectorCount ≤ dataStart + m.dataSectors ∧ 0 < e.byteLen ∧
    e.byteLen ≤ maxFileBytes
  apart : ∀ {i j name name' e e'}, m.Holds i name e → m.Holds j name' e' → i ≠ j →
    e.firstSector + e.sectorCount ≤ e'.firstSector ∨ e'.firstSector + e'.sectorCount ≤ e.firstSector
  bits : ∀ k < 4096, bit m.bitmap k = true ↔
    ∃ i name e, m.Holds i name e ∧ Covers e (dataStart + k)
  stored : ∀ {i name e}, m.Holds i name e →
    c name = some (slice d.disk (e.firstSector * sector) e.byteLen)
  known : ∀ {name data}, c name = some data → ∃ i e, m.Holds i name e

/-- The sizes of the mount and of the device, whose requests succeed. -/
structure Fits (m : Mount) (d : Device) : Prop where
  length_metadata : m.metadata.length = metaBytes
  length_disk : d.disk.length = (dataStart + m.dataSectors) * sector
  length_frame : d.frame.length = maxFileBytes
  statuses : ∀ status ∈ d.statuses, status = blkOk

/-- The disk has the metadata of the mount. -/
def Persisted (m : Mount) (d : Device) : Prop := slice d.disk 0 metaBytes = m.metadata

/-! ### Requests that succeed -/

theorem Fits.status (h : Fits m d) : d.status = blkOk := by
  have hall := h.statuses
  unfold Device.status
  cases hst : d.statuses with
  | nil => rfl
  | cons status rest =>
    rw [hst] at hall
    exact hall status List.mem_cons_self

theorem Sound.fits (h : Sound m d c) : Fits m d :=
  ⟨h.length_metadata, h.length_disk, h.length_frame, h.statuses⟩

theorem Sound.status (h : Sound m d c) : d.status = blkOk := h.fits.status

theorem statuses_next (h : ∀ status ∈ d.statuses, status = blkOk) :
    ∀ status ∈ d.next.statuses, status = blkOk :=
  fun status hmem => h status (List.mem_of_mem_tail hmem)

/-- The bytes of an entry fill its sectors. -/
theorem byteLen_le (e : Entry) : e.byteLen ≤ e.sectorCount * sector := by
  unfold Entry.sectorCount sector
  omega

/-- The sectors of a file of one frame. -/
theorem sectors_le {n : Nat} (h : n ≤ maxFileBytes) : sectors n * sector ≤ maxFileBytes := by
  unfold sectors sector maxFileBytes at *
  omega

/-- `Sound` does not depend on the frame and the statuses. -/
theorem Sound.with_device (h : Sound m d c) (hframe : d'.frame.length = maxFileBytes)
    (hstatuses : ∀ status ∈ d'.statuses, status = blkOk)
    (hlen : d'.disk.length = d.disk.length)
    (hdisk : ∀ {off len}, metaBytes ≤ off → slice d'.disk off len = slice d.disk off len) :
    Sound m d' c where
  few := h.few
  length_metadata := h.length_metadata
  length_disk := hlen.trans h.length_disk
  length_frame := hframe
  statuses := hstatuses
  unique := h.unique
  extent := h.extent
  apart := h.apart
  bits := h.bits
  stored := by
    intro i name e hfile
    have hlow := (h.extent hfile).1
    rw [hdisk (by
      unfold metaBytes sector dataStart at *
      omega)]
    exact h.stored hfile
  known := h.known

/-- `persist_meta` writes the metadata. -/
theorem Fits.persist (h : Fits m d) :
    ∃ d', m.persistMeta d = (.ok (), d') ∧ Fits m d' ∧ Persisted m d' ∧
      ∀ {off len}, metaBytes ≤ off → slice d'.disk off len = slice d.disk off len := by
  have hmeta := h.length_metadata
  have hput : (overwrite d.frame 0 m.metadata).length = maxFileBytes := by
    rw [length_overwrite (by rw [hmeta, h.length_frame]; decide), h.length_frame]
  have hback : slice (overwrite d.frame 0 m.metadata) 0 (dataStart * sector) = m.metadata := by
    have hself : slice (overwrite d.frame 0 m.metadata) 0 m.metadata.length = m.metadata :=
      slice_overwrite_self (by rw [hmeta, h.length_frame]; decide)
    rw [hmeta] at hself
    exact hself
  have hroom : 0 * sector + m.metadata.length ≤ d.disk.length := by
    rw [hmeta, h.length_disk]
    unfold sector metaBytes dataStart
    omega
  have hst : (d.put m.metadata).status = blkOk := h.status
  refine ⟨{ (d.put m.metadata).next with disk := overwrite d.disk (0 * sector) m.metadata },
    ?_, ⟨hmeta, (length_overwrite hroom).trans h.length_disk, hput, statuses_next h.statuses⟩,
    ?_, ?_⟩
  · unfold Mount.persistMeta Device.write
    rw [hst, if_pos rfl]
    show (if blkOk ≠ blkOk then _ else _, _) = _
    rw [if_neg (fun hne => hne rfl)]
    show (Except.ok (), ({ (d.put m.metadata).next with
      disk := overwrite d.disk (0 * sector)
        (slice (overwrite d.frame 0 m.metadata) 0 (dataStart * sector)) } : Device)) = _
    rw [hback]
  · show slice (overwrite d.disk (0 * sector) m.metadata) 0 metaBytes = _
    rw [← hmeta]
    exact slice_overwrite_self hroom
  · intro off len hoff
    refine slice_overwrite_of_apart hroom (Or.inr ?_)
    rw [hmeta]
    unfold sector
    omega

/-- `persist_meta` changes no file. -/
theorem Sound.persist (h : Sound m d c) :
    ∃ d', m.persistMeta d = (.ok (), d') ∧ Sound m d' c ∧ Persisted m d' := by
  obtain ⟨d', hpersist, hfits, hp, hdisk⟩ := h.fits.persist
  exact ⟨d', hpersist, h.with_device hfits.length_frame hfits.statuses
    (hfits.length_disk.trans h.length_disk.symm) hdisk, hp⟩

/-! ### A file more, a file less -/

/-- `m'` is `m` with a file in the free slot `i`. -/
structure Filled (m m' : Mount) (i : Nat) (name : List UInt8) (e : Entry) : Prop where
  file : m'.Holds i name e
  fresh : ∀ name e, ¬ m.Holds i name e
  other : ∀ {j name e}, j ≠ i → (m'.Holds j name e ↔ m.Holds j name e)

/-- A slot holds one file. -/
theorem Holds.same {name' : List UInt8} (h : m.Holds i name e) (h' : m.Holds i name' e') :
    name' = name ∧ e' = e := by
  have hview := h'.2.symm.trans h.2
  exact Prod.mk.inj (Option.some.inj hview)

/-- The file of a slot of `m'`: the new one, or one of `m`. -/
theorem Filled.cases {name' : List UInt8} (h : Filled m m' i name e) (hfile : m'.Holds j name' e') :
    (j = i ∧ name' = name ∧ e' = e) ∨ (j ≠ i ∧ m.Holds j name' e') := by
  by_cases hj : j = i
  · subst hj
    exact Or.inl ⟨rfl, Holds.same h.file hfile⟩
  · exact Or.inr ⟨hj, (h.other hj).mp hfile⟩

theorem Filled.ne (h : Filled m m' i name e) {name' : List UInt8} (hfile : m.Holds j name' e') :
    j ≠ i := by
  rintro rfl
  exact h.fresh _ _ hfile

/-- Two runs of sectors without a common sector lie apart. -/
theorem apart_of_no_common (he : 0 < e.byteLen) (he' : 0 < e'.byteLen)
    (h : ∀ k, Covers e k → ¬ Covers e' k) :
    e.firstSector + e.sectorCount ≤ e'.firstSector ∨
      e'.firstSector + e'.sectorCount ≤ e.firstSector := by
  have hpos : 0 < e.sectorCount := by
    unfold Entry.sectorCount
    omega
  have hpos' : 0 < e'.sectorCount := by
    unfold Entry.sectorCount
    omega
  by_contra hover
  rw [not_or] at hover
  exact h (max e.firstSector e'.firstSector) ⟨by omega, by omega⟩ ⟨by omega, by omega⟩

/-- A new file in clear sectors. -/
theorem Sound.add (h : Sound m d c) (hfill : Filled m m' i name ⟨dataStart + rel, data.length⟩)
    (hnew : ∀ j e, ¬ m.Holds j name e) (hdata : 0 < data.length ∧ data.length ≤ maxFileBytes)
    (hrun : rel + sectors data.length ≤ m.dataSectors)
    (hclear : ∀ k, rel ≤ k → k < rel + sectors data.length → bit m.bitmap k = false)
    (hbits : ∀ k, bit m'.bitmap k =
      if rel ≤ k ∧ k < rel + sectors data.length then true else bit m.bitmap k)
    (hcount : m'.dataSectors = m.dataSectors) (hmeta : m'.metadata.length = metaBytes)
    (hframe : d'.frame.length = maxFileBytes) (hst : ∀ status ∈ d'.statuses, status = blkOk)
    (hlen : d'.disk.length = d.disk.length)
    (hwritten : slice d'.disk ((dataStart + rel) * sector) data.length = data)
    (hdisk : ∀ {off len}, off + len ≤ (dataStart + rel) * sector ∨
      (dataStart + rel) * sector + sectors data.length * sector ≤ off →
      slice d'.disk off len = slice d.disk off len) :
    Sound m' d' (Function.update c name (some data)) := by
  have hfew := h.few
  -- The sectors of the files that were there are marked, and the run was clear.
  have hapart : ∀ {j name' e'}, m.Holds j name' e' →
      dataStart + rel + sectors data.length ≤ e'.firstSector ∨
        e'.firstSector + e'.sectorCount ≤ dataStart + rel := by
    intro j name' e' hfile
    obtain ⟨hlow, hhigh, hpos, -⟩ := h.extent hfile
    refine apart_of_no_common (e := ⟨dataStart + rel, data.length⟩) hdata.1 hpos ?_
    intro k hcover hcover'
    obtain ⟨hk, hk'⟩ := hcover
    have hk' : k < dataStart + rel + sectors data.length := hk'
    have hk : dataStart + rel ≤ k := hk
    have hback : dataStart + (k - dataStart) = k := by omega
    have hset := (h.bits (k - dataStart) (by omega)).mpr ⟨j, name', e', hfile, by
      rw [hback]
      exact hcover'⟩
    rw [hclear _ (by omega) (by omega)] at hset
    cases hset
  refine ⟨by rw [hcount]; exact hfew, hmeta, by rw [hlen, hcount]; exact h.length_disk, hframe, hst,
    ?_, ?_, ?_, ?_, ?_, ?_⟩
  · intro j l name' e' e'' hj hl
    rcases hfill.cases hj with ⟨rfl, rfl, rfl⟩ | ⟨hji, hj⟩
    · rcases hfill.cases hl with ⟨rfl, -, -⟩ | ⟨-, hl⟩
      · rfl
      · exact absurd hl (hnew _ _)
    · rcases hfill.cases hl with ⟨-, rfl, -⟩ | ⟨-, hl⟩
      · exact absurd hj (hnew _ _)
      · exact h.unique hj hl
  · intro j name' e' hj
    rw [hcount]
    rcases hfill.cases hj with ⟨-, -, rfl⟩ | ⟨-, hj⟩
    · refine ⟨Nat.le_add_right _ _, ?_, hdata.1, hdata.2⟩
      show dataStart + rel + sectors data.length ≤ _
      omega
    · exact h.extent hj
  · intro j l name' name'' e' e'' hj hl hjl
    rcases hfill.cases hj with ⟨rfl, -, rfl⟩ | ⟨-, hj⟩
    · rcases hfill.cases hl with ⟨rfl, -, -⟩ | ⟨-, hl⟩
      · exact absurd rfl hjl
      · exact hapart hl
    · rcases hfill.cases hl with ⟨-, -, rfl⟩ | ⟨-, hl⟩
      · exact (hapart hj).symm
      · exact h.apart hj hl hjl
  · intro k hk
    rw [hbits k]
    constructor
    · intro hset
      by_cases hin : rel ≤ k ∧ k < rel + sectors data.length
      · refine ⟨i, name, _, hfill.file, Nat.add_le_add_left hin.1 _, ?_⟩
        show dataStart + k < dataStart + rel + sectors data.length
        omega
      · rw [if_neg hin] at hset
        obtain ⟨j, name', e', hj, hcover⟩ := (h.bits k hk).mp hset
        exact ⟨j, name', e', (hfill.other (hfill.ne hj)).mpr hj, hcover⟩
    · rintro ⟨j, name', e', hj, hcover⟩
      rcases hfill.cases hj with ⟨-, -, rfl⟩ | ⟨-, hj⟩
      · have hlow : dataStart + rel ≤ dataStart + k := hcover.1
        have hhigh : dataStart + k < dataStart + rel + sectors data.length := hcover.2
        rw [if_pos ⟨by omega, by omega⟩]
      · have hset := (h.bits k hk).mpr ⟨j, name', e', hj, hcover⟩
        split
        · rfl
        · exact hset
  · intro j name' e' hj
    rcases hfill.cases hj with ⟨-, rfl, rfl⟩ | ⟨-, hj⟩
    · rw [Function.update_self, hwritten]
    · have hother : name' ≠ name := by
        rintro rfl
        exact hnew _ _ hj
      have hbytes := byteLen_le e'
      rw [Function.update_of_ne hother, h.stored hj, hdisk]
      rcases hapart hj with hafter | hbefore
      · refine Or.inr ?_
        rw [← Nat.add_mul]
        exact Nat.mul_le_mul_right _ hafter
      · refine Or.inl (Nat.le_trans (Nat.add_le_add_left hbytes _) ?_)
        rw [← Nat.add_mul]
        exact Nat.mul_le_mul_right _ hbefore
  · intro name' data' hknown
    by_cases hname : name' = name
    · subst hname
      exact ⟨i, _, hfill.file⟩
    · rw [Function.update_of_ne hname] at hknown
      obtain ⟨j, e', hj⟩ := h.known hknown
      exact ⟨j, e', (hfill.other (hfill.ne hj)).mpr hj⟩

/-- A file that is gone: its sectors are cleared, and its bytes stay on the disk. -/
theorem Sound.drop (h : Sound m d c) (hfill : Filled m' m i name e)
    (hbits : ∀ k, bit m'.bitmap k =
      if e.firstSector ≤ dataStart + k ∧ dataStart + k < e.firstSector + e.sectorCount then false
      else bit m.bitmap k)
    (hcount : m'.dataSectors = m.dataSectors) (hmeta : m'.metadata.length = metaBytes) :
    Sound m' d (Function.update c name none) := by
  have hold : ∀ {j name' e'}, m'.Holds j name' e' → m.Holds j name' e' := fun hj =>
    (hfill.other (hfill.ne hj)).mpr hj
  refine ⟨by rw [hcount]; exact h.few, hmeta, by rw [hcount]; exact h.length_disk, h.length_frame,
    h.statuses, fun hj hl => h.unique (hold hj) (hold hl), ?_,
    fun hj hl hjl => h.apart (hold hj) (hold hl) hjl, ?_, ?_, ?_⟩
  · intro j name' e' hj
    rw [hcount]
    exact h.extent (hold hj)
  · intro k hk
    rw [hbits k]
    constructor
    · intro hset
      split at hset
      · cases hset
      · rename_i hout
        obtain ⟨j, name', e', hj, hcover⟩ := (h.bits k hk).mp hset
        have hji : j ≠ i := by
          rintro rfl
          obtain ⟨-, rfl⟩ := Holds.same hfill.file hj
          exact hout hcover
        exact ⟨j, name', e', (hfill.other hji).mp hj, hcover⟩
    · rintro ⟨j, name', e', hj, hcover⟩
      have hapart := h.apart (hold hj) hfill.file (hfill.ne hj)
      obtain ⟨hlow, hhigh⟩ := hcover
      rw [if_neg (by omega)]
      exact (h.bits k hk).mpr ⟨j, name', e', hold hj, hlow, hhigh⟩
  · intro j name' e' hj
    have hother : name' ≠ name := by
      rintro rfl
      exact hfill.ne hj (h.unique (hold hj) hfill.file)
    rw [Function.update_of_ne hother]
    exact h.stored (hold hj)
  · intro name' data' hknown
    by_cases hname : name' = name
    · subst hname
      rw [Function.update_self] at hknown
      cases hknown
    · rw [Function.update_of_ne hname] at hknown
      obtain ⟨j, e', hj⟩ := h.known hknown
      have hji : j ≠ i := by
        rintro rfl
        exact hname (Holds.same hfill.file hj).1
      exact ⟨j, e', (hfill.other hji).mp hj⟩

/-! ### The calls -/

/-- To take a run from the bitmap and give it back restores the mount. -/
theorem tryFree_alloc {r : Nat × List UInt8} {n : Nat} (hmeta : m.metadata.length = metaBytes)
    (hfew : m.dataSectors ≤ 4096) (h : Bitmap.alloc m.bitmap m.dataSectors n = .ok r) :
    (m.setBitmap r.2).tryFree r.1 n = m := by
  have hlen : r.2.length = bitmapBytes := by
    rw [(alloc_ok h).1, length_setBits, length_bitmap hmeta]
  have hfree := free_alloc (Nat.lt_of_le_of_lt hfew (by decide)) h
  unfold Mount.tryFree
  rw [bitmap_setBitmap hmeta hlen, show (m.setBitmap r.2).dataSectors = m.dataSectors from rfl,
    hfree]
  exact setBitmap_setBitmap hmeta hlen

/-- What a change of the directory means for the files. -/
theorem Filled.of_view {dir dir' : List UInt8} (hdir : m.dir = dir) (hdir' : m'.dir = dir')
    (hlen : dir'.length = dir.length) (hi : i < Directory.capacity dir.length)
    (hfree : view dir i = none) (hview : view dir' i = some (name, e))
    (hother : ∀ j, j ≠ i → view dir' j = view dir j) : Filled m m' i name e := by
  subst hdir hdir'
  refine ⟨⟨by rw [hlen]; exact hi, hview⟩, ?_, ?_⟩
  · rintro name e ⟨-, hfile⟩
    rw [hfree] at hfile
    cases hfile
  · intro j name e hj
    unfold Mount.Holds
    rw [hlen, hother j hj]

/-- The frame that `create` fills: the data, padded with zeros to whole sectors. -/
theorem frame_put {n : Nat} (hlen : data.length ≤ n) (hframe : n ≤ d.frame.length) :
    ((d.put (zeros n)).put data).frame.length = d.frame.length ∧
      slice ((d.put (zeros n)).put data).frame 0 data.length = data := by
  have hzeros : (overwrite d.frame 0 (zeros n)).length = d.frame.length :=
    length_overwrite (by
      rw [length_zeros]
      omega)
  have hroom : 0 + data.length ≤ (overwrite d.frame 0 (zeros n)).length := by
    rw [hzeros]
    omega
  exact ⟨(length_overwrite hroom).trans hzeros, slice_overwrite_self hroom⟩

theorem Device.write_ok (h : d.status = blkOk) (first count : Nat) :
    d.write first count = (blkOk, { d.next with
      disk := overwrite d.disk (first * sector) (slice d.frame 0 (count * sector)) }) := by
  unfold Device.write
  rw [h, if_pos rfl]

theorem Device.read_ok (h : d.status = blkOk) (first count : Nat) :
    d.read first count = (blkOk, { d.next with
      frame := overwrite d.frame 0 (slice d.disk (first * sector) (count * sector)) }) := by
  unfold Device.read
  rw [h, if_pos rfl]

/-- The write of `create`: the data are on the disk, and the other sectors are as before. -/
theorem Sound.write_data (h : Sound m d c) (first : Nat) (hmax : data.length ≤ maxFileBytes)
    (hroom : first + sectors data.length ≤ dataStart + m.dataSectors) :
    ∃ d', ((d.put (zeros (sectors data.length * sector))).put data).write first
        (sectors data.length) = (blkOk, d') ∧
      d'.frame.length = maxFileBytes ∧ (∀ status ∈ d'.statuses, status = blkOk) ∧
      d'.disk.length = d.disk.length ∧ slice d'.disk (first * sector) data.length = data ∧
      ∀ {off len}, off + len ≤ first * sector ∨
        first * sector + sectors data.length * sector ≤ off →
        slice d'.disk off len = slice d.disk off len := by
  have hfull := sectors_le hmax
  have hpad : data.length ≤ sectors data.length * sector := byteLen_le ⟨0, data.length⟩
  obtain ⟨hlen, hdata⟩ := frame_put (d := d) hpad (by
    rw [h.length_frame]
    exact hfull)
  have hst : ((d.put (zeros (sectors data.length * sector))).put data).status = blkOk := h.status
  have hstatuses : ∀ status ∈ ((d.put (zeros (sectors data.length * sector))).put
      data).next.statuses, status = blkOk := statuses_next h.statuses
  have hend : first * sector + sectors data.length * sector ≤ d.disk.length := by
    rw [h.length_disk, ← Nat.add_mul]
    exact Nat.mul_le_mul_right _ hroom
  rw [Device.write_ok hst]
  -- The block that goes to the disk starts with the data.
  obtain ⟨block, hblock⟩ : ∃ block, block = slice ((d.put (zeros (sectors data.length *
      sector))).put data).frame 0 (sectors data.length * sector) := ⟨_, rfl⟩
  have hblocklen : block.length = sectors data.length * sector := by
    rw [hblock, length_slice (by
      rw [hlen, h.length_frame, Nat.zero_add]
      exact hfull)]
  have hstart : slice block 0 data.length = data := by
    rw [hblock, slice_slice (by omega)]
    exact hdata
  rw [← hblocklen] at hend
  rw [← hblock]
  refine ⟨_, rfl, hlen.trans h.length_frame, hstatuses, length_overwrite hend, ?_, ?_⟩
  · have hself : slice (overwrite d.disk (first * sector) block) (first * sector) block.length =
        block := slice_overwrite_self hend
    calc slice (overwrite d.disk (first * sector) block) (first * sector) data.length
        = slice (slice (overwrite d.disk (first * sector) block) (first * sector) block.length) 0
            data.length := (slice_start (by rw [hblocklen]; exact hpad)).symm
      _ = data := by rw [hself, hstart]
  · intro off len hout
    refine slice_overwrite_of_apart hend ?_
    rw [hblocklen]
    exact hout

/-- `create` with a run of sectors and a slot for the name stores the file. -/
theorem Sound.create_done {r : Nat × List UInt8} {dir : List UInt8} (h : Sound m d c)
    (hnul : 0 ∉ name) (hne : data ≠ []) (hmax : data.length ≤ maxFileBytes)
    (halloc : Bitmap.alloc m.bitmap m.dataSectors (sectors data.length) = .ok r)
    (hcreate : Directory.create m.dir name (dataStart + r.1) data.length = .ok dir) :
    ∃ m' d', m.create d name data = (.ok (), m', d') ∧
      Sound m' d' (Function.update c name (some data)) ∧ Persisted m' d' := by
  have hmeta := h.length_metadata
  have hfew := h.few
  have hpos : 0 < data.length := List.length_pos_iff.mpr hne
  obtain ⟨rel, bitmap⟩ := r
  obtain ⟨hmap, hrun, htotal, hclear⟩ := alloc_ok halloc
  have hlen : bitmap.length = bitmapBytes := by
    rw [show bitmap = _ from hmap, length_setBits, length_bitmap hmeta]
  have hmeta1 := length_setBitmap hmeta hlen
  have hword : (dataStart + rel) % 2 ^ 32 = dataStart + rel :=
    Nat.mod_eq_of_lt (by
      unfold dataStart
      omega)
  obtain ⟨hdirlen, hnew, i, hi, hfree, hview, hother⟩ := create_ok hnul
    (by
      unfold dataStart
      omega)
    (Nat.lt_of_le_of_lt hmax (by decide)) hcreate
  have hdirlen' : dir.length = dirBytes := hdirlen.trans (length_dir hmeta)
  obtain ⟨d1, hwrite, hframe, hst, hdisklen, hwritten, hdisk⟩ :=
    h.write_data (dataStart + rel) hmax (by omega)
  have hsound : Sound ((m.setBitmap bitmap).setDir dir) d1
      (Function.update c name (some data)) := by
    refine h.add (Filled.of_view rfl ?_ hdirlen hi hfree hview hother)
      (fun j e hfile => hnew j e hfile.1 hfile.2) ⟨hpos, hmax⟩ hrun hclear ?_ rfl
      (length_setDir hmeta1 hdirlen') hframe hst hdisklen hwritten hdisk
    · exact dir_setDir hmeta1 hdirlen'
    · intro k
      rw [bitmap_setDir hmeta1 hdirlen', bitmap_setBitmap hmeta hlen,
        show bitmap = _ from hmap, bit_setBits (by omega)]
  obtain ⟨d2, hpersist, hsound2, hp2⟩ := hsound.persist
  refine ⟨_, d2, ?_, hsound2, hp2⟩
  unfold Mount.create
  rw [if_neg (not_or.mpr ⟨hne, Nat.not_lt.mpr hmax⟩)]
  dsimp only at hcreate ⊢
  rw [halloc]
  dsimp only
  rw [hword, dir_setBitmap hmeta hlen, hcreate]
  dsimp only
  rw [hwrite]
  dsimp only
  rw [if_neg (fun hne => hne rfl), hpersist]

/-- `create` stores the file under its name, or fails and changes nothing. -/
theorem Sound.create (h : Sound m d c) (data : List UInt8) (hnul : 0 ∉ name) :
    (∃ x, m.create d name data = (.error x, m, d)) ∨
    ∃ m' d', m.create d name data = (.ok (), m', d') ∧
      Sound m' d' (Function.update c name (some data)) ∧ Persisted m' d' := by
  have hmeta := h.length_metadata
  by_cases hsize : data = [] ∨ data.length > maxFileBytes
  · refine Or.inl ⟨.invalidLen, ?_⟩
    unfold Mount.create
    rw [if_pos hsize]
  · cases halloc : Bitmap.alloc m.bitmap m.dataSectors (sectors data.length) with
    | error x =>
      refine Or.inl ⟨.bitmap x, ?_⟩
      unfold Mount.create
      rw [if_neg hsize]
      dsimp only
      rw [halloc]
    | ok r =>
      cases hcreate : Directory.create m.dir name (dataStart + r.1) data.length with
      | ok dir =>
        rw [not_or] at hsize
        exact Or.inr (h.create_done hnul hsize.1 (Nat.le_of_not_lt hsize.2) halloc hcreate)
      | error x =>
        have hfew := h.few
        obtain ⟨hmap, hrun, -, -⟩ := alloc_ok halloc
        have hlen : r.2.length = bitmapBytes := by
          rw [hmap, length_setBits, length_bitmap hmeta]
        have hword : (dataStart + r.1) % 2 ^ 32 = dataStart + r.1 :=
          Nat.mod_eq_of_lt (by
            unfold dataStart
            omega)
        refine Or.inl ⟨.dir x, ?_⟩
        unfold Mount.create
        rw [if_neg hsize]
        dsimp only
        rw [halloc]
        dsimp only
        rw [hword, dir_setBitmap hmeta hlen, hcreate]
        dsimp only
        rw [tryFree_alloc hmeta hfew halloc]

/-- `delete` drops the file, or finds none and changes nothing. -/
theorem Sound.delete (h : Sound m d c) (name : List UInt8) :
    (∃ x, m.delete d name = (.error x, m, d)) ∨
    ∃ m' d', m.delete d name = (.ok (), m', d') ∧
      Sound m' d' (Function.update c name none) ∧ Persisted m' d' := by
  have hmeta := h.length_metadata
  have hfew := h.few
  unfold Mount.delete
  cases hremove : Directory.remove m.dir name with
  | error x => exact Or.inl ⟨_, rfl⟩
  | ok r =>
    obtain ⟨entry, dir⟩ := r
    obtain ⟨hdirlen, i, hi, hview, hfree, hother⟩ := remove_ok hremove
    have hdirlen' : dir.length = dirBytes := hdirlen.trans (length_dir hmeta)
    have hmeta1 := length_setDir hmeta hdirlen'
    obtain ⟨hlow, hhigh, -, -⟩ := h.extent (show m.Holds i name entry from ⟨hi, hview⟩)
    have hword : (entry.firstSector + 2 ^ 32 - dataStart) % 2 ^ 32 =
        entry.firstSector - dataStart := by
      unfold dataStart at *
      omega
    have hcap : m.dataSectors ≤ Bitmap.capacity m.bitmap.length := by
      rw [length_bitmap hmeta]
      exact hfew
    have hbitmap : (setBits m.bitmap (entry.firstSector - dataStart) entry.sectorCount
        false).length = bitmapBytes := by
      rw [length_setBits, length_bitmap hmeta]
    have hfreed : Bitmap.free (m.setDir dir).bitmap (m.setDir dir).dataSectors
        (entry.firstSector - dataStart) entry.sectorCount =
          .ok (setBits m.bitmap (entry.firstSector - dataStart) entry.sectorCount false) := by
      rw [bitmap_setDir hmeta hdirlen']
      show Bitmap.free m.bitmap m.dataSectors _ _ = _
      exact free_ok hcap (by omega) (Nat.lt_of_le_of_lt hfew (by decide))
    have hback : Filled ((m.setDir dir).setBitmap (setBits m.bitmap (entry.firstSector - dataStart)
        entry.sectorCount false)) m i name entry := by
      have hdir : ((m.setDir dir).setBitmap (setBits m.bitmap (entry.firstSector - dataStart)
          entry.sectorCount false)).dir = dir := by
        rw [dir_setBitmap hmeta1 hbitmap, dir_setDir hmeta hdirlen']
      refine Filled.of_view hdir rfl hdirlen.symm (by rw [hdirlen]; exact hi) hfree hview ?_
      intro j hj
      exact (hother j hj).symm
    have hsound := h.drop hback (fun k => by
      rw [bitmap_setBitmap hmeta1 hbitmap, bit_setBits (by omega)]
      by_cases hin : entry.firstSector ≤ dataStart + k ∧
          dataStart + k < entry.firstSector + entry.sectorCount
      · rw [if_pos hin, if_pos (by omega)]
      · rw [if_neg hin, if_neg (by omega)]) rfl (length_setBitmap hmeta1 hbitmap)
    obtain ⟨d1, hpersist, hsound1, hp1⟩ := hsound.persist
    refine Or.inr ⟨_, d1, ?_, hsound1, hp1⟩
    dsimp only
    rw [hword, hfreed]
    dsimp only
    rw [hpersist]

/-- `read` of a name that the map has: its bytes, if they fit into the buffer. -/
theorem Sound.read_some (h : Sound m d c) (hname : c name = some data) (hout : data.length ≤
    out.length) : ∃ d', m.read d name out = (.ok data.length, overwrite out 0 data, d') := by
  obtain ⟨j, e', hfile⟩ := h.known hname
  unfold Mount.read
  cases hfind : Directory.find m.dir name with
  | error x => exact absurd hfile.2 ((find_error hfind).2 j e' hfile.1)
  | ok e =>
    obtain ⟨i, hi, hview⟩ := find_ok hfind
    have hstored := h.stored (show m.Holds i name e from ⟨hi, hview⟩)
    obtain ⟨-, hend, -, hmax⟩ := h.extent (show m.Holds i name e from ⟨hi, hview⟩)
    have hdata : data = slice d.disk (e.firstSector * sector) e.byteLen :=
      Option.some.inj (hname.symm.trans hstored)
    have hroom : e.firstSector * sector + e.sectorCount * sector ≤ d.disk.length := by
      rw [h.length_disk, ← Nat.add_mul]
      exact Nat.mul_le_mul_right _ hend
    have hbytes := byteLen_le e
    have hlen : data.length = e.byteLen := by
      rw [hdata, length_slice (by omega)]
    -- The frame has the sectors of the file, which start with its bytes.
    have hblock : (slice d.disk (e.firstSector * sector) (e.sectorCount * sector)).length =
        e.sectorCount * sector := length_slice hroom
    have hfit : 0 + (slice d.disk (e.firstSector * sector) (e.sectorCount * sector)).length ≤
        d.frame.length := by
      rw [hblock, h.length_frame, Nat.zero_add]
      exact sectors_le hmax
    have hread : slice (overwrite d.frame 0 (slice d.disk (e.firstSector * sector)
        (e.sectorCount * sector))) 0 e.byteLen = data := by
      have hself := slice_overwrite_self hfit
      rw [← slice_start (show e.byteLen ≤ (slice d.disk (e.firstSector * sector)
          (e.sectorCount * sector)).length by rw [hblock]; exact hbytes), hself,
        slice_start hbytes, hdata]
    dsimp only
    rw [if_neg (by omega), Device.read_ok h.status]
    dsimp only
    rw [if_neg (fun hne => hne rfl), hread, hlen]
    exact ⟨_, rfl⟩

/-- `read` of a name that the map does not have. -/
theorem Sound.read_none (h : Sound m d c) (hname : c name = none) (out : List UInt8) :
    m.read d name out = (.error (.dir .notFound), out, d) := by
  unfold Mount.read
  cases hfind : Directory.find m.dir name with
  | error x =>
    rw [(find_error hfind).1]
  | ok e =>
    obtain ⟨i, hi, hview⟩ := find_ok hfind
    have hstored := h.stored (show m.Holds i name e from ⟨hi, hview⟩)
    rw [hname] at hstored
    cases hstored

/-- `read` changes the frame at most. -/
theorem Sound.read (h : Sound m d c) (hp : Persisted m d) (name out : List UInt8) :
    Sound m (m.read d name out).2.2 c ∧ Persisted m (m.read d name out).2.2 := by
  unfold Mount.read
  cases hfind : Directory.find m.dir name with
  | error x => exact ⟨h, hp⟩
  | ok e =>
    obtain ⟨i, hi, hview⟩ := find_ok hfind
    obtain ⟨-, hend, -, hmax⟩ := h.extent (show m.Holds i name e from ⟨hi, hview⟩)
    have hroom : e.firstSector * sector + e.sectorCount * sector ≤ d.disk.length := by
      rw [h.length_disk, ← Nat.add_mul]
      exact Nat.mul_le_mul_right _ hend
    have hfit : 0 + (slice d.disk (e.firstSector * sector) (e.sectorCount * sector)).length ≤
        d.frame.length := by
      rw [length_slice hroom, h.length_frame, Nat.zero_add]
      exact sectors_le hmax
    dsimp only
    split
    · exact ⟨h, hp⟩
    · rw [Device.read_ok h.status]
      dsimp only
      rw [if_neg (fun hne => hne rfl)]
      exact ⟨h.with_device ((length_overwrite hfit).trans h.length_frame)
        (statuses_next h.statuses) rfl (fun _ => rfl), hp⟩

/-! ### A new filesystem -/

theorem length_emptyMeta (n : Nat) : (emptyMeta n).length = metaBytes := by
  have hmagic : (overwrite (zeros metaBytes) 0 magic).length = metaBytes := by
    rw [length_overwrite (by rw [length_zeros]; decide), length_zeros]
  unfold emptyMeta
  rw [length_overwrite (by rw [hmagic, length_leBytes]; decide), hmagic]

/-- Behind the superblock the metadata are zero. -/
theorem slice_emptyMeta (n : Nat) {off len : Nat} (hlow : 12 ≤ off)
    (hhigh : off + len ≤ metaBytes) :
    slice (emptyMeta n) off len = zeros len := by
  have hmagic : (overwrite (zeros metaBytes) 0 magic).length = metaBytes := by
    rw [length_overwrite (by rw [length_zeros]; decide), length_zeros]
  unfold emptyMeta
  rw [slice_overwrite_of_apart (by rw [hmagic, length_leBytes]; decide)
      (Or.inr (by rw [length_leBytes]; exact hlow)),
    slice_overwrite_of_apart (by rw [length_zeros]; decide) (Or.inr (by
      show 0 + 8 ≤ off
      omega))]
  unfold slice zeros
  rw [List.drop_replicate, List.take_replicate, Nat.min_eq_left (by omega)]

theorem slice_emptyMeta_magic (n : Nat) : slice (emptyMeta n) 0 magic.length = magic := by
  have hmagic : (overwrite (zeros metaBytes) 0 magic).length = metaBytes := by
    rw [length_overwrite (by rw [length_zeros]; decide), length_zeros]
  unfold emptyMeta
  rw [slice_overwrite_of_apart (by rw [hmagic, length_leBytes]; decide) (Or.inl (by decide))]
  exact slice_overwrite_self (by rw [length_zeros]; decide)

theorem getD_slice_zeros (n off len i : Nat) : (slice (zeros n) off len).getD i 0 = 0 := by
  unfold slice zeros
  rw [List.drop_replicate, List.take_replicate, List.getD_eq_getElem?_getD,
    List.getElem?_replicate]
  split
  · rfl
  · rfl

theorem view_zeros (n i : Nat) : view (zeros n) i = none := by
  have hfree : isFree (slot (zeros n) i) = true := beq_iff_eq.mpr (getD_slice_zeros n _ _ 0)
  unfold view
  rw [if_pos hfree]

theorem bit_zeros (n i : Nat) : bit (zeros n) i = false := by
  rw [bit_eq]
  unfold zeros
  rw [List.getD_eq_getElem?_getD, List.getElem?_replicate]
  split
  · exact Nat.zero_testBit _
  · exact Nat.zero_testBit _

/-- `format` writes the metadata of an empty filesystem, on a range of any size. -/
theorem format_fits (hlow : dataStart < total) (hdisk : d.disk.length = total * sector)
    (hframe : d.frame.length = maxFileBytes) (hok : ∀ status ∈ d.statuses, status = blkOk) :
    ∃ d', Mount.format total d = (.ok ⟨total - dataStart, emptyMeta (total - dataStart)⟩, d') ∧
      Fits ⟨total - dataStart, emptyMeta (total - dataStart)⟩ d' ∧
      Persisted ⟨total - dataStart, emptyMeta (total - dataStart)⟩ d' := by
  obtain ⟨m, hm⟩ : ∃ m : Mount, m = ⟨total - dataStart, emptyMeta (total - dataStart)⟩ := ⟨_, rfl⟩
  have hmeta : m.metadata.length = metaBytes := by
    rw [hm]
    exact length_emptyMeta _
  have hsectors : m.dataSectors = total - dataStart := by rw [hm]
  have hfits : Fits m d := ⟨hmeta, by rw [hdisk, hsectors]; congr 1; omega, hframe, hok⟩
  obtain ⟨d1, hpersist, hfits1, hp1, -⟩ := hfits.persist
  have hback : slice d1.disk (0 * sector) (dataStart * sector) = m.metadata := hp1
  have hfit : 0 + m.metadata.length ≤ d1.frame.length := by
    rw [hmeta, hfits1.length_frame]
    decide
  have hread : slice (overwrite d1.frame 0 m.metadata) 0 metaBytes = m.metadata := by
    rw [← hmeta]
    exact slice_overwrite_self hfit
  have hmagic : slice m.metadata 0 magic.length = magic := by
    rw [hm]
    exact slice_emptyMeta_magic _
  refine ⟨{ d1.next with frame := overwrite d1.frame 0 m.metadata }, ?_, ?_, ?_⟩
  · subst hm
    unfold Mount.format
    rw [if_neg (by omega)]
    dsimp only at hback hread hmagic ⊢
    rw [hpersist]
    dsimp only
    rw [Device.read_ok hfits1.status, hback]
    dsimp only
    rw [if_neg (fun hne => hne rfl), hread, if_neg (fun hne => hne hmagic),
      if_neg (fun hne => hne rfl)]
  · subst hm
    exact ⟨hmeta, hfits1.length_disk, (length_overwrite hfit).trans hfits1.length_frame,
      statuses_next hfits1.statuses⟩
  · subst hm
    exact hp1

/-- The bitmap and the directory of a new filesystem are zero. -/
theorem bitmap_emptyMeta (n : Nat) :
    (⟨n, emptyMeta n⟩ : Mount).bitmap = zeros bitmapBytes :=
  slice_emptyMeta _ (by decide) (by decide)

theorem dir_emptyMeta (n : Nat) : (⟨n, emptyMeta n⟩ : Mount).dir = zeros dirBytes :=
  slice_emptyMeta _ (by decide) (by decide)

/-- `format` lays out a filesystem without files. -/
theorem format_sound (hlow : dataStart < total) (hhigh : total ≤ dataStart + 4096)
    (hdisk : d.disk.length = total * sector) (hframe : d.frame.length = maxFileBytes)
    (hok : ∀ status ∈ d.statuses, status = blkOk) :
    ∃ m d', Mount.format total d = (.ok m, d') ∧ Sound m d' (fun _ => none) ∧ Persisted m d' := by
  obtain ⟨d', hformat, hfits, hp⟩ := format_fits hlow hdisk hframe hok
  have hnone : ∀ i name e, ¬ Mount.Holds ⟨total - dataStart, emptyMeta (total - dataStart)⟩ i name
      e := by
    rintro i name e ⟨-, hview⟩
    rw [dir_emptyMeta, view_zeros] at hview
    cases hview
  refine ⟨_, d', hformat, ?_, hp⟩
  refine ⟨Nat.sub_le_iff_le_add'.mpr hhigh, hfits.length_metadata, hfits.length_disk,
    hfits.length_frame, hfits.statuses, fun hi => absurd hi (hnone _ _ _),
    fun hi => absurd hi (hnone _ _ _), fun hi => absurd hi (hnone _ _ _), ?_,
    fun hi => absurd hi (hnone _ _ _), fun hname => nomatch hname⟩
  intro k _
  rw [bitmap_emptyMeta, bit_zeros]
  constructor
  · intro hset
    cases hset
  · rintro ⟨i, name, e, hfile, -⟩
    exact absurd hfile (hnone i name e)

/-! ### Sessions -/

theorem contents_create (name data : List UInt8) (history : List Event) :
    contents (⟨.create name data, true⟩ :: history) =
      Function.update (contents history) name (some data) := by
  funext name'
  rw [Function.update_apply]
  rfl

theorem contents_delete (name : List UInt8) (history : List Event) :
    contents (⟨.delete name, true⟩ :: history) =
      Function.update (contents history) name none := by
  funext name'
  rw [Function.update_apply]
  rfl

/-- The mount and the device hold what the history says. -/
def Session.Good (s : Session) : Prop :=
  Sound s.mount s.device (contents s.history) ∧ Persisted s.mount s.device

theorem Session.step_create {s : Session} {r : Except RwfsError Unit}
    (h : s.mount.create s.device name data = (r, m, d)) :
    s.step (.create name data) = ⟨m, d, ⟨.create name data, r.isOk⟩ :: s.history⟩ := by
  unfold Session.step
  dsimp only
  rw [h]

theorem Session.step_delete {s : Session} {r : Except RwfsError Unit}
    (h : s.mount.delete s.device name = (r, m, d)) :
    s.step (.delete name) = ⟨m, d, ⟨.delete name, r.isOk⟩ :: s.history⟩ := by
  unfold Session.step
  dsimp only
  rw [h]

/-- One call. -/
theorem Session.Good.step {s : Session} (h : s.Good) {call : Call} (hnul : 0 ∉ call.name) :
    (s.step call).Good := by
  obtain ⟨hs, hp⟩ := h
  unfold Session.Good
  cases call with
  | create name data =>
    have hnul : 0 ∉ name := hnul
    rcases hs.create data hnul with ⟨x, hfail⟩ | ⟨m', d', hdone, hs', hp'⟩
    · rw [Session.step_create hfail]
      exact ⟨hs, hp⟩
    · rw [Session.step_create hdone]
      refine ⟨?_, hp'⟩
      show Sound m' d' (contents (⟨.create name data, true⟩ :: s.history))
      rw [contents_create]
      exact hs'
  | delete name =>
    rcases hs.delete name with ⟨x, hfail⟩ | ⟨m', d', hdone, hs', hp'⟩
    · rw [Session.step_delete hfail]
      exact ⟨hs, hp⟩
    · rw [Session.step_delete hdone]
      refine ⟨?_, hp'⟩
      show Sound m' d' (contents (⟨.delete name, true⟩ :: s.history))
      rw [contents_delete]
      exact hs'
  | read name out => exact hs.read hp name out
  | stat name => exact ⟨hs, hp⟩

/-- Every run of calls. -/
theorem Session.Good.run {s : Session} (h : s.Good) {calls : List Call}
    (hnul : ∀ call ∈ calls, 0 ∉ call.name) : (s.run calls).Good := by
  induction calls generalizing s with
  | nil => exact h
  | cons call rest ih =>
    exact ih (h.step (hnul call List.mem_cons_self))
      fun call' hmem => hnul call' (List.mem_cons_of_mem _ hmem)

/-- What a session shows of its map: `read` answers from it, the live files lie apart in the data
area, the bitmap marks their sectors, and the disk has the metadata. -/
structure Session.Agrees (s : Session) : Prop where
  present : ∀ name data out, contents s.history name = some data → data.length ≤ out.length →
    ∃ d', s.mount.read s.device name out = (.ok data.length, overwrite out 0 data, d')
  absent : ∀ name out, contents s.history name = none →
    s.mount.read s.device name out = (.error (.dir .notFound), out, s.device)
  inside : ∀ i name e, s.mount.Holds i name e → dataStart ≤ e.firstSector ∧
    e.firstSector + e.sectorCount ≤ dataStart + s.mount.dataSectors
  disjoint : ∀ i j name name' e e', s.mount.Holds i name e → s.mount.Holds j name' e' → i ≠ j →
    ∀ k, Covers e k → ¬ Covers e' k
  bits : ∀ k < 4096, bit s.mount.bitmap k = true ↔
    ∃ i name e, s.mount.Holds i name e ∧ Covers e (dataStart + k)
  persisted : slice s.device.disk 0 metaBytes = s.mount.metadata

theorem Session.Good.agrees {s : Session} (h : s.Good) : s.Agrees := by
  obtain ⟨hs, hp⟩ := h
  refine ⟨fun name data out hname hout => hs.read_some hname hout,
    fun name out hname => hs.read_none hname out, fun i name e hfile => ?_, ?_, hs.bits, hp⟩
  · obtain ⟨hlow, hhigh, -⟩ := hs.extent hfile
    exact ⟨hlow, hhigh⟩
  · intro i j name name' e e' hi hj hij k hcover hcover'
    obtain ⟨hlow, hhigh⟩ := hcover
    obtain ⟨hlow', hhigh'⟩ := hcover'
    rcases hs.apart hi hj hij with hbefore | hafter
    · omega
    · omega

/-- On a range with 1 to 4096 data sectors, every sequence of calls with names without zero bytes
leaves the filesystem as the map that its history says. -/
theorem files_agree {total : Nat} {d : Device} (hlow : dataStart < total)
    (hhigh : total ≤ dataStart + 4096) (hdisk : d.disk.length = total * sector)
    (hframe : d.frame.length = maxFileBytes) (hok : ∀ status ∈ d.statuses, status = blkOk) :
    ∃ m d', Mount.format total d = (.ok m, d') ∧ ∀ calls : List Call,
      (∀ call ∈ calls, ValidName call.name) → (Session.run ⟨m, d', []⟩ calls).Agrees := by
  obtain ⟨m, d', hformat, hs, hp⟩ := format_sound hlow hhigh hdisk hframe hok
  have hgood : Session.Good ⟨m, d', []⟩ := ⟨hs, hp⟩
  exact ⟨m, d', hformat, fun calls hnames =>
    (hgood.run fun call hmem => (hnames call hmem).2.2).agrees⟩

/-- A range with two data sectors. -/
theorem files_agree_small : ∃ m d',
    Mount.format 6 ⟨zeros 3072, zeros 4096, []⟩ = (.ok m, d') ∧
      (Session.run ⟨m, d', []⟩ [.create [0x61] [1, 2, 3], .create [0x62] [4], .delete [0x61],
        .create [0x61] [5]]).Agrees := by
  obtain ⟨m, d', hformat, hagrees⟩ := files_agree (d := ⟨zeros 3072, zeros 4096, []⟩)
    (show dataStart < 6 by decide) (by decide) (length_zeros _) (length_zeros _)
    (fun status hmem => nomatch hmem)
  exact ⟨m, d', hformat, hagrees _ (by decide)⟩

end Plinth.Rwfs
