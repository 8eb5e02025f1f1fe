import Plinth.Storage.Files

/-!
# `Plinth.Storage.Rollback`: what a failed update leaves

`create` and `delete` change the bitmap and the directory in memory before they write to the disk.
A failed `create` takes its changes back, up to the write of the data. Neither call takes anything
back when the last write fails, that of the metadata.

`failed_update_iff` says exactly which failed calls leave the bitmap and the directory as they were
(`Update.Undone`).
-/

set_option autoImplicit false

namespace Plinth.Rwfs

open Bytes Bitmap Directory

/-! ### Updates -/

/-- A call that changes the filesystem. -/
inductive Update where
  | create (name data : List UInt8)
  | delete (name : List UInt8)
  deriving DecidableEq, Repr

/-- The result, the mount and the device afterwards. -/
def Update.run (m : Mount) (d : Device) : Update → Except RwfsError Unit × Mount × Device
  | create name data => m.create d name data
  | delete name => m.delete d name

/-- The first sector and the slot of the file that `create` makes, if it gets as far as the first
write: the data, the bitmap and the directory all allow it. -/
def Mount.place (m : Mount) (name data : List UInt8) : Option (Nat × Nat) :=
  if data = [] ∨ data.length > maxFileBytes then none
  else
    match Bitmap.alloc m.bitmap m.dataSectors (sectors data.length) with
    | .error _ => none
    | .ok (rel, _) =>
      let absSector := (dataStart + rel) % 2 ^ 32
      match Directory.create m.dir name absSector data.length with
      | .error _ => none
      | .ok _ => (firstSlot m.dir fun i => isFree (slot m.dir i)).map fun i => (absSector, i)

/-- A failed update that takes all its changes back. A `create` either does not get as far as the
first write, or fails there; the slot it has filled is then cleared, or left as it is if the name
has a zero byte and is not found. A `delete` finds no such name. -/
def Update.Undone (m : Mount) (d : Device) : Update → Prop
  | create name data =>
    ∀ first i, m.place name data = some (first, i) →
      d.status ≠ blkOk ∧
        slot m.dir i = if 0 ∈ name then filled name first data.length else zeros entrySize
  | delete name => ∃ e, Directory.find m.dir name = .error e

/-! ### Buffers -/

section

variable {b src src' : List UInt8} {off i n start total : Nat}

/-- To write what is already there changes nothing. -/
theorem overwrite_slice (h : off + n ≤ b.length) : overwrite b off (slice b off n) = b := by
  refine List.ext_getElem? fun i => ?_
  rw [overwrite_getElem? (by rw [length_slice h]; exact h), length_slice h]
  by_cases hin : off ≤ i ∧ i < off + n
  · rw [if_pos hin, slice_getElem?, if_pos (by omega)]
    congr 1
    omega
  · rw [if_neg hin]

/-- Of two writes to one place the second stays. -/
theorem overwrite_overwrite (h : off + src.length ≤ b.length) (hlen : src'.length = src.length) :
    overwrite (overwrite b off src) off src' = overwrite b off src' := by
  have hsrc : off + src'.length ≤ b.length := by rw [hlen]; exact h
  have hsrc' : off + src'.length ≤ (overwrite b off src).length := by
    rw [length_overwrite h]
    exact hsrc
  refine List.ext_getElem? fun i => ?_
  rw [overwrite_getElem? hsrc', overwrite_getElem? hsrc, overwrite_getElem? h, hlen]
  by_cases hin : off ≤ i ∧ i < off + src.length
  · rw [if_pos hin, if_pos hin]
  · rw [if_neg hin, if_neg hin, if_neg hin]

/-- A bitmap with a run of clear bits differs from the one in which the run is set. -/
theorem setBits_ne (hpos : 0 < n) (hend : start + n ≤ Bitmap.capacity b.length)
    (hclear : bit b start = false) : setBits b start n true ≠ b := by
  intro heq
  have hset : bit (setBits b start n true) start = _ := bit_setBits hend start
  rw [if_pos ⟨Nat.le_refl _, by omega⟩, heq, hclear] at hset
  cases hset

theorem alloc_ne {r : Nat × List UInt8} (h : Bitmap.alloc b total n = .ok r) : r.2 ≠ b := by
  have hpos : 0 < n := by
    unfold Bitmap.alloc at h
    split at h
    · cases h
    · omega
  obtain ⟨hmap, hend, htotal, hclear⟩ := alloc_ok h
  rw [hmap]
  exact setBits_ne hpos (by omega) (hclear r.1 (Nat.le_refl _) (by omega))

/-- Writes to places that are apart can be exchanged. -/
theorem overwrite_comm {off' : Nat} (h : off + src.length ≤ b.length)
    (h' : off' + src'.length ≤ b.length)
    (hapart : off + src.length ≤ off' ∨ off' + src'.length ≤ off) :
    overwrite (overwrite b off src) off' src' = overwrite (overwrite b off' src') off src := by
  refine List.ext_getElem? fun i => ?_
  rw [overwrite_getElem? (by rw [length_overwrite h]; exact h'), overwrite_getElem? h,
    overwrite_getElem? (by rw [length_overwrite h']; exact h), overwrite_getElem? h']
  by_cases hin : off ≤ i ∧ i < off + src.length
  · rw [if_pos hin, if_pos hin, if_neg (by omega)]
  · rw [if_neg hin, if_neg hin]

theorem length_free {b' : List UInt8} (h : Bitmap.free b total start n = .ok b') :
    b'.length = b.length := by
  unfold Bitmap.free at h
  split at h
  · cases h
  · split at h
    · cases h
    · split at h
      · cases h
      · rw [← Except.ok.inj h, length_setBits]

/-- A slot is as it was exactly if it was already the record that is written. -/
theorem write_eq_iff (hi : i < Directory.capacity b.length) (hsrc : src.length = entrySize) :
    overwrite b (i * entrySize) src = b ↔ slot b i = src := by
  constructor
  · intro heq
    rw [← heq]
    exact slot_write_same hi hsrc
  · intro heq
    rw [← heq]
    exact overwrite_slice (slot_end hi)

end

/-! ### The directory -/

section

variable {dir dir' name : List UInt8} {first len i : Nat}

/-- `create` fills the first free slot. -/
theorem create_slot (h : Directory.create dir name first len = .ok dir') :
    name.length ≤ nameLen ∧ (∃ e, Directory.find dir name = .error e) ∧
      ∃ i, (firstSlot dir fun i => isFree (slot dir i)) = some i ∧
        dir' = overwrite dir (i * entrySize) (filled name first len) := by
  unfold Directory.create at h
  split at h
  · cases h
  · rename_i hvalid
    split at h
    · cases h
    · rename_i e hfind
      split at h
      · rename_i i hslot
        exact ⟨Nat.le_of_not_lt (not_or.mp hvalid).2, ⟨e, hfind⟩, i, hslot,
          (Except.ok.inj h).symm⟩
      · cases h

/-- The directory after `let _ = directory::remove(..)`. -/
def removed (dir name : List UInt8) : List UInt8 :=
  ((Directory.remove dir name).toOption.map Prod.snd).getD dir

theorem length_removed (dir name : List UInt8) : (removed dir name).length = dir.length := by
  unfold removed
  cases hremove : Directory.remove dir name with
  | error e => rfl
  | ok p =>
    obtain ⟨e, dir'⟩ := p
    exact (remove_ok hremove).1

/-- What the rollback makes of a new entry: it clears the slot if it finds the name. -/
theorem removed_create (hfirst : first < 2 ^ 32) (hlen : len < 2 ^ 32)
    (h : Directory.create dir name first len = .ok dir')
    (hslot : (firstSlot dir fun i => isFree (slot dir i)) = some i) :
    removed dir' name = overwrite dir (i * entrySize)
      (if 0 ∈ name then filled name first len else zeros entrySize) := by
  obtain ⟨hshort, ⟨e, hfind⟩, j, hj, rfl⟩ := create_slot h
  obtain rfl : j = i := Option.some.inj (hj.symm.trans hslot)
  obtain ⟨hi, -⟩ := firstSlot_some hslot
  have hfilled : (filled name first len).length = entrySize := length_filled hshort
  unfold removed
  split
  · rename_i hmem
    cases hremove : Directory.remove (overwrite dir (j * entrySize) (filled name first len))
        name with
    | error x => rfl
    | ok p =>
      -- A stored name has no zero byte, so the name is in no slot.
      obtain ⟨e, dir''⟩ := p
      obtain ⟨-, k, -, hview, -⟩ := remove_ok hremove
      exact absurd hmem (zero_not_mem_of_view hview)
  · rename_i hnul
    have hne : name ≠ [] := by
      rintro rfl
      cases h
    have hview := view_filled hshort hi hne hnul hfirst hlen
    have hfirstSlot : firstSlot (overwrite dir (j * entrySize) (filled name first len))
        (isNamed (overwrite dir (j * entrySize) (filled name first len)) name) = some j := by
      cases hnamed : firstSlot (overwrite dir (j * entrySize) (filled name first len))
          (isNamed (overwrite dir (j * entrySize) (filled name first len)) name) with
      | none =>
        have hnot := firstSlot_none hnamed (by rw [length_write hi hfilled]; exact hi)
        rw [isNamed_iff.mpr ⟨_, hview⟩] at hnot
        cases hnot
      | some k =>
        obtain ⟨hk, hkname⟩ := firstSlot_some hnamed
        rw [length_write hi hfilled] at hk
        by_contra hkj
        have hkview := view_of_isNamed hkname
        rw [view_write_other hi hfilled (fun heq => hkj (congrArg some heq))] at hkview
        exact (find_error hfind).2 k _ hk hkview
    unfold Directory.remove
    rw [hfirstSlot]
    exact overwrite_overwrite (by rw [hfilled]; exact slot_end hi)
      (by rw [hfilled, length_zeros])

end

/-! ### `create` -/

section

variable {m : Mount} {d : Device} {name data dir : List UInt8} {r : Nat × List UInt8}
  {first i n : Nat} {x : RwfsError}

/-- To write the directory back changes nothing. -/
theorem setDir_dir (hmeta : m.metadata.length = metaBytes) : m.setDir m.dir = m := by
  have hbytes : overwrite m.metadata dirOff m.dir = m.metadata :=
    overwrite_slice (by rw [hmeta]; decide)
  show (⟨m.dataSectors, overwrite m.metadata dirOff m.dir⟩ : Mount) = m
  rw [hbytes]

/-- Of two directories the second stays. -/
theorem setDir_setDir {dir' : List UInt8} (hmeta : m.metadata.length = metaBytes)
    (hlen : dir.length = dirBytes) (hlen' : dir'.length = dirBytes) :
    (m.setDir dir).setDir dir' = m.setDir dir' := by
  have hbytes : overwrite (overwrite m.metadata dirOff dir) dirOff dir' =
      overwrite m.metadata dirOff dir' :=
    overwrite_overwrite (by rw [hmeta, hlen]; decide) (by rw [hlen, hlen'])
  show (⟨m.dataSectors, overwrite (overwrite m.metadata dirOff dir) dirOff dir'⟩ : Mount) = _
  rw [hbytes]
  rfl

/-- The bitmap and the directory are apart. -/
theorem setBitmap_setDir {bitmap : List UInt8} (hmeta : m.metadata.length = metaBytes)
    (hlen : bitmap.length = bitmapBytes) (hdirlen : dir.length = dirBytes) :
    (m.setDir dir).setBitmap bitmap = (m.setBitmap bitmap).setDir dir := by
  have hbytes : overwrite (overwrite m.metadata dirOff dir) bitmapOff bitmap =
      overwrite (overwrite m.metadata bitmapOff bitmap) dirOff dir :=
    overwrite_comm (by rw [hmeta, hdirlen]; decide) (by rw [hmeta, hlen]; decide)
      (Or.inr (by rw [hlen]; decide))
  show (⟨m.dataSectors, overwrite (overwrite m.metadata dirOff dir) bitmapOff bitmap⟩ : Mount) = _
  rw [hbytes]
  rfl

/-- `let _ = directory::remove(..)` changes the directory only. -/
theorem tryRemove_eq (hmeta : m.metadata.length = metaBytes) (name : List UInt8) :
    m.tryRemove name = m.setDir (removed m.dir name) := by
  unfold Mount.tryRemove removed
  cases Directory.remove m.dir name with
  | error e => exact (setDir_dir hmeta).symm
  | ok p => rfl

/-- `let _ = bitmap::free(..)` gives a run back that `alloc` has taken. -/
theorem tryFree_eq {bitmap : List UInt8} (hmeta : m.metadata.length = metaBytes)
    (halloc : Bitmap.alloc bitmap m.dataSectors n = .ok r) (hbitmap : m.bitmap = r.2) :
    m.tryFree r.1 n = m.setBitmap bitmap := by
  obtain ⟨hmap, -, htotal, -⟩ := alloc_ok halloc
  have hlen : bitmap.length = bitmapBytes := by
    rw [← length_bitmap hmeta, hbitmap, hmap, length_setBits]
  rw [hlen] at htotal
  unfold Mount.tryFree
  rw [hbitmap, free_alloc (Nat.lt_of_le_of_lt htotal (by decide)) halloc]

/-- A `create` that does not get as far as a write leaves the mount. -/
theorem create_stops (hmeta : m.metadata.length = metaBytes)
    (hplace : m.place name data = none) : (m.create d name data).2.1 = m := by
  unfold Mount.place at hplace
  unfold Mount.create
  split at hplace
  · rename_i hdata
    rw [if_pos hdata]
  · rename_i hdata
    rw [if_neg hdata]
    dsimp only
    cases halloc : Bitmap.alloc m.bitmap m.dataSectors (sectors data.length) with
    | error e => rfl
    | ok r =>
      obtain ⟨rel, bitmap⟩ := r
      obtain ⟨hmap, -, htotal, -⟩ := alloc_ok halloc
      rw [length_bitmap hmeta] at htotal
      have hlen : bitmap.length = bitmapBytes := by
        rw [show bitmap = _ from hmap, length_setBits, length_bitmap hmeta]
      rw [halloc] at hplace
      dsimp only at hplace ⊢
      rw [dir_setBitmap hmeta hlen]
      cases hcreate : Directory.create m.dir name ((dataStart + rel) % 2 ^ 32) data.length with
      | error e =>
        have hfew : m.dataSectors ≤ 4096 := htotal
        have hback := tryFree_alloc hmeta hfew halloc
        dsimp only at hback ⊢
        exact hback
      | ok dir =>
        obtain ⟨-, -, i, hslot, -⟩ := create_slot hcreate
        rw [hcreate, hslot] at hplace
        exact absurd hplace (Option.some_ne_none _)

/-- The mount of a `create` that gets as far as the write of the data. -/
theorem create_writes (hmeta : m.metadata.length = metaBytes)
    (hplace : m.place name data = some (first, i)) :
    ∃ (r : Nat × List UInt8) (dir : List UInt8),
      Bitmap.alloc m.bitmap m.dataSectors (sectors data.length) = .ok r ∧
      first < 2 ^ 32 ∧ data.length ≤ maxFileBytes ∧
      Directory.create m.dir name first data.length = .ok dir ∧
      (firstSlot m.dir fun i => isFree (slot m.dir i)) = some i ∧
      (d.status ≠ blkOk → (m.create d name data).2.1 =
        (((m.setBitmap r.2).setDir dir).tryRemove name).tryFree r.1 (sectors data.length)) ∧
      (d.status = blkOk → (m.create d name data).2.1 = (m.setBitmap r.2).setDir dir) := by
  unfold Mount.place at hplace
  split at hplace
  · cases hplace
  · rename_i hdata
    split at hplace
    · cases hplace
    · rename_i rel bitmap halloc
      dsimp only at hplace
      split at hplace
      · cases hplace
      · rename_i dir hcreate
        obtain ⟨-, -, j, hslot, -⟩ := create_slot hcreate
        rw [hslot] at hplace
        obtain ⟨rfl, rfl⟩ := Prod.mk.inj (Option.some.inj hplace)
        have hlen : bitmap.length = bitmapBytes := by
          rw [show bitmap = _ from (alloc_ok halloc).1, length_setBits, length_bitmap hmeta]
        have hmax := Nat.le_of_not_lt (not_or.mp hdata).2
        refine ⟨⟨rel, bitmap⟩, dir, halloc, Nat.mod_lt _ (by decide), hmax, hcreate, hslot, ?_, ?_⟩
        all_goals
          intro hstatus
          unfold Mount.create
          rw [if_neg hdata]
          dsimp only
          rw [halloc]
          dsimp only
          rw [dir_setBitmap hmeta hlen, hcreate]
          dsimp only
          split
        · rfl
        · rename_i hok
          exact absurd hstatus hok
        · rename_i hfail
          exact absurd hstatus hfail
        · rfl

/-- The mount after the first write of a `create` has failed: only the slot may differ. -/
theorem create_fails (hmeta : m.metadata.length = metaBytes)
    (hplace : m.place name data = some (first, i)) (hstatus : d.status ≠ blkOk) :
    (m.create d name data).2.1 = m.setDir (overwrite m.dir (i * entrySize)
      (if 0 ∈ name then filled name first data.length else zeros entrySize)) := by
  obtain ⟨r, dir, halloc, hfirst, hmax, hcreate, hslot, hfail, -⟩ :=
    create_writes (d := d) hmeta hplace
  have hlen : r.2.length = bitmapBytes := by
    rw [(alloc_ok halloc).1, length_setBits, length_bitmap hmeta]
  have hmeta1 := length_setBitmap hmeta hlen
  have hdirlen : dir.length = dirBytes := by
    obtain ⟨hshort, -, j, hj, rfl⟩ := create_slot hcreate
    rw [length_write (firstSlot_some hj).1 (length_filled hshort), length_dir hmeta]
  have hmeta2 := length_setDir hmeta1 hdirlen
  have hremoved : (removed dir name).length = dirBytes := (length_removed _ _).trans hdirlen
  have hmeta3 := length_setDir hmeta1 hremoved
  have hbitmap3 : ((m.setBitmap r.2).setDir (removed dir name)).bitmap = r.2 :=
    (bitmap_setDir hmeta1 hremoved).trans (bitmap_setBitmap hmeta hlen)
  rw [hfail hstatus, tryRemove_eq hmeta2, dir_setDir hmeta1 hdirlen,
    setDir_setDir hmeta1 hdirlen hremoved, tryFree_eq hmeta3 halloc hbitmap3,
    ← removed_create hfirst (Nat.lt_of_le_of_lt hmax (by decide)) hcreate hslot,
    setBitmap_setDir hmeta1 (length_bitmap hmeta) hremoved, setBitmap_setBitmap hmeta hlen]

/-- Which failed calls of `create` leave the bitmap and the directory. -/
theorem create_undone (hmeta : m.metadata.length = metaBytes) :
    (((m.create d name data).2.1.bitmap = m.bitmap ∧ (m.create d name data).2.1.dir = m.dir) ↔
      (Update.create name data).Undone m d) ∧
    ((Update.create name data).Undone m d → (m.create d name data).2.1 = m) := by
  unfold Update.Undone
  cases hplace : m.place name data with
  | none =>
    rw [create_stops hmeta hplace]
    exact ⟨⟨fun _ _ _ h => absurd (hplace.symm.trans h).symm (Option.some_ne_none _),
      fun _ => ⟨rfl, rfl⟩⟩, fun _ => rfl⟩
  | some p =>
    obtain ⟨first, i⟩ := p
    obtain ⟨r, dir, halloc, -, -, hcreate, hslot, -, hok⟩ := create_writes (d := d) hmeta hplace
    obtain ⟨hshort, -, j, hj, hdir⟩ := create_slot hcreate
    obtain rfl : j = i := Option.some.inj (hj.symm.trans hslot)
    obtain ⟨hi, -⟩ := firstSlot_some hslot
    have hrecord : (if 0 ∈ name then filled name first data.length else zeros entrySize).length =
        entrySize := by
      split
      · exact length_filled hshort
      · exact length_zeros _
    have hwritten : (overwrite m.dir (j * entrySize)
        (if 0 ∈ name then filled name first data.length else zeros entrySize)).length =
        dirBytes := by
      rw [length_write hi hrecord, length_dir hmeta]
    refine ⟨⟨?_, ?_⟩, ?_⟩
    · rintro ⟨hbitmap, hsame⟩ first' i' heq
      obtain ⟨rfl, rfl⟩ := Prod.mk.inj (Option.some.inj (hplace.symm.trans heq))
      by_cases hstatus : d.status = blkOk
      · -- The run stays taken, whatever becomes of the write of the metadata.
        have hlen : r.2.length = bitmapBytes := by
          rw [(alloc_ok halloc).1, length_setBits, length_bitmap hmeta]
        have hdirlen : dir.length = dirBytes := by
          rw [hdir, length_write hi (length_filled hshort), length_dir hmeta]
        rw [hok hstatus, bitmap_setDir (length_setBitmap hmeta hlen) hdirlen,
          bitmap_setBitmap hmeta hlen] at hbitmap
        exact absurd hbitmap (alloc_ne halloc)
      · rw [create_fails hmeta hplace hstatus, dir_setDir hmeta hwritten] at hsame
        exact ⟨hstatus, (write_eq_iff hi hrecord).mp hsame⟩
    all_goals
      intro hundone
      obtain ⟨hstatus, hslotEq⟩ := hundone first j hplace
      rw [create_fails hmeta hplace hstatus, (write_eq_iff hi hrecord).mpr hslotEq,
        setDir_dir hmeta]
    exact ⟨rfl, rfl⟩

/-! ### `delete` -/

/-- `delete` clears the slot of the name, whatever comes after. -/
theorem delete_removes {e : Entry} (hmeta : m.metadata.length = metaBytes)
    (h : Directory.remove m.dir name = .ok (e, dir)) : (m.delete d name).2.1.dir = dir := by
  have hlen : dir.length = dirBytes := (remove_ok h).1.trans (length_dir hmeta)
  have hmeta1 := length_setDir hmeta hlen
  unfold Mount.delete
  rw [h]
  dsimp only
  split
  · exact dir_setDir hmeta hlen
  · rename_i bitmap hfree
    have hbitmap : bitmap.length = bitmapBytes := by
      rw [length_free hfree, length_bitmap hmeta1]
    exact (dir_setBitmap hmeta1 hbitmap).trans (dir_setDir hmeta hlen)

/-- Which failed calls of `delete` leave the bitmap and the directory. -/
theorem delete_undone (hmeta : m.metadata.length = metaBytes) :
    (((m.delete d name).2.1.bitmap = m.bitmap ∧ (m.delete d name).2.1.dir = m.dir) ↔
      (Update.delete name).Undone m d) ∧
    ((Update.delete name).Undone m d → (m.delete d name).2.1 = m) := by
  unfold Update.Undone
  dsimp only
  cases hremove : Directory.remove m.dir name with
  | error e =>
    have hmount : (m.delete d name).2.1 = m := by
      unfold Mount.delete
      rw [hremove]
    rw [hmount]
    refine ⟨⟨fun _ => ?_, fun _ => ⟨rfl, rfl⟩⟩, fun _ => rfl⟩
    cases hfind : Directory.find m.dir name with
    | error e => exact ⟨e, rfl⟩
    | ok e =>
      obtain ⟨i, hi, hview⟩ := find_ok hfind
      exact absurd hview ((remove_error hremove).2 i e hi)
  | ok p =>
    obtain ⟨e, dir⟩ := p
    obtain ⟨-, i, hi, hview, hfree, -⟩ := remove_ok hremove
    have hfound : ¬ ∃ x, Directory.find m.dir name = .error x :=
      fun ⟨_, hfind⟩ => (find_error hfind).2 i e hi hview
    refine ⟨⟨?_, fun h => absurd h hfound⟩, fun h => absurd h hfound⟩
    rintro ⟨-, hsame⟩
    rw [delete_removes hmeta hremove] at hsame
    rw [hsame, hview] at hfree
    cases hfree

end

/-! ### Every failed call -/

/-- A `create` or `delete` leaves the bitmap and the directory as they were exactly if it does not
get to the write of the metadata, and a `create` whose first write fails puts the slot back. The
mount is then as before. -/
theorem failed_update_iff {m : Mount} {d : Device} {u : Update} {x : RwfsError}
    (hmeta : m.metadata.length = metaBytes) (_herror : (u.run m d).1 = .error x) :
    (((u.run m d).2.1.bitmap = m.bitmap ∧ (u.run m d).2.1.dir = m.dir) ↔ u.Undone m d) ∧
      (u.Undone m d → (u.run m d).2.1 = m) := by
  cases u with
  | create name data => exact create_undone hmeta
  | delete name => exact delete_undone hmeta

/-- A mount of two data sectors, as `format` makes it, whose first request fails: the file is taken
out again. -/
theorem failed_create_undone :
    ((Update.create [97] [7]).run ⟨2, emptyMeta 2⟩ ⟨zeros 3072, zeros 4096, [1]⟩).2.1 =
      ⟨2, emptyMeta 2⟩ := by
  refine (failed_update_iff (x := .io) (length_emptyMeta 2) (by decide +kernel)).2 ?_
  intro first i hplace
  have hsome : Mount.place ⟨2, emptyMeta 2⟩ [97] [7] = some (4, 0) := by decide +kernel
  obtain ⟨rfl, rfl⟩ := Prod.mk.inj (Option.some.inj (hsome.symm.trans hplace))
  exact ⟨by decide, by decide +kernel⟩

/-- On the same mount the second request fails, that of the metadata: the file stays, and its
sector. -/
theorem failed_create_stays :
    ((Update.create [97] [7]).run ⟨2, emptyMeta 2⟩ ⟨zeros 3072, zeros 4096, [0, 1]⟩).1 =
        .error .io ∧
      ((Update.create [97] [7]).run ⟨2, emptyMeta 2⟩ ⟨zeros 3072, zeros 4096, [0, 1]⟩).2.1.bitmap ≠
        (⟨2, emptyMeta 2⟩ : Mount).bitmap := by
  decide +kernel

end Plinth.Rwfs
