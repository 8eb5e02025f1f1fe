import Plinth.Acpi.Walks

/-!
# `Plinth.Acpi.Inside`: the reads of the walks and the lengths of their tables

A read is inside when its bytes are before the end that its table states, and before the end of the
record that is decoded. The length field of a table is read first, so it is always inside.

The parsers check the length of a table before its fixed fields, except for the first four bytes and
the header of the MADT. They check that a record ends before its table does, but not that its fields
end before it does. `walks_inside_iff` says which tables they read inside of.
-/

set_option autoImplicit false

namespace Plinth

namespace Acpi

/-! ### Reads that stay inside -/

/-- The length that the table at a physical address states. -/
def tableLen (ram : Ram) (p : Nat) : Nat := ram.read (p + 4) 4

/-- The size of an RSDP. -/
def rsdpSize : Nat := 36

/-- The bytes are inside of the RSDP, which has a fixed size, or of the length that the table
states. The length field itself is always inside. -/
def Base.Inside (ram : Ram) (off size : Nat) : Base → Prop
  | .rsdp _ => off + size ≤ rsdpSize
  | .table p => off + size ≤ tableLen ram p ∨ off = 4 ∧ size = 4

/-- The read is inside of its table, and of the record that is decoded. -/
def Access.Inside (ram : Ram) (a : Access) : Prop :=
  a.base.Inside ram a.off a.size ∧
    ∀ e ∈ a.entry, e.off ≤ a.off ∧ a.off + a.size ≤ e.off + e.len

instance (ram : Ram) (off size : Nat) : ∀ b : Base, Decidable (b.Inside ram off size)
  | .rsdp _ => inferInstanceAs (Decidable (_ ≤ _))
  | .table _ => inferInstanceAs (Decidable (_ ∨ _))

instance (ram : Ram) (a : Access) : Decidable (a.Inside ram) :=
  inferInstanceAs (Decidable (_ ∧ _))

/-- All reads are inside. -/
def Walk.Inside {α : Type} (ram : Ram) (w : Walk α) : Prop := ∀ a ∈ w.reads, a.Inside ram

instance {α : Type} (ram : Ram) (w : Walk α) : Decidable (w.Inside ram) :=
  inferInstanceAs (Decidable (∀ a ∈ w.reads, a.Inside ram))

namespace Walk

variable {α β : Type} {ram : Ram}

@[simp] theorem inside_pure (a : α) : (pure a : Walk α).Inside ram := by
  intro x hx
  cases hx

@[simp] theorem inside_bind (x : Walk α) (f : α → Walk β) :
    (x >>= f).Inside ram ↔ x.Inside ram ∧ (f x.value).Inside ram := by
  show (∀ a ∈ x.reads ++ (f x.value).reads, a.Inside ram) ↔ _
  exact List.forall_mem_append

@[simp] theorem inside_ite (c : Prop) [Decidable c] (x y : Walk α) :
    (if c then x else y).Inside ram ↔ (c → x.Inside ram) ∧ (¬ c → y.Inside ram) := by
  by_cases hc : c
  · simp [hc]
  · simp [hc]

@[simp] theorem inside_rd (p : Base) (off size : Nat) :
    (rd ram p off size).Inside ram ↔ p.Inside ram off size := by
  simp [rd, Inside, Access.Inside]

@[simp] theorem decoding_pure (e : Entry) (a : α) : (pure a : Walk α).decoding e = pure a := rfl

@[simp] theorem inside_decoding_bind (e : Entry) (x : Walk α) (f : α → Walk β) :
    ((x >>= f).decoding e).Inside ram ↔
      (x.decoding e).Inside ram ∧ ((f x.value).decoding e).Inside ram := by
  show (∀ a ∈ (x.reads ++ (f x.value).reads).map fun a => { a with entry := some e },
    a.Inside ram) ↔ _
  rw [List.map_append]
  exact List.forall_mem_append

@[simp] theorem inside_decoding_ite (e : Entry) (c : Prop) [Decidable c] (x y : Walk α) :
    ((if c then x else y).decoding e).Inside ram ↔
      (c → (x.decoding e).Inside ram) ∧ (¬ c → (y.decoding e).Inside ram) := by
  by_cases hc : c
  · simp [hc]
  · simp [hc]

@[simp] theorem inside_decoding_rd (e : Entry) (p : Base) (off size : Nat) :
    ((rd ram p off size).decoding e).Inside ram ↔
      p.Inside ram off size ∧ e.off ≤ off ∧ off + size ≤ e.off + e.len := by
  simp [rd, Inside, Access.Inside]

end Walk

section

variable {ram : Ram} {p phys sdt entrySize : Nat} {sig : List Nat}

theorem inside_table {off size : Nat} :
    (Base.table p).Inside ram off size ↔ off + size ≤ tableLen ram p ∨ off = 4 ∧ size = 4 := Iff.rfl

/-! ### The tables of an RSDT or XSDT -/

/-- Entry `i` of the RSDT or XSDT. -/
def entryAt (ram : Ram) (sdt entrySize i : Nat) : Nat :=
  ram.read (sdt + (36 + i * entrySize)) entrySize

/-- The number of entries that are walked. -/
def entryCount (ram : Ram) (sdt entrySize : Nat) : Nat :=
  min ((tableLen ram sdt - 36) / entrySize) maxTables

/-- The first four bytes of a table. -/
def signature (ram : Ram) (phys : Nat) : List Nat := (sig4 ram (.table phys)).value

/-- The search for `sig` looks at the signature of the table: no entry before it has `sig`. -/
def Examined (ram : Ram) (sdt entrySize : Nat) (sig : List Nat) (phys : Nat) : Prop :=
  ∃ i < entryCount ram sdt entrySize, phys = entryAt ram sdt entrySize i ∧
    ∀ j < i, signature ram (entryAt ram sdt entrySize j) ≠ sig

/-- The table is the first one with the signature `sig`. -/
def Finds (ram : Ram) (sdt entrySize : Nat) (sig : List Nat) (phys : Nat) : Prop :=
  Examined ram sdt entrySize sig phys ∧ signature ram phys = sig

theorem sig4_inside (phys : Nat) :
    (sig4 ram (.table phys)).Inside ram ↔ 4 ≤ tableLen ram phys := by
  simp [sig4, rdU8, inside_table]
  omega

/-- The read of an entry. -/
theorem rdEntry_eq (hsize : entrySize = 8 ∨ entrySize = 4) (i : Nat) :
    rdEntry ram sdt entrySize i = rd ram (.table sdt) (36 + i * entrySize) entrySize := by
  rcases hsize with rfl | rfl
  · rfl
  · rfl

/-- The reads of the loop of `find_table` are inside if every table that it looks at has room for a
signature. -/
theorem findTableFrom_inside (hsize : entrySize = 8 ∨ entrySize = 4) (n i : Nat)
    (hfit : 36 + (i + n) * entrySize ≤ tableLen ram sdt) :
    (findTableFrom ram sdt entrySize sig n i).Inside ram ↔
      ∀ k < n, (∀ j < k, signature ram (entryAt ram sdt entrySize (i + j)) ≠ sig) →
        4 ≤ tableLen ram (entryAt ram sdt entrySize (i + k)) := by
  induction n generalizing i with
  | zero => simp [findTableFrom]
  | succ n ih =>
    have hentry : (i + 1) * entrySize ≤ (i + (n + 1)) * entrySize :=
      Nat.mul_le_mul_right _ (by omega)
    rw [Nat.succ_mul] at hentry
    have hrest := ih (i + 1) (by rw [show i + 1 + n = i + (n + 1) by omega]; exact hfit)
    simp only [findTableFrom, rdEntry_eq hsize, Walk.inside_bind, Walk.inside_rd, Walk.inside_ite,
      Walk.inside_pure, inside_table, implies_true, true_and, sig4_inside, hrest]
    show _ ∧ 4 ≤ tableLen ram (entryAt ram sdt entrySize i) ∧
      (signature ram (entryAt ram sdt entrySize i) ≠ sig → _) ↔ _
    constructor
    · rintro ⟨-, hfirst, hnext⟩ k hk hbefore
      cases k with
      | zero => exact hfirst
      | succ k =>
        rw [show i + (k + 1) = i + 1 + k by omega]
        refine hnext (hbefore 0 (by omega)) k (by omega) fun j hj => ?_
        rw [show i + 1 + j = i + (j + 1) by omega]
        exact hbefore (j + 1) (by omega)
    · intro hall
      refine ⟨Or.inl (by omega), hall 0 (by omega) nofun, fun hsig k hk hbefore => ?_⟩
      rw [show i + 1 + k = i + (k + 1) by omega]
      refine hall (k + 1) (by omega) fun j hj => ?_
      cases j with
      | zero => exact hsig
      | succ j =>
        rw [show i + (j + 1) = i + 1 + j by omega]
        exact hbefore j (by omega)

/-- The loop of `find_table` finds the first table with the signature. -/
theorem findTableFrom_value (hsize : entrySize = 8 ∨ entrySize = 4) (n i : Nat) :
    (findTableFrom ram sdt entrySize sig n i).value = some phys ↔
      ∃ k < n, phys = entryAt ram sdt entrySize (i + k) ∧ signature ram phys = sig ∧
        ∀ j < k, signature ram (entryAt ram sdt entrySize (i + j)) ≠ sig := by
  induction n generalizing i with
  | zero => simp [findTableFrom]
  | succ n ih =>
    simp only [findTableFrom, rdEntry_eq hsize, Walk.value_bind]
    show Walk.value (if signature ram (entryAt ram sdt entrySize i) = sig then
      pure (some (entryAt ram sdt entrySize i)) else _) = _ ↔ _
    by_cases hsig : signature ram (entryAt ram sdt entrySize i) = sig
    · rw [if_pos hsig]
      constructor
      · intro h
        cases h
        exact ⟨0, by omega, rfl, hsig, nofun⟩
      · rintro ⟨k, hk, rfl, -, hbefore⟩
        cases k with
        | zero => rfl
        | succ k => exact absurd hsig (hbefore 0 (by omega))
    · rw [if_neg hsig, ih (i + 1)]
      constructor
      · rintro ⟨k, hk, hphys, hfound, hbefore⟩
        refine ⟨k + 1, by omega, by rw [hphys]; congr 1; omega, hfound, fun j hj => ?_⟩
        cases j with
        | zero => exact hsig
        | succ j =>
          rw [show i + (j + 1) = i + 1 + j by omega]
          exact hbefore j (by omega)
      · rintro ⟨k, hk, hphys, hfound, hbefore⟩
        cases k with
        | zero =>
          rw [hphys] at hfound
          exact absurd hfound hsig
        | succ k =>
          refine ⟨k, by omega, by rw [hphys]; congr 1; omega, hfound, fun j hj => ?_⟩
          rw [show i + 1 + j = i + (j + 1) by omega]
          exact hbefore (j + 1) (by omega)

theorem entries_fit (hlen : ¬ tableLen ram sdt < 36) :
    36 + (0 + entryCount ram sdt entrySize) * entrySize ≤ tableLen ram sdt := by
  have hcount : entryCount ram sdt entrySize * entrySize
      ≤ (tableLen ram sdt - 36) / entrySize * entrySize :=
    Nat.mul_le_mul_right _ (Nat.min_le_left ..)
  have hdiv := Nat.div_mul_le_self (tableLen ram sdt - 36) entrySize
  rw [Nat.zero_add]
  omega

theorem no_entries (hlen : tableLen ram sdt < 36) : entryCount ram sdt entrySize = 0 := by
  rw [entryCount, show tableLen ram sdt - 36 = 0 by omega, Nat.zero_div, Nat.zero_min]

/-- The reads of `find_table` are inside if every table that it looks at has room for a
signature. -/
theorem findTable_inside (hsize : entrySize = 8 ∨ entrySize = 4) :
    (findTable ram sdt entrySize sig).Inside ram ↔
      ∀ phys, Examined ram sdt entrySize sig phys → 4 ≤ tableLen ram phys := by
  simp only [findTable, rdU32, Walk.inside_bind, Walk.inside_rd, Walk.inside_ite, Walk.inside_pure,
    inside_table, and_self, or_true, implies_true, true_and]
  show (¬ tableLen ram sdt < 36 →
    (findTableFrom ram sdt entrySize sig (entryCount ram sdt entrySize) 0).Inside ram) ↔ _
  constructor
  · rintro h phys ⟨i, hi, rfl, hbefore⟩
    by_cases hlen : tableLen ram sdt < 36
    · rw [no_entries hlen] at hi
      omega
    · have hall := (findTableFrom_inside hsize _ 0 (entries_fit hlen)).mp (h hlen) i hi
      simp only [Nat.zero_add] at hall
      exact hall hbefore
  · intro h hlen
    refine (findTableFrom_inside hsize _ 0 (entries_fit hlen)).mpr fun k hk hbefore => ?_
    simp only [Nat.zero_add] at hbefore ⊢
    exact h _ ⟨k, hk, rfl, hbefore⟩

theorem findTable_value (hsize : entrySize = 8 ∨ entrySize = 4) :
    (findTable ram sdt entrySize sig).value = some phys ↔ Finds ram sdt entrySize sig phys := by
  show Walk.value (if tableLen ram sdt < 36 then pure none else
    findTableFrom ram sdt entrySize sig (entryCount ram sdt entrySize) 0) = _ ↔ _
  by_cases hlen : tableLen ram sdt < 36
  · rw [if_pos hlen]
    constructor
    · nofun
    · rintro ⟨⟨i, hi, -⟩, -⟩
      rw [no_entries hlen] at hi
      omega
  · rw [if_neg hlen, findTableFrom_value hsize]
    simp only [Nat.zero_add]
    constructor
    · rintro ⟨k, hk, hphys, hsig, hbefore⟩
      exact ⟨⟨k, hk, hphys, hbefore⟩, hsig⟩
    · rintro ⟨⟨k, hk, hphys, hbefore⟩, hsig⟩
      exact ⟨k, hk, hphys, hsig, hbefore⟩

/-! ### The power-off values -/

/-- An element of the package is read before the end that is given. -/
theorem readAmlByteConst_inside {off len : Nat} (hlen : len ≤ tableLen ram p) :
    (readAmlByteConst ram (.table p) off len).Inside ram := by
  simp only [readAmlByteConst, rdU8, Walk.inside_bind, Walk.inside_ite, Walk.inside_rd,
    Walk.inside_pure, inside_table, implies_true, true_and, and_true]
  intro hoff
  refine ⟨Or.inl (by omega), fun _ _ hprefix => Or.inl (by omega)⟩

theorem bytesAre_inside {bytes : List (Nat × Nat)}
    (h : ∀ b ∈ bytes, b.1 + 1 ≤ tableLen ram p) : (bytesAre ram (.table p) bytes).Inside ram := by
  induction bytes with
  | nil => exact Walk.inside_pure _
  | cons b rest ih =>
    simp only [bytesAre, rdU8, Walk.inside_bind, Walk.inside_rd, Walk.inside_ite, Walk.inside_pure,
      inside_table, implies_true, and_true]
    exact ⟨Or.inl (h b (List.mem_cons_self ..)), fun _ => ih fun b hb => h b (.tail _ hb)⟩

theorem decodeS5_inside {dlen i a b : Nat} (hlen : dlen ≤ tableLen ram p) (hi : i + 8 < dlen) :
    (decodeS5 ram (.table p) dlen i a b).Inside ram := by
  simp only [decodeS5, rdU8, Walk.inside_bind, Walk.inside_rd, inside_table]
  refine ⟨Or.inl (by omega), readAmlByteConst_inside hlen, ?_⟩
  split
  · exact Walk.inside_pure _
  · simp only [Walk.inside_bind, Walk.inside_pure, and_true]
    exact readAmlByteConst_inside hlen

theorem scanS5_inside {dlen a b : Nat} (hlen : dlen ≤ tableLen ram p) (i : Nat) :
    (scanS5 ram (.table p) dlen a b i).Inside ram := by
  fun_induction scanS5 ram (.table p) dlen a b i with
  | case1 i hi ih =>
    simp only [Walk.inside_bind, Walk.inside_ite]
    refine ⟨bytesAre_inside ?_, fun _ => decodeS5_inside hlen hi, fun _ => ih⟩
    simp only [List.forall_mem_cons]
    refine ⟨?_, ?_, ?_, ?_, ?_, nofun⟩ <;> omega
  | case2 i hi => exact Walk.inside_pure _

theorem scanDsdt_inside {dsdt a b : Nat} : (scanDsdt ram dsdt a b).Inside ram := by
  simp only [scanDsdt, rdU32, Walk.inside_ite, Walk.inside_bind, Walk.inside_rd, Walk.inside_pure,
    inside_table, and_self, or_true, implies_true, true_and]
  intro _ _
  exact scanS5_inside (Nat.min_le_left ..) _

/-- A short FADT has no `X_Dsdt`, and it is not read there. -/
theorem rdXDsdt_inside : (rdXDsdt ram (.table p) (tableLen ram p)).Inside ram := by
  simp only [rdXDsdt, rdU64, Walk.inside_ite, Walk.inside_rd, Walk.inside_pure, inside_table,
    implies_true, and_true]
  intro hlen
  exact Or.inl hlen

theorem rdXDsdt_ne_zero {flen : Nat} (h : (rdXDsdt ram (.table p) flen).value ≠ 0) :
    148 ≤ flen := by
  by_contra hlen
  rw [rdXDsdt, if_neg hlen] at h
  exact h rfl

/-- Every read of `find_poweroff` is before an end that was looked at, except for the signatures of
the tables. -/
theorem findPoweroff_inside (hsize : entrySize = 8 ∨ entrySize = 4) :
    (findPoweroff ram sdt entrySize).Inside ram ↔
      ∀ phys, Examined ram sdt entrySize sigFacp phys → 4 ≤ tableLen ram phys := by
  rw [← findTable_inside hsize]
  simp only [findPoweroff, Walk.inside_bind, and_iff_left_iff_imp]
  intro _
  split
  · exact Walk.inside_pure _
  · rename_i fadt _
    simp only [rdU32, rdU64, Walk.inside_bind, Walk.inside_rd, Walk.inside_ite, Walk.inside_pure,
      inside_table, and_self, or_true, implies_true, true_and, scanDsdt_inside, and_true]
    show ¬ tableLen ram fadt < 116 → _
    intro hlen
    -- The ports and the DSDT of the first revision are below 116, `X_Dsdt` needs 148.
    refine ⟨Or.inl (by omega), Or.inl (by omega), fun _ => ⟨rdXDsdt_inside, fun hwide => ?_,
      fun _ => Or.inl (by omega)⟩⟩
    exact Or.inl (rdXDsdt_ne_zero hwide)

/-! ### The IVRS -/

/-- An IVHD has room for the fields that are read. -/
def IvrsFits (ram : Ram) (p : Nat) : Prop := ivrsHeader + 24 ≤ tableLen ram p → 18 ≤ ivhdLen ram p

/-- The table is long enough for the fields, but the length of the IVHD is not looked at. -/
theorem parseIvrs_inside : (parseIvrs ram p).Inside ram ↔ IvrsFits ram p := by
  simp only [parseIvrs, readIvhd, rdU16, rdU32, rdU64, Walk.inside_bind, Walk.inside_rd,
    Walk.inside_ite, Walk.inside_pure, Walk.inside_decoding_bind, Walk.inside_decoding_rd,
    Walk.inside_decoding_ite, Walk.decoding_pure, inside_table, and_self, or_true, implies_true,
    true_and, and_true]
  show (¬ tableLen ram p < ivrsHeader + 24 → _) ↔ _
  unfold IvrsFits ivrsHeader
  constructor
  · intro h hlen
    obtain ⟨-, -, hsegment⟩ := h (by omega)
    omega
  · intro h hlen
    have hivhd := h (by omega)
    refine ⟨⟨Or.inl ?_, ?_, ?_⟩, ⟨Or.inl ?_, ?_, ?_⟩, Or.inl ?_, ?_, ?_⟩ <;> omega

/-! ### The DMAR -/

/-- The structures of the DMAR. -/
def dmarRecords (ram : Ram) (p : Nat) : Records where
  limit := tableLen ram p
  header := 4
  length off := ram.read (p + (off + 2)) 2

theorem dmar_fits {off : Nat} : (dmarRecords ram p).Fits off ↔
    off + 4 ≤ tableLen ram p ∧ 4 ≤ (dmarRecords ram p).length off ∧
      off + (dmarRecords ram p).length off ≤ tableLen ram p := Iff.rfl

/-- The structure at the offset is a DRHD. -/
def isDrhd (ram : Ram) (p off : Nat) : Bool := ram.read (p + off) 2 = dmarTypeDrhd

/-- The first `n` units of the DMAR have room for the fields that are read. -/
def DrhdsFit (ram : Ram) (p walk off n : Nat) : Prop :=
  ∀ o ∈ (((dmarRecords ram p).offsets walk off).filter (isDrhd ram p)).take n,
    16 ≤ (dmarRecords ram p).length o

theorem readDrhd_inside {off len : Nat} (hlen : off + len ≤ tableLen ram p) :
    ((readDrhd ram (.table p) off).decoding ⟨off, len⟩).Inside ram ↔ 16 ≤ len := by
  simp only [readDrhd, rdU8, rdU16, rdU64, Walk.inside_decoding_bind, Walk.inside_decoding_rd,
    Walk.decoding_pure, Walk.inside_pure, inside_table, and_true]
  constructor
  · rintro ⟨⟨-, -, hbase⟩, -⟩
    omega
  · intro h
    refine ⟨⟨Or.inl ?_, ?_, ?_⟩, ⟨Or.inl ?_, ?_, ?_⟩, Or.inl ?_, ?_, ?_⟩ <;> omega

theorem drhdsFit_full (n off : Nat) : DrhdsFit ram p n off 0 := nofun

theorem drhdsFit_nil {n off k : Nat} (h : ¬ (dmarRecords ram p).Fits off) :
    DrhdsFit ram p (n + 1) off k := by
  unfold DrhdsFit
  rw [Records.offsets_nil h, List.filter_nil, List.take_nil]
  nofun

theorem drhdsFit_drhd {n off k : Nat} (h : (dmarRecords ram p).Fits off)
    (hdrhd : isDrhd ram p off = true) :
    DrhdsFit ram p (n + 1) off (k + 1) ↔ 16 ≤ (dmarRecords ram p).length off ∧
      DrhdsFit ram p n (off + (dmarRecords ram p).length off) k := by
  unfold DrhdsFit
  rw [Records.offsets_succ h, List.filter_cons_of_pos hdrhd, List.take_succ_cons,
    List.forall_mem_cons]

theorem drhdsFit_other {n off k : Nat} (h : (dmarRecords ram p).Fits off)
    (hdrhd : ¬ isDrhd ram p off = true) :
    DrhdsFit ram p (n + 1) off k ↔
      DrhdsFit ram p n (off + (dmarRecords ram p).length off) k := by
  unfold DrhdsFit
  rw [Records.offsets_succ h, List.filter_cons_of_neg hdrhd]

/-- The header of a structure is inside of the table. The structure is decoded when it fits, and
when it is a DRHD for which the list has room. -/
theorem dmarLoop_succ (n off : Nat) (drhds : List Drhd) :
    (dmarLoop ram (.table p) (tableLen ram p) (n + 1) off drhds).Inside ram ↔
      ((dmarRecords ram p).Fits off →
        if isDrhd ram p off ∧ drhds.length < maxDrhd then
          16 ≤ (dmarRecords ram p).length off ∧
            (dmarLoop ram (.table p) (tableLen ram p) n (off + (dmarRecords ram p).length off)
              (drhds ++ [(readDrhd ram (.table p) off).value])).Inside ram
        else
          (dmarLoop ram (.table p) (tableLen ram p) n (off + (dmarRecords ram p).length off)
            drhds).Inside ram) := by
  have hiff : isDrhd ram p off = true ↔ ram.read (p + off) 2 = dmarTypeDrhd := decide_eq_true_iff
  simp only [dmarLoop, rdU16, Walk.inside_ite, Walk.inside_bind, Walk.inside_rd, Walk.inside_pure,
    inside_table, implies_true, true_and, and_true, hiff]
  show (off + 4 ≤ tableLen ram p → _ ∧ _ ∧ (¬ ((dmarRecords ram p).length off < 4 ∨
    off + (dmarRecords ram p).length off > tableLen ram p) →
      (ram.read (p + off) 2 = _ ∧ _ → _) ∧ (¬ (ram.read (p + off) 2 = _ ∧ _) → _))) ↔ _
  constructor
  · intro h hfits
    obtain ⟨hheader, hmin, hend⟩ := dmar_fits.mp hfits
    obtain ⟨-, -, hdecode⟩ := h hheader
    obtain ⟨hunit, hother⟩ := hdecode (by omega)
    split
    · rename_i hdrhd
      obtain ⟨hread, hrest⟩ := hunit hdrhd
      exact ⟨(readDrhd_inside hend).mp hread, hrest⟩
    · rename_i hdrhd
      exact hother hdrhd
  · intro h hheader
    refine ⟨Or.inl (by omega), Or.inl (by omega), fun hok => ?_⟩
    have hfits : (dmarRecords ram p).Fits off := dmar_fits.mpr ⟨hheader, by omega, by omega⟩
    have hdecode := h hfits
    refine ⟨fun hdrhd => ?_, fun hdrhd => ?_⟩
    · rw [if_pos hdrhd] at hdecode
      exact ⟨(readDrhd_inside hfits.2.2).mpr hdecode.1, hdecode.2⟩
    · rw [if_neg hdrhd] at hdecode
      exact hdecode

/-- The induction is on the structures that are left to walk. -/
theorem dmarLoop_inside (n off : Nat) (drhds : List Drhd) (hroom : drhds.length ≤ maxDrhd) :
    (dmarLoop ram (.table p) (tableLen ram p) n off drhds).Inside ram ↔
      DrhdsFit ram p n off (maxDrhd - drhds.length) := by
  induction n generalizing off drhds with
  | zero => simp [dmarLoop, DrhdsFit, Records.offsets]
  | succ n ih =>
    rw [dmarLoop_succ]
    by_cases hfits : (dmarRecords ram p).Fits off
    · by_cases hdrhd : isDrhd ram p off = true
      · by_cases hlt : drhds.length < maxDrhd
        · obtain ⟨k, hk⟩ : ∃ k, maxDrhd - drhds.length = k + 1 :=
            ⟨maxDrhd - drhds.length - 1, by omega⟩
          rw [if_pos ⟨hdrhd, hlt⟩, ih _ _ (by simp; omega), hk, drhdsFit_drhd hfits hdrhd,
            List.length_append, List.length_singleton,
            show maxDrhd - (drhds.length + 1) = k by omega]
          exact ⟨fun h => h hfits, fun h _ => h⟩
        · -- The list is full: no later structure is decoded.
          rw [if_neg fun h => hlt h.2, ih _ _ hroom, show maxDrhd - drhds.length = 0 by omega]
          exact ⟨fun _ => drhdsFit_full _ _, fun _ _ => drhdsFit_full _ _⟩
      · rw [if_neg fun h => hdrhd h.1, ih _ _ hroom, drhdsFit_other hfits hdrhd]
        exact ⟨fun h => h hfits, fun h _ => h⟩
    · exact ⟨fun _ => drhdsFit_nil hfits, fun _ h => absurd h hfits⟩

/-- No more than eight units are recorded. -/
theorem dmarLoop_length (p : Base) (length n off : Nat) {drhds : List Drhd}
    (h : drhds.length ≤ maxDrhd) :
    (dmarLoop ram p length n off drhds).value.length ≤ maxDrhd := by
  induction n generalizing off drhds with
  | zero => exact h
  | succ n ih =>
    unfold dmarLoop
    split
    · simp only [Walk.value_bind]
      split
      · exact h
      · split
        · rename_i hdrhd
          simp only [Walk.value_bind]
          refine ih _ ?_
          rw [List.length_append, List.length_singleton]
          exact hdrhd.2
        · exact ih _ h
    · exact h

/-! ### The MADT -/

/-- The entries of the MADT. -/
def madtRecords (ram : Ram) (p : Nat) : Records where
  limit := tableLen ram p
  header := 2
  length off := ram.read (p + (off + 1)) 1

theorem madt_fits {off : Nat} : (madtRecords ram p).Fits off ↔
    off + 2 ≤ tableLen ram p ∧ 2 ≤ (madtRecords ram p).length off ∧
      off + (madtRecords ram p).length off ≤ tableLen ram p := Iff.rfl

/-- Where the fields end that are read of an entry of a type. -/
def entryNeed : Nat → Nat
  | 0 => 8
  | 1 => 12
  | 2 => 10
  | 5 => 12
  | 9 => 12
  | _ => 0

/-- The entries have room for the fields that are read. -/
def EntriesFit (ram : Ram) (p walk off : Nat) : Prop :=
  ∀ o ∈ (madtRecords ram p).offsets walk off,
    entryNeed (ram.read (p + o) 1) ≤ (madtRecords ram p).length o

theorem madtEntry_inside {off len etype : Nat} {st : Scan} (hlen : off + len ≤ tableLen ram p) :
    ((madtEntry ram (.table p) off etype st).decoding ⟨off, len⟩).Inside ram ↔
      entryNeed etype ≤ len := by
  unfold madtEntry entryNeed
  split
  · simp only [rdU8, rdU32, Walk.inside_decoding_bind, Walk.inside_decoding_rd,
      Walk.inside_decoding_ite, Walk.decoding_pure, Walk.inside_pure, inside_table, implies_true,
      and_true]
    omega
  · simp only [rdU8, rdU32, Walk.inside_decoding_bind, Walk.inside_decoding_rd,
      Walk.decoding_pure, Walk.inside_pure, inside_table, and_true]
    omega
  · simp only [rdU8, rdU16, rdU32, Walk.inside_decoding_bind, Walk.inside_decoding_rd,
      Walk.decoding_pure, Walk.inside_pure, inside_table, and_true]
    omega
  · simp only [rdU64, Walk.inside_decoding_bind, Walk.inside_decoding_rd, Walk.decoding_pure,
      Walk.inside_pure, inside_table, and_true]
    omega
  · simp only [rdU32, Walk.inside_decoding_bind, Walk.inside_decoding_rd, Walk.decoding_pure,
      Walk.inside_pure, inside_table, and_true]
    omega
  · simp only [Walk.decoding_pure, Walk.inside_pure, Nat.zero_le]

/-- An entry is decoded when it fits in the table. The induction is on the entries that are left to
walk. -/
theorem madtLoop_inside (n off : Nat) (st : Scan) :
    (madtLoop ram (.table p) (tableLen ram p) n off st).Inside ram ↔ EntriesFit ram p n off := by
  induction n generalizing off st with
  | zero => simp [madtLoop, EntriesFit, Records.offsets]
  | succ n ih =>
    simp only [madtLoop, rdU8, Walk.inside_ite, Walk.inside_bind, Walk.inside_rd, Walk.inside_pure,
      inside_table, implies_true, true_and, and_true]
    show (off + 2 ≤ tableLen ram p → _ ∧ _ ∧ (¬ ((madtRecords ram p).length off < 2 ∨
      off + (madtRecords ram p).length off > tableLen ram p) → _)) ↔ _
    constructor
    · intro h
      by_cases hfits : (madtRecords ram p).Fits off
      · obtain ⟨hheader, hmin, hend⟩ := madt_fits.mp hfits
        obtain ⟨-, -, hdecode⟩ := h hheader
        obtain ⟨hentry, hrest⟩ := hdecode (by omega)
        unfold EntriesFit
        rw [Records.offsets_succ hfits, List.forall_mem_cons]
        exact ⟨(madtEntry_inside hend).mp hentry, (ih _ _).mp hrest⟩
      · unfold EntriesFit
        rw [Records.offsets_nil hfits]
        nofun
    · intro h hheader
      refine ⟨Or.inl (by omega), Or.inl (by omega), fun hok => ?_⟩
      have hfits : (madtRecords ram p).Fits off := madt_fits.mpr ⟨hheader, by omega, by omega⟩
      unfold EntriesFit at h
      rw [Records.offsets_succ hfits, List.forall_mem_cons] at h
      exact ⟨(madtEntry_inside hfits.2.2).mpr h.1, (ih _ _).mpr h.2⟩

/-! ### The tables as a whole -/

/-- The MADT has room for its header and its entries for their fields. -/
def MadtFits (ram : Ram) (p : Nat) : Prop :=
  40 ≤ tableLen ram p ∧ EntriesFit ram p maxMadtEntries 44

/-- The units of the DMAR that are recorded have room for their fields. -/
def DmarFits (ram : Ram) (p : Nat) : Prop :=
  dmarStructsOffset ≤ tableLen ram p → DrhdsFit ram p maxDmarStructs dmarStructsOffset maxDrhd

/-- The fixed field of the MADT is read without a look at the length. -/
theorem parseMadt_inside : (parseMadt ram p).Inside ram ↔ MadtFits ram p := by
  simp only [parseMadt, rdU32, Walk.inside_bind, Walk.inside_rd, Walk.inside_pure, inside_table,
    and_true, and_self, or_true, true_and]
  show _ ∧ (madtLoop ram (.table p) (tableLen ram p) _ _ _).Inside ram ↔ _
  rw [madtLoop_inside]
  unfold MadtFits
  constructor
  · rintro ⟨hheader, hentries⟩
    exact ⟨by omega, hentries⟩
  · rintro ⟨hheader, hentries⟩
    exact ⟨Or.inl (by omega), hentries⟩

theorem parseDmar_inside : (parseDmar ram p).Inside ram ↔ DmarFits ram p := by
  simp only [parseDmar, rdU8, rdU32, Walk.inside_bind, Walk.inside_rd, Walk.inside_ite,
    Walk.inside_pure, inside_table, and_true, and_self, or_true, true_and, implies_true]
  show (¬ tableLen ram p < dmarStructsOffset →
    _ ∧ (dmarLoop ram (.table p) (tableLen ram p) _ _ _).Inside ram) ↔ _
  rw [dmarLoop_inside _ _ _ (Nat.zero_le _)]
  unfold DmarFits
  constructor
  · intro h hlen
    exact (h (by omega)).2
  · intro h hlen
    refine ⟨Or.inl ?_, h (by omega)⟩
    unfold dmarStructsOffset at hlen
    omega

theorem rdBytes_inside {offs : List Nat} (h : ∀ off ∈ offs, off + 1 ≤ rsdpSize) :
    (rdBytes ram (.rsdp p) offs).Inside ram := by
  induction offs with
  | nil => exact Walk.inside_pure _
  | cons off offs ih =>
    simp only [rdBytes, rdU8, Walk.inside_bind, Walk.inside_rd, Walk.inside_pure, and_true]
    exact ⟨h off (List.mem_cons_self ..), ih fun o ho => h o (.tail _ ho)⟩

/-- The RSDP is read at fixed offsets. -/
theorem sdtFromRsdp_inside : (sdtFromRsdp ram p).Inside ram := by
  simp only [sdtFromRsdp, rdU8, rdU32, rdU64, Walk.inside_bind, Walk.inside_ite, Walk.inside_rd,
    Walk.inside_pure, implies_true, and_true, true_and]
  refine ⟨rdBytes_inside (by decide), fun _ => ⟨?_, fun _ => ?_, fun _ => ?_⟩⟩
  · show 15 + 1 ≤ 36
    omega
  · show 24 + 8 ≤ 36
    omega
  · show 16 + 4 ≤ 36
    omega

theorem sdtFromRsdp_size (h : (sdtFromRsdp ram p).value = some (sdt, entrySize)) :
    entrySize = 8 ∨ entrySize = 4 := by
  simp only [sdtFromRsdp, Walk.value_bind] at h
  split at h
  · cases h
  · simp only [Walk.value_bind] at h
    split at h
    · cases h
      exact Or.inl rfl
    · cases h
      exact Or.inr rfl

end

/-! ### What is recorded -/

/-- The arrays of a topology have room for what is recorded. -/
def Topology.Bounded (top : Topology) : Prop :=
  top.isos.length ≤ maxIsos ∧ top.cpuApicIds.length ≤ maxCpus

section

variable {ram : Ram} {p : Base} {st : Scan}

/-- An entry is recorded only when there is room. -/
theorem madtEntry_bounded {off etype : Nat} (h : st.top.Bounded) :
    (madtEntry ram p off etype st).value.top.Bounded := by
  unfold madtEntry
  split
  · simp only [Walk.value_bind]
    split
    · simp only [Walk.value_pure]
      split
      · rename_i hroom
        exact ⟨h.1, by rw [List.length_append]; exact hroom⟩
      · exact h
    · exact h
  · simp only [Walk.value_bind, Walk.value_pure]
    split
    · exact h
    · exact h
  · simp only [Walk.value_bind, Walk.value_pure]
    split
    · rename_i hroom
      exact ⟨by rw [List.length_append]; exact hroom, h.2⟩
    · exact h
  · exact h
  · simp only [Walk.value_bind, Walk.value_pure]
    split
    · exact h
    · exact h
  · exact h

theorem madtLoop_bounded (length n off : Nat) (h : st.top.Bounded) :
    (madtLoop ram p length n off st).value.top.Bounded := by
  induction n generalizing off st with
  | zero => exact h
  | succ n ih =>
    unfold madtLoop
    split
    · simp only [Walk.value_bind]
      split
      · exact h
      · simp only [Walk.value_bind, Walk.value_decoding]
        exact ih _ (madtEntry_bounded h)
    · exact h

theorem parseMadt_bounded (phys : Nat) : (parseMadt ram phys).value.Bounded := by
  simp only [parseMadt, Walk.value_bind, Walk.value_pure]
  exact madtLoop_bounded _ _ _ ⟨Nat.zero_le _, Nat.zero_le _⟩

/-- No more units are recorded than there is room for. -/
theorem parseDmar_bounded {phys : Nat} {dmar : Dmar} (h : (parseDmar ram phys).value = some dmar) :
    dmar.drhds.length ≤ maxDrhd := by
  simp only [parseDmar, Walk.value_bind] at h
  split at h
  · cases h
  · simp only [Walk.value_bind, Walk.value_pure, Option.some.injEq] at h
    subst h
    exact dmarLoop_length _ _ _ _ (Nat.zero_le _)

end

/-! ### The walks of a boot -/

/-- The tables of an RSDT or XSDT are as the parsers take them: each one that is looked at has room
for a signature, and the ones that are found have room for their fields. -/
structure TablesFit (ram : Ram) (sdt entrySize : Nat) : Prop where
  signatures : ∀ sig ∈ [sigApic, sigFacp, sigDmar, sigIvrs], ∀ phys,
    Examined ram sdt entrySize sig phys → 4 ≤ tableLen ram phys
  madt : ∀ phys, Finds ram sdt entrySize sigApic phys → MadtFits ram phys
  dmar : ∀ phys, Finds ram sdt entrySize sigDmar phys → DmarFits ram phys
  ivrs : ∀ phys, Finds ram sdt entrySize sigIvrs phys → IvrsFits ram phys

/-- All reads of the three walks of a boot are inside. -/
def WalksInside (ram : Ram) (rsdp : Option Nat) : Prop :=
  (init ram rsdp).Inside ram ∧ (findDmar ram rsdp).Inside ram ∧ (findIvrs ram rsdp).Inside ram

/-- The walks record no more than there is room for. -/
def WalksBounded (ram : Ram) (rsdp : Option Nat) : Prop :=
  (∀ top ∈ (init ram rsdp).value.1, top.Bounded) ∧
    ∀ dmar ∈ (findDmar ram rsdp).value, dmar.drhds.length ≤ maxDrhd

variable {ram : Ram} {rsdp : Option Nat} {phys sdt entrySize : Nat} {sig : List Nat}

/-- A parser runs on the table that is found, if there is one. -/
theorem found_iff (hsize : entrySize = 8 ∨ entrySize = 4) {P : Nat → Prop} :
    (∀ t, Finds ram sdt entrySize sig t → P t) ↔
      ∀ t ∈ (findTable ram sdt entrySize sig).value, P t := by
  constructor
  · intro h t ht
    exact h t ((findTable_value hsize).mp ht)
  · intro h t ht
    exact h t ((findTable_value hsize).mpr ht)

theorem init_inside (h : (sdtFromRsdp ram phys).value = some (sdt, entrySize)) :
    (init ram (some phys)).Inside ram ↔
      (∀ t, Examined ram sdt entrySize sigApic t → 4 ≤ tableLen ram t) ∧
      (∀ t, Examined ram sdt entrySize sigFacp t → 4 ≤ tableLen ram t) ∧
      ∀ t, Finds ram sdt entrySize sigApic t → MadtFits ram t := by
  have hsize := sdtFromRsdp_size h
  simp only [init, Walk.inside_bind, h, findMadt, sdtFromRsdp_inside, true_and,
    findTable_inside hsize, findPoweroff_inside hsize, found_iff hsize]
  split
  · rename_i hnone
    simp [hnone]
  · rename_i madt hmadt
    simp [hmadt, parseMadt_inside]

theorem findDmar_inside (h : (sdtFromRsdp ram phys).value = some (sdt, entrySize)) :
    (findDmar ram (some phys)).Inside ram ↔
      (∀ t, Examined ram sdt entrySize sigDmar t → 4 ≤ tableLen ram t) ∧
      ∀ t, Finds ram sdt entrySize sigDmar t → DmarFits ram t := by
  have hsize := sdtFromRsdp_size h
  simp only [findDmar, Walk.inside_bind, h, sdtFromRsdp_inside, true_and, findTable_inside hsize,
    found_iff hsize]
  split
  · rename_i hnone
    simp [hnone]
  · rename_i dmar hdmar
    simp [hdmar, parseDmar_inside]

theorem findIvrs_inside (h : (sdtFromRsdp ram phys).value = some (sdt, entrySize)) :
    (findIvrs ram (some phys)).Inside ram ↔
      (∀ t, Examined ram sdt entrySize sigIvrs t → 4 ≤ tableLen ram t) ∧
      ∀ t, Finds ram sdt entrySize sigIvrs t → IvrsFits ram t := by
  have hsize := sdtFromRsdp_size h
  simp only [findIvrs, Walk.inside_bind, h, sdtFromRsdp_inside, true_and, findTable_inside hsize,
    found_iff hsize]
  split
  · rename_i hnone
    simp [hnone]
  · rename_i ivrs hivrs
    simp [hivrs, parseIvrs_inside]

/-- Without tables only the RSDP is read. -/
theorem walksInside_none (h : (sdtFromRsdp ram phys).value = none) :
    WalksInside ram (some phys) := by
  refine ⟨?_, ?_, ?_⟩
  · simp [init, h, sdtFromRsdp_inside]
  · simp [findDmar, h, sdtFromRsdp_inside]
  · simp [findIvrs, h, sdtFromRsdp_inside]

theorem walksInside_some (h : (sdtFromRsdp ram phys).value = some (sdt, entrySize)) :
    WalksInside ram (some phys) ↔ TablesFit ram sdt entrySize := by
  unfold WalksInside
  rw [init_inside h, findDmar_inside h, findIvrs_inside h]
  constructor
  · rintro ⟨⟨hapic, hfacp, hmadt⟩, ⟨hdmarSig, hdmar⟩, hivrsSig, hivrs⟩
    refine ⟨?_, hmadt, hdmar, hivrs⟩
    simp only [List.forall_mem_cons]
    exact ⟨hapic, hfacp, hdmarSig, hivrsSig, nofun⟩
  · rintro ⟨hsigs, hmadt, hdmar, hivrs⟩
    simp only [List.forall_mem_cons] at hsigs
    obtain ⟨hapic, hfacp, hdmarSig, hivrsSig, -⟩ := hsigs
    exact ⟨⟨hapic, hfacp, hmadt⟩, ⟨hdmarSig, hdmar⟩, hivrsSig, hivrs⟩

/-- What is recorded does not depend on how the tables are formed. -/
theorem walksBounded (ram : Ram) (rsdp : Option Nat) : WalksBounded ram rsdp := by
  constructor
  · intro top htop
    unfold init at htop
    split at htop
    · cases htop
    · simp only [Walk.value_bind] at htop
      split at htop
      · cases htop
      · simp only [Walk.value_bind] at htop
        split at htop
        · cases htop
        · cases htop
          exact parseMadt_bounded _
  · intro dmar hdmar
    unfold findDmar at hdmar
    split at hdmar
    · cases hdmar
    · simp only [Walk.value_bind] at hdmar
      split at hdmar
      · cases hdmar
      · simp only [Walk.value_bind] at hdmar
        split at hdmar
        · cases hdmar
        · exact parseDmar_bounded hdmar

/-- The walks stop at the arrays' ends for all tables. They read inside of the tables and of the
records that they decode just when each table that is looked at states at least four bytes, and the
MADT and its entries, the IVHD and the recorded DRHDs are as long as the fields that are read. -/
theorem walks_inside_iff (ram : Ram) (rsdp : Option Nat) :
    WalksInside ram rsdp ∧ WalksBounded ram rsdp ↔
      ∀ phys ∈ rsdp, ∀ sdt entrySize, (sdtFromRsdp ram phys).value = some (sdt, entrySize) →
        TablesFit ram sdt entrySize := by
  rw [and_iff_left (walksBounded ram rsdp)]
  cases rsdp with
  | none =>
    refine ⟨fun _ => nofun, fun _ => ⟨?_, ?_, ?_⟩⟩
    · exact Walk.inside_pure _
    · exact Walk.inside_pure _
    · exact Walk.inside_pure _
  | some phys =>
    constructor
    · intro h other hmem sdt entrySize hsdt
      cases Option.mem_some_iff.mp hmem
      exact (walksInside_some hsdt).mp h
    · intro h
      rcases hsdt : (sdtFromRsdp ram phys).value with _ | ⟨sdt, entrySize⟩
      · exact walksInside_none hsdt
      · exact (walksInside_some hsdt).mpr (h phys rfl sdt entrySize hsdt)

/-- An RSDP of the first revision, an RSDT with one table at 64, and a MADT at 128. The MADT has 46
bytes: its one entry is a local APIC that states two bytes. -/
def shortEntry : Ram := fun a =>
  (rsdPtr ++ List.replicate 8 0 ++ [64] ++ List.replicate 51 0 ++ [40] ++ List.replicate 31 0 ++
    [128] ++ List.replicate 27 0 ++ sigApic ++ [46] ++ List.replicate 40 0 ++ [2]).getD a 0
    |> UInt8.ofNat

/-- The APIC id of the entry is at offset 47. -/
theorem shortEntry_not_inside :
    ⟨.table 128, 47, 1, some ⟨44, 2⟩⟩ ∈ (init shortEntry (some 0)).reads ∧
      tableLen shortEntry 128 = 46 ∧ ¬ WalksInside shortEntry (some 0) := by
  have hread : (⟨.table 128, 47, 1, some ⟨44, 2⟩⟩ : Access) ∈ (init shortEntry (some 0)).reads := by
    decide +kernel
  refine ⟨hread, by decide +kernel, fun h => ?_⟩
  have hinside := h.1 _ hread
  revert hinside
  decide +kernel

end Acpi

end Plinth
