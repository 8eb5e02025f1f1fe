import Mathlib.Algebra.GroupWithZero.Nat
import Mathlib.Data.List.Basic
import Mathlib.Data.Nat.Bitwise
import Mathlib.Logic.Function.Basic

/-!
# `Plinth.Common.IndexRing`: a ring with free-running indices

A ring of `mask + 1` entries between a producer and a consumer. Both indices run freely through
the 32-bit words, and an index selects the entry `index &&& mask`. The producer does not look at
the head: `push` writes the entry at the tail in any case.

`push_contents` is the rule for a push that finds room, and `advance_contents` the rule for the
consumer. Together they say that the ring is a FIFO as long as every push finds room.
-/

set_option autoImplicit false

/-- The entries of a ring, with the indices of the consumer and of the producer. -/
structure IndexRing (α : Type) where
  slots : Nat → α
  head : UInt32
  tail : UInt32

namespace IndexRing

/-- The ring has a power of two as its size. -/
def Sized (mask : UInt32) : Prop := ∃ k, k < 32 ∧ mask.toNat + 1 = 2 ^ k

/-- The entry that an index selects. -/
def index (mask i : UInt32) : Nat := (i &&& mask).toNat

variable {α : Type} {mask : UInt32} {r : IndexRing α}

/-- The number of entries between the head and the tail. -/
def count (r : IndexRing α) : Nat := (r.tail - r.head).toNat

/-- The entry that stands `j` places behind the head. -/
def entry (mask : UInt32) (r : IndexRing α) (j : Nat) : α :=
  r.slots (index mask (r.head + UInt32.ofNat j))

/-- The first `n` entries that a consumer reads. -/
def entries (mask : UInt32) (r : IndexRing α) (n : Nat) : List α :=
  (List.range n).map (r.entry mask)

/-- What the consumer has not taken yet. -/
def contents (mask : UInt32) (r : IndexRing α) : List α := r.entries mask r.count

/-- Write an entry at the tail and move the tail on. -/
def push (mask : UInt32) (r : IndexRing α) (a : α) : IndexRing α :=
  { r with slots := Function.update r.slots (index mask r.tail) a, tail := r.tail + 1 }

/-- Move the head past `n` entries. -/
def advance (r : IndexRing α) (n : Nat) : IndexRing α := { r with head := r.head + UInt32.ofNat n }

/-! ### Indices -/

theorem index_add (h : Sized mask) (i : UInt32) (j : Nat) :
    index mask (i + UInt32.ofNat j) = (i.toNat + j) % (mask.toNat + 1) := by
  obtain ⟨k, hk, hmask⟩ := h
  have hdvd : 2 ^ k ∣ 2 ^ 32 := Nat.pow_dvd_pow 2 (by omega)
  unfold index
  rw [UInt32.toNat_and, show mask.toNat = 2 ^ k - 1 by omega, Nat.and_two_pow_sub_one_eq_mod,
    UInt32.toNat_add, UInt32.toNat_ofNat', Nat.mod_mod_of_dvd _ hdvd, Nat.add_mod,
    Nat.mod_mod_of_dvd _ hdvd, ← Nat.add_mod, Nat.sub_add_cancel Nat.one_le_two_pow]

/-- Two indices that are less than a lap apart select different entries. -/
theorem index_ne (h : Sized mask) (i : UInt32) {j k : Nat} (hjk : j < k)
    (hlap : k < j + (mask.toNat + 1)) :
    index mask (i + UInt32.ofNat j) ≠ index mask (i + UInt32.ofNat k) := by
  rw [index_add h, index_add h]
  intro heq
  have hdvd : mask.toNat + 1 ∣ i.toNat + k - (i.toNat + j) :=
    Nat.dvd_iff_mod_eq_zero.mpr (Nat.sub_mod_eq_zero_of_mod_eq heq.symm)
  have hle := Nat.le_of_dvd (by omega) hdvd
  omega

theorem tail_eq (r : IndexRing α) : r.tail = r.head + UInt32.ofNat r.count := by
  unfold count
  rw [UInt32.ofNat_toNat, UInt32.add_comm, UInt32.sub_add_cancel]

@[simp] theorem length_entries (r : IndexRing α) (n : Nat) : (r.entries mask n).length = n := by
  simp [entries]

@[simp] theorem length_contents (r : IndexRing α) : (r.contents mask).length = r.count :=
  length_entries r r.count

/-! ### The producer -/

theorem count_push (h : r.count + 1 < 2 ^ 32) (a : α) : (r.push mask a).count = r.count + 1 := by
  have htail := r.tail.toNat_lt
  have hhead := r.head.toNat_lt
  have hone : (1 : UInt32).toNat = 1 := rfl
  show (r.tail + 1 - r.head).toNat = (r.tail - r.head).toNat + 1
  change (r.tail - r.head).toNat + 1 < 2 ^ 32 at h
  rw [UInt32.toNat_sub] at h ⊢
  rw [UInt32.toNat_sub, UInt32.toNat_add, hone]
  omega

theorem count_push_le (mask : UInt32) (r : IndexRing α) (a : α) :
    (r.push mask a).count ≤ r.count + 1 := by
  have hone : (1 : UInt32).toNat = 1 := rfl
  show (r.tail + 1 - r.head).toNat ≤ (r.tail - r.head).toNat + 1
  rw [UInt32.toNat_sub, UInt32.toNat_sub, UInt32.toNat_add, hone]
  omega

/-- A push writes one entry. Without room that can be one that was there. -/
theorem entry_push (mask : UInt32) (r : IndexRing α) (a : α) (j : Nat) :
    (r.push mask a).entry mask j = r.entry mask j ∨ (r.push mask a).entry mask j = a := by
  unfold entry push
  dsimp only
  rcases eq_or_ne (index mask (r.head + UInt32.ofNat j)) (index mask r.tail) with heq | hne
  · rw [heq, Function.update_self]
    exact Or.inr rfl
  · rw [Function.update_of_ne hne]
    exact Or.inl rfl

theorem entry_push_count (mask : UInt32) (r : IndexRing α) (a : α) :
    (r.push mask a).entry mask r.count = a := by
  show Function.update r.slots (index mask r.tail) a
    (index mask (r.head + UInt32.ofNat r.count)) = a
  rw [← r.tail_eq, Function.update_self]

/-- A push that finds room leaves the entries that wait as they are. -/
theorem entry_push_lt (hsize : Sized mask) (hroom : r.count < mask.toNat + 1) (a : α) {j : Nat}
    (hj : j < r.count) : (r.push mask a).entry mask j = r.entry mask j := by
  -- An entry that was there is not the one at the tail: they are less than a lap apart.
  have hne : index mask (r.head + UInt32.ofNat j) ≠ index mask r.tail := by
    rw [r.tail_eq]
    exact index_ne hsize r.head hj (by omega)
  exact Function.update_of_ne hne a r.slots

/-- A push that finds room appends its entry. -/
theorem push_contents (hsize : Sized mask) (hroom : r.count < mask.toNat + 1) (a : α) :
    (r.push mask a).contents mask = r.contents mask ++ [a] := by
  have hlt := mask.toNat_lt
  have hcount : (r.push mask a).count = r.count + 1 := by
    refine count_push ?_ a
    obtain ⟨k, hk, hmask⟩ := hsize
    have hle : 2 ^ k ≤ 2 ^ 31 := Nat.pow_le_pow_right (by omega) (by omega)
    omega
  unfold contents
  rw [hcount]
  unfold entries
  rw [List.range_succ, List.map_append, List.map_singleton]
  congr 1
  · apply List.map_congr_left
    intro j hj
    exact entry_push_lt hsize hroom a (List.mem_range.mp hj)
  · rw [entry_push_count]

/-- What waits after a push, with room or without it. -/
theorem mem_contents_push {a b : α} (h : b ∈ (r.push mask a).contents mask) :
    b ∈ r.contents mask ∨ b = a := by
  obtain ⟨j, hj, hb⟩ := List.mem_map.mp h
  have hle := count_push_le mask r a
  have hlt := List.mem_range.mp hj
  rcases entry_push mask r a j with hsame | hnew
  · by_cases hcount : j = r.count
    · subst hcount
      rw [entry_push_count] at hb
      exact Or.inr hb.symm
    · rw [hsame] at hb
      exact Or.inl (List.mem_map.mpr ⟨j, List.mem_range.mpr (by omega), hb⟩)
  · rw [hnew] at hb
    exact Or.inr hb.symm

/-! ### The consumer -/

theorem count_advance {n : Nat} (h : n ≤ r.count) : (r.advance n).count = r.count - n := by
  have htail := r.tail.toNat_lt
  have hhead := r.head.toNat_lt
  show (r.tail - (r.head + UInt32.ofNat n)).toNat = (r.tail - r.head).toNat - n
  change n ≤ (r.tail - r.head).toNat at h
  rw [UInt32.toNat_sub] at h ⊢
  rw [UInt32.toNat_sub, UInt32.toNat_add, UInt32.toNat_ofNat']
  omega

theorem entry_advance (r : IndexRing α) (n j : Nat) :
    (r.advance n).entry mask j = r.entry mask (n + j) := by
  unfold entry advance
  rw [UInt32.ofNat_add, ← UInt32.add_assoc]

/-- The consumer takes the first entries, and the others stay. -/
theorem advance_contents {n : Nat} (h : n ≤ r.count) :
    r.entries mask n ++ (r.advance n).contents mask = r.contents mask := by
  unfold contents
  rw [count_advance h]
  obtain ⟨m, hm⟩ := Nat.exists_eq_add_of_le h
  rw [hm, Nat.add_sub_cancel_left]
  unfold entries
  rw [List.range_add, List.map_append, List.map_map]
  congr 1
  apply List.map_congr_left
  intro j _
  exact entry_advance r n j

/-- A consumer that takes everything leaves nothing. -/
theorem contents_advance_count (r : IndexRing α) : (r.advance r.count).contents mask = [] := by
  have hempty : (r.advance r.count).count = 0 := by
    rw [count_advance (Nat.le_refl _), Nat.sub_self]
  unfold contents
  rw [hempty]
  rfl

/-! ### Rings with one entry or none -/

/-- The number of entries that wait is the length of what waits. -/
theorem count_of_contents {l : List α} (h : r.contents mask = l) : r.count = l.length := by
  rw [← h, length_contents]

theorem contents_eq_nil : r.contents mask = [] ↔ r.head = r.tail := by
  rw [← List.length_eq_zero_iff, length_contents]
  unfold count
  constructor
  · intro h
    have hzero : r.tail - r.head = 0 := UInt32.toNat_inj.mp h
    have hsum := UInt32.sub_add_cancel r.tail r.head
    rw [hzero, UInt32.zero_add] at hsum
    exact hsum
  · intro h
    rw [h, UInt32.sub_self]
    rfl

theorem count_pos (h : r.head ≠ r.tail) : 1 ≤ r.count := by
  refine Nat.one_le_iff_ne_zero.mpr fun hzero => h ?_
  have hnil : r.contents 0 = [] := List.eq_nil_of_length_eq_zero (by rw [length_contents, hzero])
  exact contents_eq_nil.mp hnil

/-- A push into an empty ring. -/
theorem push_of_empty (hsize : Sized mask) (h : r.head = r.tail) (a : α) :
    (r.push mask a).contents mask = [a] := by
  have hnil : r.contents mask = [] := contents_eq_nil.mpr h
  have hcount := count_of_contents hnil
  rw [push_contents hsize (by rw [hcount]; exact Nat.succ_pos _), hnil]
  rfl

/-- The first entry of a ring, and the ring without it. -/
theorem entry_cons {a : α} {l : List α} (h : r.contents mask = a :: l) :
    r.entry mask 0 = a ∧ (r.advance 1).contents mask = l := by
  have hcount := count_of_contents h
  have hsplit : r.entries mask 1 ++ (r.advance 1).contents mask = r.contents mask :=
    advance_contents (by rw [hcount]; exact Nat.succ_le_succ (Nat.zero_le _))
  rw [h] at hsplit
  exact List.cons.inj hsplit

end IndexRing
