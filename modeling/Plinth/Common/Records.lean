import Mathlib.Data.List.Basic

/-!
# `Plinth.Common.Records`: records that state their lengths

A list of records, one after the other, ends at `limit`. Each record states its length, and the next
one begins where it ends. `offsets` are the records of a list: as long as a header fits, and the
length is at least that of a header and does not pass the limit, up to a number of records.
-/

set_option autoImplicit false

/-- A list of records. -/
structure Records where
  limit : Nat
  /-- The size of a header, which is the least length of a record. -/
  header : Nat
  /-- The length that the record at an offset states. -/
  length : Nat → Nat

namespace Records

variable {r : Records} {off start n : Nat}

/-- There is a record at the offset. -/
def Fits (r : Records) (off : Nat) : Prop :=
  off + r.header ≤ r.limit ∧ r.header ≤ r.length off ∧ off + r.length off ≤ r.limit

instance (r : Records) (off : Nat) : Decidable (r.Fits off) :=
  inferInstanceAs (Decidable (_ ∧ _ ∧ _))

/-- The offsets of the records from `off`, at most `n`. -/
def offsets (r : Records) : Nat → Nat → List Nat
  | 0, _ => []
  | n + 1, off => if r.Fits off then off :: r.offsets n (off + r.length off) else []

theorem offsets_succ (h : r.Fits off) :
    r.offsets (n + 1) off = off :: r.offsets n (off + r.length off) := if_pos h

theorem offsets_nil (h : ¬ r.Fits off) : r.offsets (n + 1) off = [] := if_neg h

end Records
