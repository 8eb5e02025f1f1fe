import Mathlib.Logic.Function.Basic
import Plinth.Storage.Directory

/-!
# `Plinth.Storage.FileMap`: the directory as a finite map

The directory stands for a map from names to entries. A request is one call of `create`, `remove`
or `find`, and `Files` is the map that the answers so far describe: a successful `create` adds its
entry, a successful `remove` takes it out.

`Agrees` says that the directory answers every call as the map does. It needs names without a zero
byte: the name field is padded with zero bytes, and a stored name is read up to the first of them.
`create` does not check for this, so `refines_iff` has the condition `Sayable` for each request.
-/

set_option autoImplicit false

namespace Plinth.Rwfs.Directory

open Bytes

/-! ### Requests -/

/-- A name that `create` accepts: 1 to 32 bytes, of any value. -/
def Fits (name : List UInt8) : Prop := name ≠ [] ∧ name.length ≤ nameLen

instance (name : List UInt8) : Decidable (Fits name) := inferInstanceAs (Decidable (_ ∧ _))

/-- A call on the directory. -/
inductive Request where
  | create (name : List UInt8) (first len : UInt32)
  | remove (name : List UInt8)
  | find (name : List UInt8)
  deriving DecidableEq, Repr

/-- The name that a request is about. -/
def Request.name : Request → List UInt8
  | create name _ _ => name
  | remove name => name
  | find name => name

/-- The directory after a request. -/
def Request.run (dir : List UInt8) : Request → List UInt8
  | create name first len => (Directory.create dir name first.toNat len.toNat).toOption.getD dir
  | remove name => ((Directory.remove dir name).toOption.map Prod.snd).getD dir
  | find _ => dir

/-! ### The map -/

/-- The map that the directory stands for. -/
abbrev Files := List UInt8 → Option Entry

/-- The answer of the map to a look up. -/
def lookUp (files : Files) (name : List UInt8) : Except DirError Entry :=
  match files name with
  | some e => .ok e
  | none => .error .notFound

/-- What a request does to the map. Only a request that returns `Ok` does anything. -/
def Request.record (dir : List UInt8) (files : Files) : Request → Files
  | create name first len =>
    if (Directory.create dir name first.toNat len.toNat).isOk then
      Function.update files name (some ⟨first.toNat, len.toNat⟩)
    else files
  | remove name =>
    if (Directory.remove dir name).isOk then Function.update files name none else files
  | find _ => files

section

variable (dir name : List UInt8) (files : Files) (first len : UInt32)

theorem run_create : (Request.create name first len).run dir =
    (Directory.create dir name first.toNat len.toNat).toOption.getD dir := rfl

theorem record_create : (Request.create name first len).record dir files =
    if (Directory.create dir name first.toNat len.toNat).isOk then
      Function.update files name (some ⟨first.toNat, len.toNat⟩)
    else files := rfl

theorem run_remove : (Request.remove name).run dir =
    ((Directory.remove dir name).toOption.map Prod.snd).getD dir := rfl

theorem record_remove : (Request.remove name).record dir files =
    if (Directory.remove dir name).isOk then Function.update files name none else files := rfl

end

/-- A request changes the map at its own name only. -/
theorem record_other {dir n : List UInt8} {files : Files} (r : Request) (hn : n ≠ r.name) :
    r.record dir files n = files n := by
  cases r with
  | create name first len =>
    rw [record_create]
    split
    · exact Function.update_of_ne hn _ _
    · rfl
  | remove name =>
    rw [record_remove]
    split
    · exact Function.update_of_ne hn _ _
    · rfl
  | find name => rfl

/-- The directory holds an entry of the map in each of its slots. -/
def AllLive (dir : List UInt8) (files : Files) : Prop :=
  ∀ i < capacity dir.length, ∃ name e, view dir i = some (name, e) ∧ files name = some e

/-- The directory answers as the map does. -/
structure Agrees (dir : List UInt8) (files : Files) : Prop where
  find : ∀ name, Fits name → Directory.find dir name = lookUp files name
  remove : ∀ name, Fits name → (Directory.remove dir name).map Prod.fst = lookUp files name
  duplicate : ∀ name first len, Fits name →
    (create dir name first len = .error .duplicate ↔ files name ≠ none)
  full : ∀ name first len, Fits name →
    (create dir name first len = .error .full ↔ files name = none ∧ AllLive dir files)

/-- A request changes the entry of no other name. -/
def Request.Frames (dir : List UInt8) (r : Request) : Prop :=
  ∀ name, Fits name → name ≠ r.name → Directory.find (r.run dir) name = Directory.find dir name

/-- From this state on, the directory answers as the map does: now, and after each of the
requests. -/
def Refines (dir : List UInt8) (files : Files) : List Request → Prop
  | [] => Agrees dir files
  | r :: rest => Agrees dir files ∧ r.Frames dir ∧ Refines (r.run dir) (r.record dir files) rest

/-- A request that the format has a place for: a `create` whose name contains a zero byte finds the
directory full. -/
def Request.Sayable (dir : List UInt8) : Request → Prop
  | create name _ _ => 0 ∈ name → ∀ i < capacity dir.length, isFree (slot dir i) = false
  | remove _ => True
  | find _ => True

/-- Each request is one that the format has a place for, in the state in which it is made. -/
def AllSayable (dir : List UInt8) : List Request → Prop
  | [] => True
  | r :: rest => r.Sayable dir ∧ AllSayable (r.run dir) rest

/-! ### The relation between the slots and the map -/

section

variable {dir dir' name n : List UInt8} {files : Files} {i j first len : Nat} {e e' : Entry}

/-- The slots hold the map, and no name is in two of them. -/
structure Stores (dir : List UInt8) (files : Files) : Prop where
  holds : ∀ name e, files name = some e ↔
    ∃ i, i < capacity dir.length ∧ view dir i = some (name, e)
  unique : ∀ i j name e e', i < capacity dir.length → j < capacity dir.length →
    view dir i = some (name, e) → view dir j = some (name, e') → i = j

/-- A successful `create` found a free slot. -/
theorem room_of_create (h : create dir name first len = .ok dir') :
    ∃ i, i < capacity dir.length ∧ isFree (slot dir i) = true := by
  unfold create at h
  split at h
  · cases h
  · split at h
    · cases h
    · split at h
      · rename_i i hslot
        exact ⟨i, firstSlot_some hslot⟩
      · cases h

/-- The empty directory. -/
theorem stores_zeros (bytes : Nat) : Stores (zeros bytes) fun _ => none := by
  have hfree : ∀ i, view (zeros bytes) i = none := by
    intro i
    rw [view_eq_none]
    unfold isFree slot slice zeros
    rw [List.drop_replicate, List.take_replicate, List.getD_eq_getElem?_getD,
      List.getElem?_replicate]
    split <;> rfl
  refine ⟨fun name e => ⟨fun h => (by cases h), ?_⟩, ?_⟩
  · rintro ⟨i, -, hview⟩
    rw [hfree i] at hview
    cases hview
  · intro i j name e e' _ _ hview
    rw [hfree i] at hview
    cases hview

namespace Stores

variable (h : Stores dir files)
include h

/-- `find` finds exactly what the map has. -/
theorem find_eq (name : List UInt8) : Directory.find dir name = lookUp files name := by
  unfold lookUp
  cases hfind : Directory.find dir name with
  | ok e =>
    rw [(h.holds name e).mpr (find_ok hfind)]
  | error x =>
    obtain ⟨rfl, hnone⟩ := find_error hfind
    cases hfiles : files name with
    | none => rfl
    | some e =>
      obtain ⟨i, hi, hview⟩ := (h.holds name e).mp hfiles
      exact absurd hview (hnone i e hi)

theorem find_isOk (name : List UInt8) :
    (∃ e, Directory.find dir name = .ok e) ↔ files name ≠ none := by
  rw [h.find_eq name]
  unfold lookUp
  cases files name with
  | none => exact ⟨fun ⟨_, hok⟩ => (by cases hok), fun hne => absurd rfl hne⟩
  | some e => exact ⟨fun _ => Option.some_ne_none e, fun _ => ⟨e, rfl⟩⟩

theorem remove_eq (name : List UInt8) :
    (Directory.remove dir name).map Prod.fst = lookUp files name := by
  unfold lookUp
  cases hremove : Directory.remove dir name with
  | ok p =>
    obtain ⟨-, i, hi, hview, -⟩ := remove_ok hremove
    rw [(h.holds name p.1).mpr ⟨i, hi, hview⟩]
    rfl
  | error x =>
    obtain ⟨rfl, hnone⟩ := remove_error hremove
    cases hfiles : files name with
    | none => rfl
    | some e =>
      obtain ⟨i, hi, hview⟩ := (h.holds name e).mp hfiles
      exact absurd hview (hnone i e hi)

/-- The taken slots are the ones with an entry of the map. -/
theorem allLive_iff :
    AllLive dir files ↔ ∀ i < capacity dir.length, isFree (slot dir i) = false := by
  constructor
  · intro hlive i hi
    obtain ⟨name, e, hview, -⟩ := hlive i hi
    cases hfree : isFree (slot dir i) with
    | false => rfl
    | true => rw [view_eq_none.mpr hfree] at hview; cases hview
  · intro htaken i hi
    cases hview : view dir i with
    | none => rw [view_eq_none, htaken i hi] at hview; cases hview
    | some p => exact ⟨p.1, p.2, rfl, (h.holds p.1 p.2).mpr ⟨i, hi, hview⟩⟩

/-- `create` of a name that is in the map. -/
theorem create_present (hfits : Fits name) (hname : files name ≠ none) :
    create dir name first len = .error .duplicate := by
  obtain ⟨e, hfind⟩ := (h.find_isOk name).mpr hname
  unfold create
  rw [if_neg (not_or.mpr ⟨hfits.1, Nat.not_lt.mpr hfits.2⟩), hfind]

/-- `create` of another name takes the first free slot. -/
theorem create_room (hfits : Fits name) (hname : files name = none)
    (hslot : (firstSlot dir fun i => isFree (slot dir i)) = some i) :
    create dir name first len = .ok (overwrite dir (i * entrySize) (filled name first len)) := by
  unfold create
  rw [if_neg (not_or.mpr ⟨hfits.1, Nat.not_lt.mpr hfits.2⟩), h.find_eq name, lookUp, hname]
  dsimp only
  rw [hslot]

theorem create_no_room (hfits : Fits name) (hname : files name = none)
    (hslot : (firstSlot dir fun i => isFree (slot dir i)) = none) :
    create dir name first len = .error .full := by
  unfold create
  rw [if_neg (not_or.mpr ⟨hfits.1, Nat.not_lt.mpr hfits.2⟩), h.find_eq name, lookUp, hname]
  dsimp only
  rw [hslot]

theorem agrees : Agrees dir files := by
  refine ⟨fun name _ => h.find_eq name, fun name _ => h.remove_eq name, ?_, ?_⟩
  · intro name first len hfits
    constructor
    · intro hdup hname
      cases hslot : firstSlot dir fun i => isFree (slot dir i) with
      | some i => rw [h.create_room hfits hname hslot] at hdup; cases hdup
      | none => rw [h.create_no_room hfits hname hslot] at hdup; cases hdup
    · exact fun hname => h.create_present hfits hname
  · intro name first len hfits
    rw [h.allLive_iff]
    cases hslot : firstSlot dir fun i => isFree (slot dir i) with
    | some i =>
      obtain ⟨hi, hfree⟩ := firstSlot_some hslot
      constructor
      · intro hfull
        by_cases hname : files name = none
        · rw [h.create_room hfits hname hslot] at hfull; cases hfull
        · rw [h.create_present hfits hname] at hfull; cases hfull
      · rintro ⟨-, htaken⟩
        rw [htaken i hi] at hfree
        cases hfree
    | none =>
      constructor
      · intro hfull
        refine ⟨?_, fun i hi => firstSlot_none hslot hi⟩
        by_cases hname : files name = none
        · exact hname
        · rw [h.create_present hfits hname] at hfull; cases hfull
      · exact fun ⟨hname, _⟩ => h.create_no_room hfits hname hslot

/-! ### One request -/

/-- A free slot takes the entry of a name that was not in the map. -/
theorem fill (hlen : dir'.length = dir.length) (hi : i < capacity dir.length)
    (hfree : view dir i = none) (hview : view dir' i = some (name, e))
    (hother : ∀ j, j ≠ i → view dir' j = view dir j) (hname : files name = none) :
    Stores dir' (Function.update files name (some e)) := by
  have hslot : ∀ j e', view dir' j = some (name, e') → j < capacity dir.length → j = i := by
    intro j e' hj hjlt
    by_contra hne
    rw [hother j hne] at hj
    rw [(h.holds name e').mpr ⟨j, hjlt, hj⟩] at hname
    cases hname
  refine ⟨fun n e' => ?_, fun j k n e₁ e₂ hj hk hvj hvk => ?_⟩
  · rw [hlen]
    by_cases hn : n = name
    · subst hn
      rw [Function.update_self]
      constructor
      · intro heq
        exact ⟨i, hi, by rw [hview, Option.some.inj heq]⟩
      · rintro ⟨j, hj, hvj⟩
        obtain rfl := hslot j e' hvj hj
        rw [hview] at hvj
        exact congrArg some (congrArg Prod.snd (Option.some.inj hvj))
    · rw [Function.update_of_ne hn, h.holds n e']
      constructor
      · rintro ⟨j, hj, hvj⟩
        have hne : j ≠ i := by
          rintro rfl
          rw [hfree] at hvj
          cases hvj
        exact ⟨j, hj, (hother j hne).trans hvj⟩
      · rintro ⟨j, hj, hvj⟩
        have hne : j ≠ i := by
          rintro rfl
          rw [hview] at hvj
          exact hn (congrArg Prod.fst (Option.some.inj hvj)).symm
        exact ⟨j, hj, (hother j hne).symm.trans hvj⟩
  · rw [hlen] at hj hk
    by_cases hn : n = name
    · subst hn
      rw [hslot j e₁ hvj hj, hslot k e₂ hvk hk]
    · have hne : ∀ l e', view dir' l = some (n, e') → l ≠ i := by
        rintro l e' hl rfl
        rw [hview] at hl
        exact hn (congrArg Prod.fst (Option.some.inj hl)).symm
      exact h.unique j k n e₁ e₂ hj hk ((hother j (hne j e₁ hvj)).symm.trans hvj)
        ((hother k (hne k e₂ hvk)).symm.trans hvk)

/-- The slot of a name is emptied. -/
theorem clear (hlen : dir'.length = dir.length) (hi : i < capacity dir.length)
    (hview : view dir i = some (name, e)) (hfree : view dir' i = none)
    (hother : ∀ j, j ≠ i → view dir' j = view dir j) :
    Stores dir' (Function.update files name none) := by
  have hne : ∀ j n e', view dir' j = some (n, e') → j ≠ i := by
    rintro j n e' hj rfl
    rw [hfree] at hj
    cases hj
  refine ⟨fun n e' => ?_, fun j k n e₁ e₂ hj hk hvj hvk => ?_⟩
  · rw [hlen]
    by_cases hn : n = name
    · subst hn
      rw [Function.update_self]
      refine ⟨fun heq => (by cases heq), ?_⟩
      rintro ⟨j, hj, hvj⟩
      have hji := hne j n e' hvj
      exact absurd (h.unique j i n e' e hj hi ((hother j hji).symm.trans hvj) hview) hji
    · rw [Function.update_of_ne hn, h.holds n e']
      constructor
      · rintro ⟨j, hj, hvj⟩
        have hji : j ≠ i := by
          rintro rfl
          rw [hview] at hvj
          exact hn (congrArg Prod.fst (Option.some.inj hvj)).symm
        exact ⟨j, hj, (hother j hji).trans hvj⟩
      · rintro ⟨j, hj, hvj⟩
        exact ⟨j, hj, (hother j (hne j n e' hvj)).symm.trans hvj⟩
  · rw [hlen] at hj hk
    exact h.unique j k n e₁ e₂ hj hk ((hother j (hne j n e₁ hvj)).symm.trans hvj)
      ((hother k (hne k n e₂ hvk)).symm.trans hvk)

/-- A `create` that the format has a place for. -/
theorem create {first len : UInt32} (hsay : (Request.create name first len).Sayable dir) :
    Stores ((Request.create name first len).run dir)
      ((Request.create name first len).record dir files) := by
  rw [run_create, record_create]
  cases hcreate : Directory.create dir name first.toNat len.toNat with
  | error x => exact h
  | ok dir' =>
    have hnul : 0 ∉ name := by
      intro hmem
      obtain ⟨i, hi, hfree⟩ := room_of_create hcreate
      rw [hsay hmem i hi] at hfree
      cases hfree
    obtain ⟨hlen, hnew, i, hi, hfree, hview, hother⟩ :=
      create_ok hnul first.toNat_lt len.toNat_lt hcreate
    refine h.fill hlen hi hfree hview hother ?_
    cases hname : files name with
    | none => rfl
    | some e =>
      obtain ⟨j, hj, hvj⟩ := (h.holds name e).mp hname
      exact absurd hvj (hnew j e hj)

theorem remove (name : List UInt8) :
    Stores ((Request.remove name).run dir) ((Request.remove name).record dir files) := by
  rw [run_remove, record_remove]
  cases hremove : Directory.remove dir name with
  | error x => exact h
  | ok p =>
    obtain ⟨e, dir'⟩ := p
    obtain ⟨hlen, i, hi, hview, hfree, hother⟩ := remove_ok hremove
    exact h.clear hlen hi hview hfree hother

theorem step {r : Request} (hsay : r.Sayable dir) :
    Stores (r.run dir) (r.record dir files) := by
  cases r with
  | create name first len => exact h.create hsay
  | remove name => exact h.remove name
  | find name => exact h

/-- A request changes the entry of no other name. -/
theorem frames {r : Request} (hsay : r.Sayable dir) : r.Frames dir := by
  intro n _ hn
  rw [(h.step hsay).find_eq n, h.find_eq n]
  unfold lookUp
  rw [record_other r hn]

/-- A `create` that the format has no place for is accepted, and the map then has an entry that
`find` cannot return. -/
theorem not_agrees {r : Request} (hfits : Fits r.name) (hsay : ¬ r.Sayable dir) :
    ¬ Agrees (r.run dir) (r.record dir files) := by
  cases r with
  | remove name => exact absurd trivial hsay
  | find name => exact absurd trivial hsay
  | create name first len =>
    intro hagrees
    obtain ⟨hmem, htaken⟩ := Classical.not_imp.mp hsay
    have hname : files name = none := by
      cases hname : files name with
      | none => rfl
      | some e =>
        obtain ⟨i, -, hview⟩ := (h.holds name e).mp hname
        exact absurd hmem (zero_not_mem_of_view hview)
    cases hslot : firstSlot dir fun i => isFree (slot dir i) with
    | none => exact htaken fun i hi => firstSlot_none hslot hi
    | some i =>
      have hcreate : Directory.create dir name first.toNat len.toNat = .ok _ :=
        h.create_room hfits hname hslot
      have hrecord : (Request.create name first len).record dir files name =
          some ⟨first.toNat, len.toNat⟩ := by
        rw [record_create, hcreate]
        exact Function.update_self _ _ _
      -- What `find` returns was read up to the first zero byte.
      have hfind := hagrees.find name hfits
      unfold lookUp at hfind
      rw [hrecord] at hfind
      obtain ⟨j, -, hview⟩ := find_ok hfind
      exact zero_not_mem_of_view hview hmem

end Stores

/-! ### Every sequence of requests -/

theorem Refines.agrees {requests : List Request} (h : Refines dir files requests) :
    Agrees dir files := by
  cases requests with
  | nil => exact h
  | cons r rest => exact h.1

theorem Stores.refines_iff {requests : List Request} (h : Stores dir files)
    (hfits : ∀ r ∈ requests, Fits r.name) :
    Refines dir files requests ↔ AllSayable dir requests := by
  induction requests generalizing dir files with
  | nil => exact ⟨fun _ => trivial, fun _ => h.agrees⟩
  | cons r rest ih =>
    have hrest : ∀ r ∈ rest, Fits r.name := fun r hr => hfits r (List.mem_cons_of_mem _ hr)
    constructor
    · rintro ⟨-, -, hafter⟩
      have hsay : r.Sayable dir := by
        by_contra hnot
        exact h.not_agrees (hfits r List.mem_cons_self) hnot hafter.agrees
      exact ⟨hsay, (ih (h.step hsay) hrest).mp hafter⟩
    · rintro ⟨hsay, hall⟩
      exact ⟨h.agrees, h.frames hsay, (ih (h.step hsay) hrest).mpr hall⟩

/-- Over every sequence of requests on an empty directory, the directory is the map that its answers
describe exactly when each `create` whose name contains a zero byte finds it full. -/
theorem directory_is_map (bytes : Nat) (requests : List Request)
    (hfits : ∀ r ∈ requests, Fits r.name) :
    Refines (zeros bytes) (fun _ => none) requests ↔ AllSayable (zeros bytes) requests :=
  (stores_zeros bytes).refines_iff hfits

/-- Two names of which one starts the other, and one that fills its field, in a directory of three
slots that then is full. -/
theorem directory_is_map_prefixes :
    Refines (zeros 125) (fun _ => none)
      [.create [97] 1 2, .create [97, 98] 3 4, .create (List.replicate 32 97) 5 6, .remove [97],
        .create [98] 7 8, .create [99] 9 10, .find [97]] :=
  (directory_is_map 125 _ (by decide)).mpr (by
    refine ⟨?_, ?_, ?_, trivial, ?_, ?_, trivial, trivial⟩
    all_goals exact fun hmem => absurd hmem (by decide))

/-- `create` of `a\0b` succeeds, and `find` does not find it. -/
theorem directory_loses_name :
    ¬ Refines (zeros 80) (fun _ => none) [.create [97, 0, 98] 1 2] := by
  rintro ⟨-, -, hagrees⟩
  exact absurd (hagrees.find [97, 0, 98] (by decide)) (by decide)

end

end Plinth.Rwfs.Directory
