import Mathlib.Data.List.Nodup
import Mathlib.Data.Fintype.Card
import Mathlib.Logic.Function.Basic

/-!
# `Plinth.Common.Fifo`: FIFO queues over a shared link array

An intrusive queue keeps a head and a tail, and the links between its members live in one
array `links : ι → Option ι` that all the queues share. `Holds links head tail xs` says that
such a queue holds the list `xs`.

`Holds.push` and `Holds.pop` are the two operations on the list. `Holds.frame` says that a
write to the link of a slot outside the list does not change the queue. So disjoint queues do
not disturb each other.

`walk` reads the list of a queue back, and `Holds.walk_eq` says that it finds it.
-/

set_option autoImplicit false

namespace Fifo

variable {ι : Type}

/-- The links of `xs` lead from each member to the next, and the last one ends the chain. -/
def Chain (links : ι → Option ι) : List ι → Prop
  | [] => True
  | x :: xs => links x = xs.head? ∧ Chain links xs

/-- The queue with this head and tail holds the list `xs`. -/
structure Holds (links : ι → Option ι) (head tail : Option ι) (xs : List ι) : Prop where
  head_eq : head = xs.head?
  tail_eq : tail = xs.getLast?
  chain : Chain links xs
  nodup : xs.Nodup

/-- The empty queue holds the empty list. -/
theorem Holds.nil (links : ι → Option ι) : Holds links none none [] :=
  ⟨rfl, rfl, trivial, List.nodup_nil⟩

theorem Holds.eq_nil_of_head {links : ι → Option ι} {tail : Option ι} {xs : List ι}
    (h : Holds links none tail xs) : xs = [] := by
  have hhead := h.head_eq
  cases xs with
  | nil => rfl
  | cons x xs => simp at hhead

/-- A queue with a head has that head at the front of its list. -/
theorem Holds.eq_cons_of_head {links : ι → Option ι} {tail : Option ι} {xs : List ι} {x : ι}
    (h : Holds links (some x) tail xs) : ∃ rest, xs = x :: rest := by
  have hhead := h.head_eq
  cases xs with
  | nil => simp at hhead
  | cons y ys =>
    simp only [List.head?_cons, Option.some.injEq] at hhead
    exact ⟨ys, by rw [hhead]⟩

private theorem chain_unique {links : ι → Option ι} {xs ys : List ι} (hx : Chain links xs)
    (hy : Chain links ys) (hhead : xs.head? = ys.head?) : xs = ys := by
  induction xs generalizing ys with
  | nil =>
    cases ys with
    | nil => rfl
    | cons y ys => cases hhead
  | cons x xs ih =>
    cases ys with
    | nil => cases hhead
    | cons y ys =>
      obtain rfl : x = y := Option.some.inj hhead
      rw [ih hx.2 hy.2 (hx.1.symm.trans hy.1)]

/-- A queue holds one list only. -/
theorem Holds.unique {links : ι → Option ι} {head tail : Option ι} {xs ys : List ι}
    (hx : Holds links head tail xs) (hy : Holds links head tail ys) : xs = ys :=
  chain_unique hx.chain hy.chain (hx.head_eq.symm.trans hy.head_eq)

theorem chain_congr {links links' : ι → Option ι} {xs : List ι}
    (h : ∀ x ∈ xs, links' x = links x) (hc : Chain links xs) : Chain links' xs := by
  induction xs with
  | nil => trivial
  | cons x xs ih =>
    refine ⟨?_, ih (fun y hy => h y (List.mem_cons_of_mem _ hy)) hc.2⟩
    rw [h x List.mem_cons_self]
    exact hc.1

/-- A queue depends on the links of its own members only. -/
theorem Holds.frame {links links' : ι → Option ι} {head tail : Option ι} {xs : List ι}
    (h : Holds links head tail xs) (hsame : ∀ x ∈ xs, links' x = links x) :
    Holds links' head tail xs :=
  ⟨h.head_eq, h.tail_eq, chain_congr hsame h.chain, h.nodup⟩

/-- Removal of the head: the new head is the link of the old one, and the tail goes with the
last member. -/
theorem Holds.pop {links : ι → Option ι} {tail : Option ι} {x : ι} {xs : List ι}
    {head : Option ι} (h : Holds links head tail (x :: xs)) :
    Holds links (links x) (if (links x).isNone then none else tail) xs := by
  refine ⟨h.chain.1, ?_, h.chain.2, (List.nodup_cons.mp h.nodup).2⟩
  have htail := h.tail_eq
  rw [h.chain.1]
  cases xs with
  | nil => simp
  | cons y ys => simpa using htail

variable [DecidableEq ι]

private theorem chain_snoc {links : ι → Option ι} {xs : List ι} {t s : ι}
    (hc : Chain links xs) (hlast : xs.getLast? = some t) (hnd : xs.Nodup) (hs : s ∉ xs) :
    Chain (Function.update (Function.update links s none) t (some s)) (xs ++ [s]) := by
  induction xs with
  | nil => simp at hlast
  | cons x xs ih =>
    cases xs with
    | nil =>
      simp only [List.getLast?_singleton, Option.some.injEq] at hlast
      subst hlast
      have hne : s ≠ x := fun h => hs (by simp [h])
      simp [Chain, hne]
    | cons y ys =>
      have hlast' : (y :: ys).getLast? = some t := by simpa using hlast
      have hmem : t ∈ y :: ys := List.mem_of_getLast? hlast'
      have hxt : x ≠ t := fun h => (List.nodup_cons.mp hnd).1 (h ▸ hmem)
      have hxs : x ≠ s := fun h => hs (by simp [h])
      refine ⟨?_, ih hc.2 hlast' (List.nodup_cons.mp hnd).2
        (fun h => hs (List.mem_cons_of_mem _ h))⟩
      rw [Function.update_of_ne hxt, Function.update_of_ne hxs, hc.1]
      rfl

/-- The links after `s` joins a queue with this tail: the link of `s` is cleared, and the old
tail, if there is one, leads to `s`. -/
def pushLinks (links : ι → Option ι) (tail : Option ι) (s : ι) : ι → Option ι :=
  match tail with
  | some t => Function.update (Function.update links s none) t (some s)
  | none => Function.update links s none

omit [DecidableEq ι] in
/-- The head after `s` joins a queue: `s` itself if the queue was empty. -/
def pushHead (head tail : Option ι) (s : ι) : Option ι :=
  match tail with
  | some _ => head
  | none => some s

/-- Insertion at the end, of a slot that is not a member. -/
theorem Holds.push {links : ι → Option ι} {head tail : Option ι} {xs : List ι} {s : ι}
    (h : Holds links head tail xs) (hs : s ∉ xs) :
    Holds (pushLinks links tail s) (pushHead head tail s) (some s) (xs ++ [s]) := by
  have hnd : (xs ++ [s]).Nodup := by
    rw [List.nodup_append]
    refine ⟨h.nodup, by simp, ?_⟩
    intro a ha b hb
    simp only [List.mem_singleton] at hb
    subst hb
    rintro rfl
    exact hs ha
  cases tail with
  | none =>
    have hnil : xs = [] := by
      have htail := h.tail_eq
      cases xs with
      | nil => rfl
      | cons x xs =>
        rw [List.getLast?_cons] at htail
        cases htail
    subst hnil
    exact ⟨rfl, rfl, by simp [Chain, pushLinks], hnd⟩
  | some t =>
    refine ⟨?_, List.getLast?_concat.symm, chain_snoc h.chain h.tail_eq.symm h.nodup hs, hnd⟩
    have hhead := h.head_eq
    have htail := h.tail_eq
    cases xs with
    | nil => simp at htail
    | cons x xs => simpa [pushHead] using hhead

/-- A write to the link of a slot outside the list does not change the queue. -/
theorem Holds.update_of_notMem {links : ι → Option ι} {head tail : Option ι} {xs : List ι}
    {s : ι} (h : Holds links head tail xs) (hs : s ∉ xs) (v : Option ι) :
    Holds (Function.update links s v) head tail xs :=
  h.frame fun x hx => Function.update_of_ne (fun heq => hs (by rw [← heq]; exact hx)) _ _

/-- A push onto a disjoint queue does not change this one. -/
theorem Holds.push_frame {links : ι → Option ι} {head tail tail' : Option ι}
    {xs ys : List ι} {s : ι} (h : Holds links head tail xs) (hs : s ∉ xs)
    (htail : tail' = ys.getLast?) (hdisj : ∀ x ∈ xs, x ∉ ys) :
    Holds (pushLinks links tail' s) head tail xs := by
  cases tail' with
  | none => exact h.update_of_notMem hs none
  | some t =>
    refine (h.update_of_notMem hs none).update_of_notMem ?_ (some s)
    intro ht
    exact hdisj t ht (List.mem_of_getLast? htail.symm)

omit [DecidableEq ι] in
/-- Follow the links from `head`, at most `fuel` times. -/
def walk (links : ι → Option ι) : Nat → Option ι → List ι
  | 0, _ => []
  | _ + 1, none => []
  | fuel + 1, some x => x :: walk links fuel (links x)

omit [DecidableEq ι] in
private theorem walk_chain {links : ι → Option ι} {xs : List ι} (hc : Chain links xs)
    {fuel : Nat} (hfuel : xs.length ≤ fuel) : walk links fuel xs.head? = xs := by
  induction xs generalizing fuel with
  | nil => cases fuel <;> rfl
  | cons x xs ih =>
    cases fuel with
    | zero => simp at hfuel
    | succ fuel =>
      have hlen : xs.length ≤ fuel := by simpa using hfuel
      simp only [List.head?_cons, walk, hc.1, ih hc.2 hlen]

omit [DecidableEq ι] in
/-- The walk from the head reads the list of the queue, if the fuel covers the index type. -/
theorem Holds.walk_eq [Fintype ι] {links : ι → Option ι} {head tail : Option ι}
    {xs : List ι} (h : Holds links head tail xs) {fuel : Nat}
    (hfuel : Fintype.card ι ≤ fuel) : walk links fuel head = xs := by
  rw [h.head_eq]
  exact walk_chain h.chain (le_trans h.nodup.length_le_card hfuel)

end Fifo
