import Mathlib.Logic.Function.Basic
import Plinth.Common.Transition

/-!
# `Plinth.Common.LockDiscipline`: one lock, many cores, and code that does not return

A kernel with one big lock takes it at the start of each entry point and gives it back by hand,
often in a function that never returns. This module is about such code in general.

A `Code` is a body of code as far as the lock is concerned: a branch on data is a `choice`, a
function call is a `call`, and the ways to leave a stack without a return (to user code, to a saved
place, into a panic) are there as they are. A core runs a stack of such code. Any core may take the
next step, user code may trap into the kernel at any time, a core that waits may be interrupted, and
kernel code may fault.

`Program.check` is a static check. It follows whether the core holds the lock. `Program.safe` is the
main result: in a program that passes the check, in every interleaving, `Guarded` holds of every
core (the lock is released by its owner only, nobody waits for a lock that it owns, shared data is
touched by the owner only, and the lock is free of every core that is in user code or waits), and
the owner of the lock can always go on unless it has panicked.
-/

set_option autoImplicit false

open Transition

namespace LockDiscipline

/-- A body of code, as far as one lock is concerned. `φ` names the procedures and `χ` the places
that a core can come back to. -/
inductive Code (φ χ : Type)
  /-- Code that does not touch what the lock protects. -/
  | skip
  /-- Code that touches what the lock protects. -/
  | work
  | acquire
  | release
  /-- Wait for an interrupt, with interrupts on. -/
  | wait
  /-- User code. -/
  | user
  | panic
  | seq (a b : Code φ χ)
  /-- A branch on data. -/
  | choice (a b : Code φ χ)
  /-- Any number of rounds. -/
  | loop (a : Code φ χ)
  | forever (a : Code φ χ)
  | call (f : φ)
  /-- Save the place after this one and go to user code. -/
  | enter (r : χ)
  /-- Leave the stack and go on at the saved place. -/
  | escape (r : χ)
  /-- A branch on whether the place has been saved. -/
  | ifSaved (r : χ) (a b : Code φ χ)
  /-- Leave the stack and go to user code. -/
  | toUser

/-- What a procedure asks of its caller and does for it: whether the lock is held at the call, and
at the return. The second is `none` for a procedure that does not return. -/
structure Promise where
  before : Bool
  after : Option Bool

/-- The procedures, what they promise, and where they are called from besides calls. -/
structure Program (φ χ : Type) where
  body : φ → Code φ χ
  promise : φ → Promise
  /-- User code may enter the kernel here. -/
  entries : φ → Bool
  /-- An interrupt of a core that waits. -/
  interrupts : φ → Bool
  /-- A fault of kernel code. -/
  faults : φ → Bool
  /-- The code only escapes to this place if it has looked whether the place has been saved. -/
  careful : χ → Bool

/-- What a core runs, and the places it can come back to. -/
structure Core (φ χ : Type) where
  stack : List (Code φ χ)
  saved : χ → Option (List (Code φ χ))

/-- The lock and the cores. The lock itself only knows whether somebody has taken it. -/
structure State (ι φ χ : Type) where
  owner : Option ι
  core : ι → Core φ χ

/-- What a core does next. -/
inductive Move (φ : Type)
  | go
  /-- The other side of a choice, or the end of a loop. -/
  | other
  | trap (f : φ)

variable {ι φ χ : Type} [DecidableEq ι] [DecidableEq χ]

/-- The procedures that can be entered while this code is the next one. -/
def Program.traps (P : Program φ χ) : Code φ χ → φ → Bool
  | .user => P.entries
  | .wait => P.interrupts
  | .panic => fun _ => false
  | _ => P.faults

/-- The place after `enter`, and the core that goes to user code. -/
def Core.enter (c : Core φ χ) (r : χ) (rest : List (Code φ χ)) : Core φ χ where
  stack := [.user]
  saved := Function.update c.saved r (some rest)

/-- Core `i` goes on. The result is the owner of the lock and the core after that. -/
def Program.go (P : Program φ χ) (owner : Option ι) (i : ι) (c : Core φ χ) :
    Option (Option ι × Core φ χ) :=
  match c.stack with
  | [] => none
  | code :: rest =>
    match code with
    | .skip => some (owner, { c with stack := rest })
    | .work => some (owner, { c with stack := rest })
    | .acquire => if owner.isNone then some (some i, { c with stack := rest }) else none
    | .release => some (none, { c with stack := rest })
    | .wait => some (owner, { c with stack := rest })
    | .user => none
    | .panic => none
    | .seq a b => some (owner, { c with stack := a :: b :: rest })
    | .choice a _ => some (owner, { c with stack := a :: rest })
    | .loop a => some (owner, { c with stack := a :: .loop a :: rest })
    | .forever a => some (owner, { c with stack := a :: .forever a :: rest })
    | .call f => some (owner, { c with stack := P.body f :: rest })
    | .enter r => some (owner, c.enter r rest)
    | .escape r => (c.saved r).map fun place => (owner, { c with stack := place })
    | .ifSaved r a b =>
      some (owner, { c with stack := (if (c.saved r).isSome then a else b) :: rest })
    | .toUser => some (owner, { c with stack := [.user] })

/-- The other side of a choice. -/
def Core.other (c : Core φ χ) : Option (Core φ χ) :=
  match c.stack with
  | .choice _ b :: rest => some { c with stack := b :: rest }
  | .loop _ :: rest => some { c with stack := rest }
  | _ => none

/-- The kernel is entered at `f`. -/
def Program.trap (P : Program φ χ) (c : Core φ χ) (f : φ) : Option (Core φ χ) :=
  match c.stack with
  | code :: rest => if P.traps code f then some { c with stack := P.body f :: code :: rest } else
      none
  | [] => none

/-- One move of core `i`. -/
def Program.move (P : Program φ χ) (owner : Option ι) (i : ι) (c : Core φ χ) :
    Move φ → Option (Option ι × Core φ χ)
  | .go => P.go owner i c
  | .other => c.other.map fun c' => (owner, c')
  | .trap f => (P.trap c f).map fun c' => (owner, c')

/-- One step of the machine: a core and its move. -/
def Program.next (P : Program φ χ) (s : State ι φ χ) (a : ι × Move φ) : Option (State ι φ χ) :=
  (P.move s.owner a.1 (s.core a.1) a.2).map fun r =>
    { owner := r.1, core := Function.update s.core a.1 r.2 }

/-- Nobody owns the lock, and every core is at its first code. -/
def started (first : ι → Code φ χ) : State ι φ χ where
  owner := none
  core i := { stack := [first i], saved := fun _ => none }

/-- The machine, with the first code of each core. -/
def Program.machine (P : Program φ χ) (first : ι → Code φ χ) :
    System (State ι φ χ) (ι × Move φ) where
  init s := s = started first
  next := P.next

/-! ### The check -/

/-- What holds after a branch. A side that does not come to the end says nothing. -/
def join : Option Bool → Option Bool → Option (Option Bool)
  | none, y => some y
  | x, none => some x
  | some a, some b => if a = b then some (some a) else none

/-- Follow the lock through a body. The result says whether the lock is held at the end, or `none`
inside `some` if the end is not reached; it is `none` if the code breaks the discipline. `known` are
the places that are known to be saved here. -/
def Program.check (P : Program φ χ) : List χ → Code φ χ → Bool → Option (Option Bool)
  | _, .skip, held => some (some held)
  | _, .work, held => if held then some (some true) else none
  | _, .acquire, held => if held then none else some (some true)
  | _, .release, held => if held then some (some false) else none
  | _, .wait, held => if held then none else some (some false)
  | _, .user, held => if held then none else some none
  | _, .panic, _ => some none
  | known, .seq a b, held =>
    match P.check known a held with
    | none => none
    | some none => some none
    | some (some held') => P.check known b held'
  | known, .choice a b, held =>
    match P.check known a held, P.check known b held with
    | some x, some y => join x y
    | _, _ => none
  | known, .loop a, held =>
    match P.check known a held with
    | none => none
    | some x => if x = some held ∨ x = none then some (some held) else none
  | known, .forever a, held =>
    match P.check known a held with
    | none => none
    | some x => if x = some held ∨ x = none then some none else none
  | _, .call f, held => if held = (P.promise f).before then some (P.promise f).after else none
  | _, .enter _, held => if held then none else some (some false)
  | known, .escape r, held =>
    if held then none else if P.careful r = true ∧ r ∉ known then none else some none
  | known, .ifSaved r a b, held =>
    match P.check (r :: known) a held, P.check known b held with
    | some x, some y => join x y
    | _, _ => none
  | _, .toUser, held => if held then none else some none

/-- The code comes back with the lock free, or not at all. -/
def Program.Returns (P : Program φ χ) (code : Code φ χ) : Prop :=
  P.check [] code false = some (some false) ∨ P.check [] code false = some none

/-- Every body keeps its promise. What is entered by itself takes the lock free and gives it back
free. A fault may come with the lock held or free, so its code neither takes nor releases it. -/
structure Program.WellLocked (P : Program φ χ) : Prop where
  promises : ∀ f, P.check [] (P.body f) (P.promise f).before = some (P.promise f).after
  entries : ∀ f, P.entries f = true → P.Returns (P.body f)
  interrupts : ∀ f, P.interrupts f = true → P.Returns (P.body f)
  faults : ∀ f held, P.faults f = true → P.check [] (P.body f) held = some none

/-! ### Stacks that keep the discipline -/

/-- The stack keeps the discipline if the core holds the lock (or not) at its top. What is below a
code that does not come to its end is never run. -/
def Program.Typed (P : Program φ χ) (saved : χ → Option (List (Code φ χ))) :
    List (Code φ χ) → Bool → Prop
  | [], held => held = false
  | code :: rest, held => ∃ known x, (∀ r ∈ known, (saved r).isSome = true) ∧
      P.check known code held = some x ∧ ∀ held', x = some held' → P.Typed saved rest held'

/-- The stack of the core keeps the discipline, and so does every place that it can come back to,
with the lock free. -/
structure Program.Sound (P : Program φ χ) (c : Core φ χ) (held : Bool) : Prop where
  stack : P.Typed c.saved c.stack held
  saved : ∀ r place, c.saved r = some place → P.Typed c.saved place false

variable {P : Program φ χ}

theorem Program.Typed.mono {saved saved' : χ → Option (List (Code φ χ))}
    (h : ∀ r, (saved r).isSome = true → (saved' r).isSome = true) {stack : List (Code φ χ)}
    {held : Bool} (ht : P.Typed saved stack held) : P.Typed saved' stack held := by
  induction stack generalizing held with
  | nil => exact ht
  | cons code rest ih =>
    rcases ht with ⟨known, x, hknown, hx, hrest⟩
    exact ⟨known, x, fun r hr => h r (hknown r hr), hx, fun held' e => ih (hrest held' e)⟩

/-- After a branch, what holds after the side that was taken holds. -/
theorem join_left {x y z : Option Bool} (h : join x y = some z) {held : Bool}
    (hx : x = some held) : z = some held := by
  subst hx
  cases y with
  | none =>
    simp only [join, Option.some.injEq] at h
    exact h.symm
  | some b =>
    simp only [join] at h
    split at h
    · simpa using h.symm
    · cases h

theorem join_right {x y z : Option Bool} (h : join x y = some z) {held : Bool}
    (hy : y = some held) : z = some held := by
  subst hy
  cases x with
  | none =>
    simp only [join, Option.some.injEq] at h
    exact h.symm
  | some a =>
    simp only [join] at h
    split at h
    · rename_i hab
      rw [← hab]
      simpa using h.symm
    · cases h

/-- The code that is next, with what the check says about it. -/
theorem Program.Typed.cons {saved : χ → Option (List (Code φ χ))} {code : Code φ χ}
    {rest : List (Code φ χ)} {held : Bool} {known : List χ} {x : Option Bool}
    (hknown : ∀ r ∈ known, (saved r).isSome = true) (hx : P.check known code held = some x)
    (hrest : ∀ held', x = some held' → P.Typed saved rest held') :
    P.Typed saved (code :: rest) held := ⟨known, x, hknown, hx, hrest⟩

/-- A procedure that keeps its promise may be pushed. -/
theorem Program.Typed.push {saved : χ → Option (List (Code φ χ))} {code : Code φ χ}
    {rest : List (Code φ χ)} {held : Bool} {x : Option Bool}
    (hx : P.check [] code held = some x)
    (hrest : ∀ held', x = some held' → P.Typed saved rest held') :
    P.Typed saved (code :: rest) held :=
  Program.Typed.cons (fun r hr => by cases hr) hx hrest

/-- User code keeps the discipline if the lock is free. -/
theorem Program.Typed.user {saved : χ → Option (List (Code φ χ))} (P : Program φ χ) :
    P.Typed saved [.user] false :=
  Program.Typed.push (x := none) rfl fun _ h => by cases h

/-! ### One step -/

/-- What one core may do to the owner: nothing that another core could see, apart from the lock
being taken or free. -/
def Alone (i : ι) (owner owner' : Option ι) : Prop :=
  ∀ j, j ≠ i → (owner' = some j ↔ owner = some j)

omit [DecidableEq ι] in
theorem Alone.refl (i : ι) (owner : Option ι) : Alone i owner owner := fun _ _ => Iff.rfl

/-- A move that leaves the owner and the saved places as they are only has to give a good stack. -/
theorem Program.Sound.restack {c : Core φ χ} {held : Bool} (hc : P.Sound c held)
    {stack : List (Code φ χ)} (h : P.Typed c.saved stack held) :
    P.Sound { c with stack := stack } held := ⟨h, hc.saved⟩

omit [DecidableEq ι] [DecidableEq χ] in
/-- The check of a code that wants the lock free. -/
theorem wants_free {held : Bool} {x y : Option Bool}
    (h : (if held then none else some x) = some y) : held = false ∧ x = y := by
  cases held with
  | true => cases h
  | false => exact ⟨rfl, Option.some.inj h⟩

omit [DecidableEq ι] [DecidableEq χ] in
/-- The check of a code that wants the lock held. -/
theorem wants_held {held : Bool} {x y : Option Bool}
    (h : (if held then some x else none) = some y) : held = true ∧ x = y := by
  cases held with
  | true => exact ⟨rfl, Option.some.inj h⟩
  | false => cases h

/-- A round that comes to its end leaves the lock as it was, so the code after it may be the loop
again. -/
theorem Program.Typed.round {saved : χ → Option (List (Code φ χ))} {a : Code φ χ}
    {rest : List (Code φ χ)} {held : Bool} {known : List χ} {x : Option Bool}
    (hknown : ∀ r ∈ known, (saved r).isSome = true) (ha : P.check known a held = some x)
    (hx : x = some held ∨ x = none) (hrest : P.Typed saved rest held) :
    P.Typed saved (a :: rest) held := by
  refine Program.Typed.cons hknown ha fun held' e => ?_
  rcases hx with hx | hx
  · rw [hx] at e
    cases e
    exact hrest
  · rw [hx] at e
    cases e

/-- The place that `enter` saves is the one after it, with the lock free. -/
theorem Program.Sound.enter {c : Core φ χ} (hc : P.Sound c false) (r : χ)
    {rest : List (Code φ χ)} (hrest : P.Typed c.saved rest false) :
    P.Sound (c.enter r rest) false := by
  have hmono : ∀ q, (c.saved q).isSome = true →
      ((Function.update c.saved r (some rest)) q).isSome = true := by
    intro q hq
    by_cases hqr : q = r
    · rw [hqr, Function.update_self]
      rfl
    · rw [Function.update_of_ne hqr]
      exact hq
  refine ⟨Program.Typed.user P, fun q place hplace => ?_⟩
  change Function.update c.saved r (some rest) q = some place at hplace
  by_cases hqr : q = r
  · rw [hqr, Function.update_self] at hplace
    cases hplace
    exact hrest.mono hmono
  · rw [Function.update_of_ne hqr] at hplace
    exact (hc.saved q place hplace).mono hmono

/-- `go` keeps the discipline of the core, and the other cores do not see it. -/
theorem Program.WellLocked.go (hP : P.WellLocked) {owner owner' : Option ι} {i : ι}
    {c c' : Core φ χ} (hc : P.Sound c (decide (owner = some i)))
    (h : P.go owner i c = some (owner', c')) :
    P.Sound c' (decide (owner' = some i)) ∧ Alone i owner owner' := by
  have hstack := hc.stack
  unfold Program.go at h
  cases hs : c.stack with
  | nil =>
    rw [hs] at h
    cases h
  | cons code rest =>
    rw [hs] at h hstack
    rcases hstack with ⟨known, x, hknown, hx, hrest⟩
    -- One case for each code. The check of the code says what the stack after it has to be.
    cases code with
    | skip =>
      cases h
      simp only [Program.check, Option.some.injEq] at hx
      exact ⟨hc.restack (hrest _ hx.symm), Alone.refl i owner⟩
    | work =>
      cases h
      have hheld := wants_held hx
      rw [hheld.1] at hc ⊢
      exact ⟨hc.restack (hrest _ hheld.2.symm), Alone.refl i owner⟩
    | acquire =>
      have hfree := wants_free hx
      dsimp only at h
      split at h
      · rename_i hnone
        cases h
        have htaken : decide (some i = some i) = true := by simp
        rw [htaken]
        refine ⟨⟨hrest _ hfree.2.symm, hc.saved⟩, fun j hj => ?_⟩
        -- Nobody had the lock, so the other cores had it neither before nor after.
        rw [Option.isNone_iff_eq_none.mp hnone]
        simp [Ne.symm hj]
      · cases h
    | release =>
      cases h
      have hheld := wants_held hx
      refine ⟨⟨hrest _ hheld.2.symm, hc.saved⟩, fun j hj => ?_⟩
      -- The core had the lock, so no other core did.
      rw [of_decide_eq_true hheld.1]
      simp [Ne.symm hj]
    | wait =>
      cases h
      have hfree := wants_free hx
      rw [hfree.1] at hc ⊢
      exact ⟨hc.restack (hrest _ hfree.2.symm), Alone.refl i owner⟩
    | user => cases h
    | panic => cases h
    | seq a b =>
      cases h
      refine ⟨hc.restack ?_, Alone.refl i owner⟩
      simp only [Program.check] at hx
      split at hx
      · cases hx
      · rename_i ha
        exact Program.Typed.cons hknown ha fun _ e => by cases e
      · rename_i held' ha
        refine Program.Typed.cons hknown ha fun held'' e => ?_
        cases e
        exact Program.Typed.cons hknown hx hrest
    | choice a b =>
      cases h
      refine ⟨hc.restack ?_, Alone.refl i owner⟩
      simp only [Program.check] at hx
      split at hx
      · rename_i ya yb ha hb
        exact Program.Typed.cons hknown ha fun held' e => hrest held' (join_left hx e)
      · cases hx
    | loop a =>
      cases h
      refine ⟨hc.restack ?_, Alone.refl i owner⟩
      have hloop := hx
      simp only [Program.check] at hx
      split at hx
      · cases hx
      · rename_i y ha
        split at hx
        · rename_i hy
          exact Program.Typed.round hknown ha hy (Program.Typed.cons hknown hloop hrest)
        · cases hx
    | forever a =>
      cases h
      refine ⟨hc.restack ?_, Alone.refl i owner⟩
      have hloop := hx
      simp only [Program.check] at hx
      split at hx
      · cases hx
      · rename_i y ha
        split at hx
        · rename_i hy
          exact Program.Typed.round hknown ha hy (Program.Typed.cons hknown hloop hrest)
        · cases hx
    | call f =>
      cases h
      refine ⟨hc.restack ?_, Alone.refl i owner⟩
      simp only [Program.check] at hx
      split at hx
      · rename_i hbefore
        rw [hbefore]
        rw [← Option.some.inj hx] at hrest
        exact Program.Typed.push (hP.promises f) hrest
      · cases hx
    | enter r =>
      cases h
      have hfree := wants_free hx
      rw [hfree.1] at hc ⊢
      exact ⟨hc.enter r (hrest _ hfree.2.symm), Alone.refl i owner⟩
    | escape r =>
      simp only [Program.check] at hx
      split at hx
      · cases hx
      · rename_i hfree
        rw [Bool.not_eq_true] at hfree
        rw [hfree] at hc
        -- The saved place was left with the lock free, and it is free now.
        rcases Option.map_eq_some_iff.mp h with ⟨place, hplace, hpair⟩
        cases hpair
        rw [hfree]
        exact ⟨hc.restack (hc.saved r place hplace), Alone.refl i owner⟩
    | ifSaved r a b =>
      cases h
      refine ⟨hc.restack ?_, Alone.refl i owner⟩
      simp only [Program.check] at hx
      split at hx
      · rename_i ya yb ha hb
        split
        · rename_i hsaved
          refine Program.Typed.cons ?_ ha fun held' e => hrest held' (join_left hx e)
          intro q hq
          rcases List.mem_cons.mp hq with rfl | hq
          · exact hsaved
          · exact hknown q hq
        · exact Program.Typed.cons hknown hb fun held' e => hrest held' (join_right hx e)
      · cases hx
    | toUser =>
      cases h
      have hfree := wants_free hx
      rw [hfree.1] at hc ⊢
      exact ⟨hc.restack (Program.Typed.user P), Alone.refl i owner⟩

/-- The other side of a choice keeps the discipline too. -/
theorem Program.Sound.other {held : Bool} {c c' : Core φ χ} (hc : P.Sound c held)
    (h : c.other = some c') : P.Sound c' held := by
  have hstack := hc.stack
  unfold Core.other at h
  split at h
  · rename_i a b rest hs
    cases h
    rw [hs] at hstack
    rcases hstack with ⟨known, x, hknown, hx, hrest⟩
    simp only [Program.check] at hx
    split at hx
    · rename_i ya yb ha hb
      exact hc.restack (Program.Typed.cons hknown hb fun held' e => hrest held' (join_right hx e))
    · cases hx
  · rename_i a rest hs
    cases h
    rw [hs] at hstack
    rcases hstack with ⟨known, x, hknown, hx, hrest⟩
    simp only [Program.check] at hx
    split at hx
    · cases hx
    · split at hx
      · exact hc.restack (hrest held (Option.some.inj hx).symm)
      · cases hx
  · cases h

/-- What the kernel is entered at takes the lock free and gives it back free. -/
theorem Program.Returns.typed {saved : χ → Option (List (Code φ χ))} {code : Code φ χ}
    (h : P.Returns code) {rest : List (Code φ χ)} (hrest : P.Typed saved rest false) :
    P.Typed saved (code :: rest) false := by
  rcases h with h | h
  · refine Program.Typed.push h fun held' e => ?_
    cases e
    exact hrest
  · exact Program.Typed.push h fun held' e => by cases e

/-- An entry into the kernel keeps the discipline: from user code and from a wait the lock is free,
and a fault does not care. -/
theorem Program.WellLocked.trap (hP : P.WellLocked) {held : Bool} {c c' : Core φ χ} {f : φ}
    (hc : P.Sound c held) (h : P.trap c f = some c') : P.Sound c' held := by
  have hstack := hc.stack
  unfold Program.trap at h
  split at h
  · rename_i code rest hs
    split at h
    · rename_i htraps
      cases h
      rw [hs] at hstack
      refine hc.restack ?_
      have hstack' := hstack
      rcases hstack with ⟨known, x, -, hx, -⟩
      have hfault : P.faults f = true →
          P.Typed c.saved (P.body f :: code :: rest) held := by
        intro hf
        exact Program.Typed.push (hP.faults f held hf) fun _ e => by cases e
      cases code with
      | user =>
        have hfree := wants_free hx
        rw [hfree.1] at hstack' ⊢
        exact (hP.entries f htraps).typed hstack'
      | wait =>
        have hfree := wants_free hx
        rw [hfree.1] at hstack' ⊢
        exact (hP.interrupts f htraps).typed hstack'
      | panic => cases htraps
      | _ => exact hfault htraps
    · cases h
  · cases h

/-- Any move keeps the discipline of the core, and the other cores do not see it. -/
theorem Program.WellLocked.move (hP : P.WellLocked) {owner owner' : Option ι} {i : ι}
    {c c' : Core φ χ} {m : Move φ} (hc : P.Sound c (decide (owner = some i)))
    (h : P.move owner i c m = some (owner', c')) :
    P.Sound c' (decide (owner' = some i)) ∧ Alone i owner owner' := by
  cases m with
  | go => exact hP.go hc h
  | other =>
    rcases Option.map_eq_some_iff.mp h with ⟨c₁, h₁, hpair⟩
    cases hpair
    exact ⟨hc.other h₁, Alone.refl i owner⟩
  | trap f =>
    rcases Option.map_eq_some_iff.mp h with ⟨c₁, h₁, hpair⟩
    cases hpair
    exact ⟨hP.trap hc h₁, Alone.refl i owner⟩

/-! ### Runs -/

/-- Every core keeps the discipline, and holds the lock exactly if it is its owner. -/
def Program.Kept (P : Program φ χ) (s : State ι φ χ) : Prop :=
  ∀ i, P.Sound (s.core i) (decide (s.owner = some i))

theorem Program.WellLocked.kept_next (hP : P.WellLocked) {s t : State ι φ χ} {a : ι × Move φ}
    (hs : P.Kept s) (h : P.next s a = some t) : P.Kept t := by
  rcases Option.map_eq_some_iff.mp h with ⟨⟨owner', c'⟩, hmove, ht⟩
  have hcore := hP.move (hs a.1) hmove
  intro i
  rw [← ht]
  by_cases hi : i = a.1
  · dsimp only
    rw [hi, Function.update_self]
    exact hcore.1
  · dsimp only
    rw [Function.update_of_ne hi]
    -- The other cores have their stacks, and the lock is theirs exactly if it was.
    have howner : decide (owner' = some i) = decide (s.owner = some i) :=
      decide_eq_decide.mpr (hcore.2 i hi)
    rw [howner]
    exact hs i

theorem Program.WellLocked.kept (hP : P.WellLocked) {first : ι → Code φ χ}
    (hfirst : ∀ i, P.Returns (first i)) {s : State ι φ χ}
    (hs : Reachable (P.machine first) always s) : P.Kept s := by
  refine Reachable.invariant (I := P.Kept) ?_ ?_ hs
  · intro s hinit i
    rw [show s = started first from hinit]
    refine ⟨(hfirst i).typed rfl, fun r place hplace => ?_⟩
    cases hplace
  · intro s a t _ hs _ hnext
    exact hP.kept_next hs hnext

/-- What the discipline says about a core, from what is next on its stack. -/
structure Program.Guarded (P : Program φ χ) (owner : Option ι) (i : ι) (c : Core φ χ) : Prop where
  /-- The lock is given back by its owner only. -/
  release : ∀ rest, c.stack = .release :: rest → owner = some i
  /-- A core does not wait for a lock that it owns. -/
  acquire : ∀ rest, c.stack = .acquire :: rest → owner ≠ some i
  work : ∀ rest, c.stack = .work :: rest → owner = some i
  wait : ∀ rest, c.stack = .wait :: rest → owner ≠ some i
  user : ∀ rest, c.stack = .user :: rest → owner ≠ some i
  done : c.stack = [] → owner ≠ some i
  escape : ∀ r rest, c.stack = .escape r :: rest → P.careful r = true → (c.saved r).isSome = true
  /-- The owner of the lock can go on, or it has panicked. -/
  goes : owner = some i → (P.go owner i c).isSome = true ∨ ∃ rest, c.stack = .panic :: rest

omit [DecidableEq ι] in
/-- A core that holds the lock is not stopped by the lock. -/
theorem Program.Sound.goes {owner : Option ι} {i : ι} {c : Core φ χ} (hc : P.Sound c true) :
    (P.go owner i c).isSome = true ∨ ∃ rest, c.stack = .panic :: rest := by
  have hstack := hc.stack
  unfold Program.go
  cases hs : c.stack with
  | nil =>
    rw [hs] at hstack
    cases hstack
  | cons code rest =>
    rw [hs] at hstack
    rcases hstack with ⟨known, x, -, hx, -⟩
    cases code with
    | acquire => cases hx
    | user => cases hx
    | escape r => cases hx
    | panic => exact Or.inr ⟨rest, rfl⟩
    | _ => exact Or.inl rfl

theorem Program.Sound.guarded {owner : Option ι} {i : ι} {c : Core φ χ}
    (hc : P.Sound c (decide (owner = some i))) : P.Guarded owner i c := by
  have hstack := hc.stack
  -- The check of the next code says whether the core is the owner.
  have hnext : ∀ code rest, c.stack = code :: rest → ∃ known x,
      (∀ r ∈ known, (c.saved r).isSome = true) ∧
      P.check known code (decide (owner = some i)) = some x := by
    intro code rest hs
    rw [hs] at hstack
    rcases hstack with ⟨known, x, hknown, hx, -⟩
    exact ⟨known, x, hknown, hx⟩
  refine ⟨?_, ?_, ?_, ?_, ?_, ?_, ?_, ?_⟩
  · intro rest hs
    rcases hnext _ _ hs with ⟨_, _, -, hx⟩
    exact of_decide_eq_true (wants_held hx).1
  · intro rest hs
    rcases hnext _ _ hs with ⟨_, _, -, hx⟩
    exact of_decide_eq_false (wants_free hx).1
  · intro rest hs
    rcases hnext _ _ hs with ⟨_, _, -, hx⟩
    exact of_decide_eq_true (wants_held hx).1
  · intro rest hs
    rcases hnext _ _ hs with ⟨_, _, -, hx⟩
    exact of_decide_eq_false (wants_free hx).1
  · intro rest hs
    rcases hnext _ _ hs with ⟨_, _, -, hx⟩
    exact of_decide_eq_false (wants_free hx).1
  · intro hs
    rw [hs] at hstack
    exact of_decide_eq_false hstack
  · intro r rest hs hcareful
    rcases hnext _ _ hs with ⟨known, x, hknown, hx⟩
    simp only [Program.check] at hx
    split at hx
    · cases hx
    · split at hx
      · cases hx
      · rename_i hr
        exact hknown r (by simpa [hcareful] using hr)
  · intro howner
    rw [decide_eq_true howner] at hc
    exact hc.goes

/-- A program that passes the check keeps the discipline in every interleaving of any cores. -/
theorem Program.WellLocked.safe (hP : P.WellLocked) {first : ι → Code φ χ}
    (hfirst : ∀ i, P.Returns (first i)) {s : State ι φ χ}
    (hs : Reachable (P.machine first) always s) (i : ι) : P.Guarded s.owner i (s.core i) :=
  (hP.kept hfirst hs i).guarded

/-- The lock alone never stops the machine: if some core waits for it, then some core can go on, or
the owner has panicked. -/
theorem Program.WellLocked.no_deadlock (hP : P.WellLocked) {first : ι → Code φ χ}
    (hfirst : ∀ i, P.Returns (first i)) {s : State ι φ χ}
    (hs : Reachable (P.machine first) always s) {i : ι} {rest : List (Code φ χ)}
    (hwaits : (s.core i).stack = .acquire :: rest) :
    (∃ j, (P.next s (j, .go)).isSome = true) ∨
      ∃ j rest, s.owner = some j ∧ (s.core j).stack = .panic :: rest := by
  cases howner : s.owner with
  | none =>
    -- The lock is free, so the core that waits takes it.
    refine Or.inl ⟨i, ?_⟩
    simp [Program.next, Program.move, Program.go, hwaits, howner]
  | some j =>
    rcases (hP.safe hfirst hs j).goes howner with hgo | ⟨rest, hpanic⟩
    · refine Or.inl ⟨j, ?_⟩
      simpa [Program.next, Program.move] using hgo
    · exact Or.inr ⟨j, rest, rfl, hpanic⟩

end LockDiscipline
