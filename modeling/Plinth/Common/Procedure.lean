import Mathlib.Logic.Function.Basic

/-!
# `Plinth.Common.Procedure`: procedures that may give up

A procedure acts on a state. It ends with a value, or it gives up, and then the procedures after it
do not run. What it did to the state stays in both cases.

`Triple P m Q E` says what holds after `m` was run where `P` held: `Q` if it ends with a value, and
`E` if it gives up. There is one rule for each way to build a procedure. `Keeps` is the same for a
relation between the state before and the state after, whatever the end.
-/

set_option autoImplicit false

namespace Procedure

variable {σ α β ι : Type}

/-- A procedure. -/
def Proc (σ α : Type) : Type := σ → Option α × σ

instance : Monad (Proc σ) where
  pure a := fun s => (some a, s)
  bind m f := fun s => (m s).1.elim (none, (m s).2) fun a => f a (m s).2

/-- Give up. -/
def giveUp : Proc σ α := fun s => (none, s)

/-- Change the state. -/
def act (f : σ → σ) : Proc σ Unit := fun s => (some (), f s)

/-- Look at the state. -/
def ask (f : σ → α) : Proc σ α := fun s => (some (f s), s)

/-- The value, or give up. -/
def orGiveUp : Option α → Proc σ α
  | some a => pure a
  | none => giveUp

/-- Give up unless the condition holds. -/
def require (c : Prop) [Decidable c] : Proc σ Unit := if c then pure () else giveUp

/-- Go on even if the procedure gives up. -/
def attempt (m : Proc σ α) : Proc σ Unit := fun s => (some (), (m s).2)

/-- One procedure after the other. -/
def forAll : List ι → (ι → Proc σ Unit) → Proc σ Unit
  | [], _ => pure ()
  | i :: is, f => f i >>= fun _ => forAll is f

/-! ### Triples -/

/-- What holds after a procedure. -/
structure Triple (P : σ → Prop) (m : Proc σ α) (Q : α → σ → Prop) (E : σ → Prop) : Prop where
  done : ∀ s a, P s → (m s).1 = some a → Q a (m s).2
  stop : ∀ s, P s → (m s).1 = none → E (m s).2

variable {P P' : σ → Prop} {m : Proc σ α} {f : α → Proc σ β} {Q Q' : α → σ → Prop}
  {R : β → σ → Prop} {E E' : σ → Prop}

theorem Triple.pure {a : α} (h : ∀ s, P s → Q a s) : Triple P (Pure.pure a) Q E where
  done s b hs hb := by
    cases hb
    exact h s hs
  stop s _ hb := nomatch hb

theorem Triple.giveUp (h : ∀ s, P s → E s) : Triple P (giveUp : Proc σ α) Q E where
  done _ _ _ hb := nomatch hb
  stop s hs _ := h s hs

theorem Triple.act {g : σ → σ} {Q : Unit → σ → Prop} (h : ∀ s, P s → Q () (g s)) :
    Triple P (act g) Q E where
  done s _ hs _ := h s hs
  stop _ _ hb := nomatch hb

theorem Triple.ask {g : σ → α} (h : ∀ s, P s → Q (g s) s) : Triple P (ask g) Q E where
  done s b hs hb := by
    cases hb
    exact h s hs
  stop _ _ hb := nomatch hb

theorem Triple.orGiveUp {o : Option α} (h : ∀ a s, o = some a → P s → Q a s)
    (hnone : ∀ s, o = none → P s → E s) : Triple P (orGiveUp o) Q E := by
  cases o with
  | none => exact Triple.giveUp fun s hs => hnone s rfl hs
  | some a => exact Triple.pure fun s hs => h a s rfl hs

theorem Triple.require {c : Prop} [Decidable c] {Q : Unit → σ → Prop}
    (h : ∀ s, c → P s → Q () s) (hnot : ∀ s, ¬ c → P s → E s) : Triple P (require c) Q E := by
  unfold Procedure.require
  split
  · rename_i hc
    exact Triple.pure fun s hs => h s hc hs
  · rename_i hc
    exact Triple.giveUp fun s hs => hnot s hc hs

theorem bind_run (m : Proc σ α) (f : α → Proc σ β) (s : σ) :
    (m >>= f) s = (m s).1.elim (none, (m s).2) fun a => f a (m s).2 := rfl

/-- The rule for a sequence. -/
theorem Triple.bind (hm : Triple P m Q E) (hf : ∀ a, Triple (Q a) (f a) R E) :
    Triple P (m >>= f) R E where
  done s b hs hb := by
    rw [bind_run] at hb ⊢
    cases ha : (m s).1 with
    | none =>
      rw [ha] at hb
      cases hb
    | some a =>
      rw [ha] at hb
      exact (hf a).done _ b (hm.done s a hs ha) hb
  stop s hs hb := by
    rw [bind_run] at hb ⊢
    cases ha : (m s).1 with
    | none => exact hm.stop s hs ha
    | some a =>
      rw [ha] at hb
      exact (hf a).stop _ (hm.done s a hs ha) hb

theorem Triple.conseq (h : Triple P m Q E) (hpre : ∀ s, P' s → P s)
    (hpost : ∀ a s, Q a s → Q' a s) (hstop : ∀ s, E s → E' s) : Triple P' m Q' E' where
  done s a hs ha := hpost a _ (h.done s a (hpre s hs) ha)
  stop s hs ha := hstop _ (h.stop s (hpre s hs) ha)

theorem Triple.pre (h : Triple P m Q E) (hpre : ∀ s, P' s → P s) : Triple P' m Q E :=
  h.conseq hpre (fun _ _ hq => hq) fun _ he => he

theorem Triple.post (h : Triple P m Q E) (hpost : ∀ a s, Q a s → Q' a s) : Triple P m Q' E :=
  h.conseq (fun _ hs => hs) hpost fun _ he => he

/-- A fact that holds where the procedure starts. -/
theorem Triple.given {p : Prop} (h : p → Triple P m Q E) : Triple (fun s => P s ∧ p) m Q E where
  done s a hs ha := (h hs.2).done s a hs.1 ha
  stop s hs ha := (h hs.2).stop s hs.1 ha

/-- What holds at both ends. -/
theorem Triple.final (h : Triple P m (fun _ => E) E) {s : σ} (hs : P s) : E (m s).2 := by
  cases ha : (m s).1 with
  | none => exact h.stop s hs ha
  | some a => exact h.done s a hs ha

theorem Triple.attempt {Q : Unit → σ → Prop} (h : Triple P m (fun _ s => Q () s) (Q ())) :
    Triple P (attempt m) Q E where
  done _ _ hs _ := h.final hs
  stop _ _ hb := nomatch hb

theorem Triple.ite {c : Prop} [Decidable c] {m' : Proc σ α} (h : c → Triple P m Q E)
    (h' : ¬ c → Triple P m' Q E) : Triple P (if c then m else m') Q E := by
  split
  · rename_i hc
    exact h hc
  · rename_i hc
    exact h' hc

/-- The rule for a loop, with its invariant. -/
theorem Triple.forAll {l : List ι} {g : ι → Proc σ Unit} {I : σ → Prop}
    (h : ∀ i ∈ l, Triple I (g i) (fun _ => I) E) : Triple I (forAll l g) (fun _ => I) E := by
  induction l with
  | nil => exact Triple.pure fun _ hs => hs
  | cons i l ih =>
    exact Triple.bind (h i List.mem_cons_self) fun _ =>
      ih fun j hj => h j (List.mem_cons_of_mem i hj)

/-! ### What every end keeps -/

/-- The states before and after are related, whatever the end. -/
def Keeps (R : σ → σ → Prop) (m : Proc σ α) : Prop := ∀ s, R s (m s).2

/-- A relation that a sequence keeps if its parts do. -/
structure Preorder (R : σ → σ → Prop) : Prop where
  refl : ∀ s, R s s
  trans : ∀ s t u, R s t → R t u → R s u

variable {r : σ → σ → Prop}

theorem Keeps.pure (hr : Preorder r) (a : α) : Keeps r (Pure.pure a) := hr.refl

theorem Keeps.giveUp (hr : Preorder r) : Keeps r (giveUp : Proc σ α) := hr.refl

theorem Keeps.ask (hr : Preorder r) (g : σ → α) : Keeps r (ask g) := hr.refl

theorem Keeps.orGiveUp (hr : Preorder r) (o : Option α) : Keeps r (orGiveUp o) := by
  cases o with
  | none => exact Keeps.giveUp hr
  | some a => exact Keeps.pure hr a

theorem Keeps.require (hr : Preorder r) (c : Prop) [Decidable c] : Keeps r (require c) := by
  unfold Procedure.require
  split
  · exact Keeps.pure hr ()
  · exact Keeps.giveUp hr

theorem Keeps.bind (hr : Preorder r) (hm : Keeps r m) (hf : ∀ a, Keeps r (f a)) :
    Keeps r (m >>= f) := by
  intro s
  rw [bind_run]
  cases (m s).1 with
  | none => exact hm s
  | some a => exact hr.trans _ _ _ (hm s) (hf a _)

/-- A fact that the relation carries over. -/
theorem Keeps.triple {I : σ → Prop} (hm : Keeps r m) (h : ∀ s t, r s t → I s → I t) :
    Triple I m (fun _ => I) I where
  done s _ hs _ := h s _ (hm s) hs
  stop s hs _ := h s _ (hm s) hs

theorem Keeps.attempt (hm : Keeps r m) : Keeps r (attempt m) := hm

theorem Keeps.ite {c : Prop} [Decidable c] {m' : Proc σ α} (h : Keeps r m) (h' : Keeps r m') :
    Keeps r (if c then m else m') := by
  split
  · exact h
  · exact h'

theorem Keeps.forAll (hr : Preorder r) {l : List ι} {g : ι → Proc σ Unit}
    (h : ∀ i, Keeps r (g i)) : Keeps r (forAll l g) := by
  induction l with
  | nil => exact Keeps.pure hr ()
  | cons i l ih => exact Keeps.bind hr (h i) fun _ => ih

end Procedure
