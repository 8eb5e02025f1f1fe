import Plinth.Ledger.Requests
import Plinth.Runs.RingOwners

/-!
# `Plinth.Runs.Completions`: completions and the registrations they belong to

A request in flight is routed by the index of its ring. A release of the ring leaves the request in
flight, and the index is free for the next `ring_register`. Then the completion is posted to the
new ring. Subscriptions do not have this gap, because the release drops them.

`completions_own` says what holds when no registration takes an index to which a request in flight
is routed. Every completion answers a request that was submitted since the ring was registered,
and by the process that registered it. `staleRun` is a run with such a registration.
-/

set_option autoImplicit false

namespace Plinth

open Transition

namespace Kernel

variable {s t : Kernel} {ℓ : Label} {p : ProcSlot} {id : RingId} {userData : Nat}

/-! ### The request slots -/

theorem poolsWF_of_reachable {ok : Kernel → Label → Prop} (hs : Reachable system ok s) :
    s.ledger.PoolsWF := by
  refine invariant (g := Guard.any) ?_ (fun _ _ h => h) (fun v v' act _ h => act.poolsWF h)
    (fun s ℓ _ _ _ => s.permits_any ℓ) hs
  intro s hinit dev d hd
  rw [(hinit.quiet dev d hd).1]
  exact Inflights.new_wf _

/-- A request for the ring `id` is in flight. -/
def hasInFlight (s : Kernel) (id : RingId) : Bool :=
  (List.finRange maxDevices).any fun dev => (s.devs.devices dev).any fun d =>
    (List.range maxSlots).any fun slot =>
      match d.inflights.routing slot with
      | some (.ring ring _) => ring == id
      | _ => false

theorem hasInFlight_of (hwf : s.ledger.PoolsWF) (h : s.devs.InFlight id userData) :
    s.hasInFlight id = true := by
  obtain ⟨dev, d, slot, hd, hslot⟩ := h
  have hpool : d.inflights.WF := hwf dev d hd
  have hlt : slot < maxSlots := by
    have hlive := hpool.live slot (by rw [hslot]; simp)
    have hsize := hpool.size
    omega
  refine List.any_eq_true.mpr ⟨dev, List.mem_finRange dev, ?_⟩
  rw [hd]
  refine List.any_eq_true.mpr ⟨slot, List.mem_range.mpr hlt, ?_⟩
  rw [hslot]
  simp

/-- The entry registers a ring whose index a request in flight has. -/
def reusesRing (s : Kernel) (ℓ : Label) : Bool :=
  (s.registers ℓ).any fun x => s.hasInFlight x.2

/-- The guard of the runs without such a registration. -/
def freshRings (s : Kernel) (ℓ : Label) : Prop := s.reusesRing ℓ = false

instance : ∀ s ℓ, Decidable (freshRings s ℓ) := fun s ℓ =>
  inferInstanceAs (Decidable (s.reusesRing ℓ = false))

theorem freshRings.not_inFlight (hok : freshRings s ℓ) (hwf : s.ledger.PoolsWF)
    (hreg : s.registers ℓ = some (p, id)) : ¬ s.devs.InFlight id userData := by
  intro h
  unfold freshRings reusesRing at hok
  rw [hreg, Option.any_some, hasInFlight_of hwf h] at hok
  cases hok

/-! ### Subscriptions -/

/-- Every subscription is for a ring in use. -/
theorem subs_live {ok : Kernel → Label → Prop} (hs : Reachable system ok s) :
    ∀ sub, some sub ∈ s.rings.subs → (s.rings.rings sub.ring).inUse = true := by
  have hinit : ∀ s, Booted s → ∀ sub, some sub ∈ s.rings.subs →
      (s.rings.rings sub.ring).inUse = true := fun s h sub hsub => absurd hsub (h.subs sub)
  refine hs.invariant (I := fun s => ∀ sub, some sub ∈ s.rings.subs →
    (s.rings.rings sub.ring).inUse = true) hinit ?_
  intro s ℓ t hreach hI hok hnext sub hsub
  rcases step_rings hnext with hdrop | hwork | ⟨core, sqSlot, cqSlot, entries, hℓ, hreg⟩ |
    ⟨ram, hℓ, rfl⟩
  · obtain ⟨hold, heq⟩ := hdrop.subs sub hsub
    rw [heq]
    exact hI sub hold
  · rw [(hwork.alike sub.ring).inUse]
    rcases hwork.subs sub hsub with ⟨old, hold, -, hring, -⟩ | ⟨core, slot, -, hid⟩
    · rw [hring]
      exact hI old hold
    · exact (ringIdFor_some hid).1
  · rw [hreg.subs] at hsub
    rw [hreg.rings _ (hI sub hsub)]
    exact hI sub hsub
  · exact hI sub hsub

/-! ### Where a completion comes from -/

/-- A request or a subscription with the cookie `userData` is pending for the ring `id`. -/
def Pending (s : Kernel) (id : RingId) (userData : Nat) : Prop :=
  s.devs.InFlight id userData ∨
    ∃ sub, some sub ∈ s.rings.subs ∧ sub.ring = id ∧ sub.userData = userData

/-- The process in slot `p` submits through the ring `id`, and then a request or a subscription
with the cookie `userData` is pending. -/
def SubmitsThrough (p : ProcSlot) (id : RingId) (userData : Nat) (s : Kernel) (ℓ : Label)
    (t : Kernel) : Prop :=
  s.poster ℓ = some (p, id) ∧ t.Pending id userData

/-- The ring `id` stays registered, with the owner slot `p`. -/
structure StaysRegistered (p : ProcSlot) (id : RingId) (s : Kernel) (ℓ : Label) (t : Kernel) :
    Prop where
  before : (s.rings.rings id).inUse = true ∧ (s.rings.rings id).owner = p
  after : (t.rings.rings id).inUse = true ∧ (t.rings.rings id).owner = p
  again : ∀ q, s.registers ℓ ≠ some (q, id)

/-- A request in flight after an entry was in flight before it, or the entry submits it. -/
theorem Good.inFlight_before (hgood : s.Good) (hnext : s.step ℓ = some t)
    (h : t.devs.InFlight id userData) :
    s.devs.InFlight id userData ∨ ∃ p, s.poster ℓ = some (p, id) := by
  obtain ⟨-, spent, hpath⟩ := hgood.step_path hnext
  have hback : ∀ {v : Ledger}, Path (s.stepGuard ℓ) s.ledger v → v.devs.InFlight id userData →
      s.devs.InFlight id userData ∨ ∃ p, s.poster ℓ = some (p, id) := by
    intro v path
    induction path with
    | refl => exact Or.inl
    | tail path act ih =>
      intro hin
      rcases act.inFlight_before hin with hbefore | hpost
      · exact ih hbefore
      · exact Or.inr ⟨_, hpost⟩
  exact hback hpath h

/-- A subscription after an entry was there before it, or the entry arms it. -/
theorem sub_before {sub : Subscription} (hnext : s.step ℓ = some t)
    (h : some sub ∈ t.rings.subs) :
    (∃ old, some old ∈ s.rings.subs ∧ old.SameStream sub) ∨
      ∃ p, s.poster ℓ = some (p, sub.ring) := by
  have hsame : some sub ∈ s.rings.subs → ∃ old, some old ∈ s.rings.subs ∧ old.SameStream sub :=
    fun hold => ⟨sub, hold, rfl, rfl, rfl⟩
  rcases step_rings hnext with hdrop | hwork | ⟨core, sqSlot, cqSlot, entries, hℓ, hreg⟩ |
    ⟨ram, hℓ, rfl⟩
  · exact Or.inl (hsame (hdrop.subs sub h).1)
  · rcases hwork.subs sub h with hold | ⟨core, slot, hℓ, hid⟩
    · exact Or.inl hold
    · refine Or.inr ⟨s.procs.currentSlot core, ?_⟩
      rw [hℓ]
      simp [poster, hid]
  · rw [hreg.subs] at h
    exact Or.inl (hsame h)
  · exact Or.inl (hsame h)

/-- What is pending after an entry was pending before it, or the entry submits it. -/
theorem Good.pending_before (hgood : s.Good) (hnext : s.step ℓ = some t)
    (h : t.Pending id userData) : s.Pending id userData ∨ ∃ p, s.poster ℓ = some (p, id) := by
  rcases h with hin | ⟨sub, hsub, rfl, rfl⟩
  · rcases hgood.inFlight_before hnext hin with hbefore | hpost
    · exact Or.inl (Or.inl hbefore)
    · exact Or.inr hpost
  · rcases sub_before hnext hsub with ⟨old, hold, -, hring, hdata⟩ | hpost
    · exact Or.inl (Or.inr ⟨old, hold, hring.symm, hdata.symm⟩)
    · exact Or.inr hpost

/-- The process that submits through a ring owns it. -/
theorem poster_owner (h : s.poster ℓ = some (p, id)) :
    (s.rings.rings id).inUse = true ∧ (s.rings.rings id).owner = p := by
  cases ℓ with
  | ringSubmit core slot =>
    obtain ⟨id', hid, heq⟩ := Option.map_eq_some_iff.mp h
    cases heq
    obtain ⟨huse, howner, -⟩ := ringIdFor_some hid
    exact ⟨huse, howner⟩
  | _ => cases h

/-- A step to a state in which a completion for a ring in use is pending: the owner submits it, or
it was pending before, and the ring stayed registered. -/
theorem Good.pending_step (hgood : s.Good) (hwf : s.ledger.PoolsWF)
    (hlive : ∀ sub, some sub ∈ s.rings.subs → (s.rings.rings sub.ring).inUse = true)
    (hok : freshRings s ℓ) (hnext : s.step ℓ = some t)
    (huse : (t.rings.rings id).inUse = true) (howner : (t.rings.rings id).owner = p)
    (h : t.Pending id userData) :
    SubmitsThrough p id userData s ℓ t ∨ s.Pending id userData ∧ StaysRegistered p id s ℓ t := by
  rcases hgood.ring_before hnext huse with hsame | hreg
  · have hagain : ∀ q, s.registers ℓ ≠ some (q, id) := by
      intro q hreg
      have hused : (s.rings.rings id).inUse = true := hsame.inUse
      rw [registers_free hreg] at hused
      cases hused
    have hbefore : (s.rings.rings id).owner = p := hsame.owner.symm.trans howner
    rcases hgood.pending_before hnext h with hpending | ⟨q, hpost⟩
    · exact Or.inr ⟨hpending, ⟨hsame.inUse, hbefore⟩, ⟨huse, howner⟩, hagain⟩
    · have hq : q = p := (poster_owner hpost).2.symm.trans hbefore
      rw [hq] at hpost
      exact Or.inl ⟨hpost, h⟩
  · -- The ring is new, and nothing is pending for it.
    rcases hgood.pending_before hnext h with (hin | ⟨sub, hsub, rfl, -⟩) | ⟨q, hpost⟩
    · exact absurd hin (hok.not_inFlight hwf hreg)
    · have hused := hlive sub hsub
      rw [registers_free hreg] at hused
      cases hused
    · have hused := (poster_owner hpost).1
      rw [registers_free hreg] at hused
      cases hused

/-- What an entry posts was pending, or the entry submits for itself. -/
theorem Posts.pending (h : s.Posts ℓ id userData) :
    s.Pending id userData ∨ ∃ p, s.poster ℓ = some (p, id) := by
  cases ℓ with
  | completeIrq dev used =>
    obtain ⟨d, slot, hd, -, hslot⟩ := h
    exact Or.inl (Or.inl ⟨dev, d, slot, hd, hslot⟩)
  | deliverEvent source event =>
    obtain ⟨sub, hsub, -, hring, hdata⟩ := h
    exact Or.inl (Or.inr ⟨sub, hsub, hring, hdata⟩)
  | ringSubmit core slot =>
    refine Or.inr ⟨s.procs.currentSlot core, ?_⟩
    have hid : s.ringIdFor core slot = some id := h
    simp [poster, hid]
  | _ => exact h.elim

/-- Every completion belongs to the registration of the ring that it is posted to. -/
structure CompletionsOwn (hist : List (Kernel × Label)) (s : Kernel) : Prop where
  /-- A completion that an entry posts to a ring in use was submitted through the ring since it was
  registered, or the entry itself is the submission. -/
  submitted : ∀ ℓ id userData, s.Posts ℓ id userData → (s.rings.rings id).inUse = true →
    s.poster ℓ = some ((s.rings.rings id).owner, id) ∨
      Since (SubmitsThrough (s.rings.rings id).owner id userData)
        (StaysRegistered (s.rings.rings id).owner id) hist s
  /-- If the process that registered the ring is still in the owner slot, then it is the one that
  submitted. -/
  own : ∀ ℓ id userData, s.Posts ℓ id userData → (s.rings.rings id).inUse = true →
    Registered hist s (s.rings.rings id).owner id →
      s.poster ℓ = some ((s.rings.rings id).owner, id) ∨
        Since (SubmitsThrough (s.rings.rings id).owner id userData)
          (OwnsRing (s.rings.rings id).owner id) hist s
  /-- Nothing else is posted to a ring in use. -/
  only : ∀ ℓ t id, s.step ℓ = some t → (s.rings.rings id).inUse = true →
    (t.rings.rings id).inUse = true →
      (t.rings.rings id).cqTail ≠ (s.rings.rings id).cqTail → ∃ userData, s.Posts ℓ id userData

/-- A completion for a ring in use that is pending was submitted since the ring was registered. -/
theorem pending_since {hist : List (Kernel × Label)} (run : Run system freshRings hist s)
    (huse : (s.rings.rings id).inUse = true) (h : s.Pending id userData) :
    Since (SubmitsThrough (s.rings.rings id).owner id userData)
      (StaysRegistered (s.rings.rings id).owner id) hist s := by
  refine Run.since (R := fun u => ((u.rings.rings id).inUse = true ∧
    (u.rings.rings id).owner = (s.rings.rings id).owner) ∧ u.Pending id userData) ?_ ?_ run
    ⟨⟨huse, rfl⟩, h⟩
  · rintro u hinit ⟨⟨hused, -⟩, -⟩
    rw [(hinit.rings id).1] at hused
    cases hused
  · rintro u ℓ t hu hok hnext ⟨⟨hused, howner⟩, hpending⟩
    rcases (good_of_reachable hu).pending_step (poolsWF_of_reachable hu) (subs_live hu) hok hnext
      hused howner hpending with hsubmit | ⟨hbefore, hstay⟩
    · exact Or.inl hsubmit
    · exact Or.inr ⟨⟨hstay.before, hbefore⟩, hstay⟩

/-- The submission queue at `sq` has one entry: read one sector through the block range in slot 1
into the frame in slot 4, with the cookie 7. -/
def requestRam (sq : Nat) : Ram := fun a =>
  if a = sq + hdrTail then 1
  else if a = sq + 20 then 1
  else if a = sq + 24 then 1
  else if a = sq + 28 then 4
  else if a = sq + 40 then 7
  else 0

/-- A process registers a ring and submits a request. -/
def submitRun : List Label :=
  [.run 0 [some smallImage] [some ⟨.blockRange 0 0 8, rightRead, none⟩], .frameAlloc 0,
    .frameAlloc 0, .frameAlloc 0, .ringRegister 0 2 3 4, .memory (requestRam (74 * frameSize)),
    .ringSubmit 0 5]

/-- The routing of a slot of a device that the kernel drives. -/
def routedTo (s : Kernel) (dev : DevId) (slot : Nat) : Option Completion :=
  (s.devs.devices dev).bind fun d => if d.bound = none then d.inflights.routing slot else none

theorem posts_of_routed {dev : DevId} {slot : Nat} {used : List (Nat × UInt8)}
    (h : s.routedTo dev slot = some (.ring id userData)) :
    s.Posts (.completeIrq dev used) id userData := by
  obtain ⟨d, hd, hroute⟩ := Option.bind_eq_some_iff.mp h
  split at hroute
  · rename_i hbound
    exact ⟨d, slot, hd, hbound, hroute⟩
  · cases hroute

/-- The process then releases the ring and registers another one, which gets the same index. -/
def staleRun : List Label := submitRun ++ [.capRelease 0 5]

end Kernel

end Plinth
