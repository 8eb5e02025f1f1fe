import Plinth.Ledger.Requests
import Plinth.Ledger.Retain

/-!
# `Plinth.Ledger.Targets`: the frames that devices write to

The data descriptor of a request in flight names a frame. The process that posts the request holds
the frame, and the kernel does not look at the capability again. `Path.live_before` says when the
process still has it: nobody takes the data frame of a request in flight from its holder, and a
process that leaves holds none.
-/

set_option autoImplicit false

namespace Plinth

/-- A request of a device: its slot, the ring that it goes back to, and its descriptors. -/
structure Request where
  dev : DevId
  slot : Nat
  target : Completion
  chain : Chain
  deriving DecidableEq

/-- The frame that the data descriptor of a request names. -/
def Request.frame (x : Request) : CapObject := .frame x.chain.dataAddr

theorem Request.frame_steady (x : Request) (budget : Nat) : x.frame ≠ .cpuTime budget :=
  fun h => by cases h

/-- The request is in flight. -/
def Devices.Live (ds : Devices) (x : Request) : Prop :=
  ∃ d, ds.devices x.dev = some d ∧ d.inflights.routing x.slot = some x.target ∧
    d.chains x.slot = x.chain

variable {g : Guard} {v v' : Ledger} {x : Request} {p : ProcSlot}

/-- A request in flight was in flight before, or a process posts it that holds its frame. -/
theorem Act.live_before (act : Act g v v') (h : v'.devs.Live x) :
    v.devs.Live x ∨ ∃ q id userData, g.post q id ∧ x.target = .ring id userData ∧
      v.Holds q x.frame := by
  obtain ⟨d', hd', hslot, hchain⟩ := h
  obtain ⟨d, hd, hstep⟩ := act.request_step hd'
  cases hstep with
  | same hinf hchains =>
    rw [hinf] at hslot
    rw [hchains] at hchain
    exact Or.inl ⟨d, hd, hslot, hchain⟩
  | complete hinf hwf hchains =>
    rw [hchains] at hchain
    rcases hinf x.slot with hnone | hsame
    · rw [hnone] at hslot
      cases hslot
    · exact Or.inl ⟨d, hd, hsame.symm.trans hslot, hchain⟩
  | @post q proc id userData head chain hp huse howner hsubmit hchains hframe hg =>
    obtain ⟨top, -, hhead, hroute, -⟩ := Inflights.submit_some hsubmit
    have htop : head / descPerReq = top := by
      rw [hhead]
      exact Nat.mul_div_cancel _ (by decide)
    rw [hchains, htop] at hchain
    rw [hroute] at hslot
    by_cases hne : x.slot = top
    · -- The slot is the one that the request takes.
      rw [hne, Function.update_self] at hslot hchain
      obtain ⟨k, cap, hk, hobj⟩ := hframe
      refine Or.inr ⟨q, id, userData, hg, (Option.some.inj hslot).symm, .of_slot hp hk ?_⟩
      rw [hobj, hchain]
      rfl
    · rw [Function.update_of_ne hne] at hslot hchain
      exact Or.inl ⟨d, hd, hslot, hchain⟩

/-- A request in flight at the end of a path was in flight all the time, and whoever retained its
frame still does. Or the path posts it, and the process that posts it retains the frame. -/
theorem Path.live_before (path : Path g v v') (hbase : v.Base)
    (hret : ∀ u q, u.devs.Live x → g.Retentive u q x.frame)
    (hstay : ∀ u q, u.devs.Live x → u.Retains q x.frame → ¬ g.leave u q)
    (hposts : ∀ q id, g.post q id → ∀ u r, g.Retentive u r x.frame ∧ ¬ g.leave u r)
    (h : v'.devs.Live x) :
    (v.devs.Live x ∧ ∀ q, v.Retains q x.frame →
      v'.Retains q x.frame ∧ SameProcess v.proc v'.proc q) ∨
    ∃ q id userData, g.post q id ∧ x.target = .ring id userData ∧ v'.Retains q x.frame := by
  induction path with
  | refl =>
    refine Or.inl ⟨h, fun q hq => ?_⟩
    obtain ⟨proc, hp⟩ := hq.alive hbase.sound
    exact ⟨hq, .refl hp⟩
  | tail path act ih =>
    have hsound := (Path.base path hbase).sound
    rcases act.live_before h with hlive | ⟨q, id, userData, hpost, htarget, hholds⟩
    · rcases ih hlive with ⟨hstart, hkeep⟩ | ⟨q, id, userData, hpost, htarget, hq⟩
      · refine Or.inl ⟨hstart, fun q hq => ?_⟩
        obtain ⟨hq', hsame⟩ := hkeep q hq
        obtain ⟨hq'', hsame'⟩ := act.retains_same hsound x.frame_steady (hret _ q hlive)
          (hstay _ q hlive hq') hq'
        exact ⟨hq'', hsame.trans hsame'⟩
      · obtain ⟨hg, hleave⟩ := hposts q id hpost _ q
        exact Or.inr ⟨q, id, userData, hpost, htarget,
          (act.retains_same hsound x.frame_steady hg hleave hq).1⟩
    · obtain ⟨hg, hleave⟩ := hposts q id hpost _ q
      exact Or.inr ⟨q, id, userData, hpost, htarget,
        (act.retains_same hsound x.frame_steady hg hleave (Or.inl hholds)).1⟩

end Plinth
