import Plinth.Ledger.Keys

/-!
# `Plinth.Ledger.Requests`: the requests in flight

`Act.request_step` says what an action does to the request slots of a device: nothing, or the
owner of a ring posts a request that names a frame of it, or the device completes some requests.
The invariants of the slots follow from it.
-/

set_option autoImplicit false

namespace Plinth

variable {g : Guard} {v v' : Ledger}

/-- What an action does to the request slots of a device. -/
inductive RequestStep (g : Guard) (v : Ledger) (d d' : VirtioBlk) : Prop where
  | same (hinf : d'.inflights = d.inflights) (hchains : d'.chains = d.chains)
  /-- The owner of the ring `id` posts a request, with a data frame that it holds. -/
  | post {p : ProcSlot} {proc : Process} {id : RingId} {userData head : Nat} {chain : Chain}
      (hp : v.proc p = some proc) (huse : (v.rings id).inUse = true)
      (howner : (v.rings id).owner = p)
      (hsubmit : d.inflights.submit (.ring id userData) = some (head, d'.inflights))
      (hchains : d'.chains = Function.update d.chains (head / descPerReq) chain)
      (hframe : proc.Names (.frame chain.dataAddr)) (hg : g.post p id)
  /-- The device completes requests. -/
  | complete (hinf : ∀ slot, d'.inflights.routing slot = none ∨
        d'.inflights.routing slot = d.inflights.routing slot)
      (hwf : d.inflights.WF → d'.inflights.WF) (hchains : d'.chains = d.chains)

/-- A rewrite of one device: every device after it is an old one, or the new one. -/
theorem setDevice_cases {ds : Devices} {dev j : DevId} {x : VirtioBlk} {d' : VirtioBlk}
    (h : (ds.setDevice dev (some x)).devices j = some d') :
    (j = dev ∧ d' = x) ∨ ds.devices j = some d' := by
  unfold Devices.setDevice at h
  dsimp only at h
  by_cases hj : j = dev
  · rw [hj, Function.update_self, Option.some.injEq] at h
    exact Or.inl ⟨hj, h.symm⟩
  · rw [Function.update_of_ne hj] at h
    exact Or.inr h

theorem setDevice_none {ds : Devices} {dev j : DevId} {d' : VirtioBlk}
    (h : (ds.setDevice dev none).devices j = some d') : ds.devices j = some d' := by
  unfold Devices.setDevice at h
  dsimp only at h
  by_cases hj : j = dev
  · rw [hj, Function.update_self] at h
    cases h
  · rwa [Function.update_of_ne hj] at h

theorem detach_devices {ds : Devices} {dev j : DevId} {d' : VirtioBlk}
    (h : (ds.detach dev).1.devices j = some d') : ds.devices j = some d' := by
  unfold Devices.detach at h
  split at h
  · exact h
  · dsimp only at h
    split at h
    · exact setDevice_none h
    · split at h
      · exact setDevice_none h
      · exact setDevice_none h

/-- A device after an action was there before it, and its request slots made a step. -/
theorem Act.request_step (act : Act g v v') {dev : DevId} {d' : VirtioBlk}
    (hd' : v'.devs.devices dev = some d') :
    ∃ d, v.devs.devices dev = some d ∧ RequestStep g v d d' := by
  cases act with
  | parkBind hp hk hobj hstate hd hb hg =>
    rcases setDevice_cases hd' with ⟨rfl, rfl⟩ | hold
    · exact ⟨_, hd, .same rfl rfl⟩
    · exact ⟨d', hold, .same rfl rfl⟩
  | post hp hd huse howner hsubmit hframe hg =>
    rcases setDevice_cases hd' with ⟨rfl, rfl⟩ | hold
    · exact ⟨_, hd, .post hp huse howner hsubmit rfl hframe hg⟩
    · exact ⟨d', hold, .same rfl rfl⟩
  | complete hd hinf hwf =>
    rcases setDevice_cases hd' with ⟨rfl, rfl⟩ | hold
    · exact ⟨_, hd, .complete hinf hwf rfl⟩
    · exact ⟨d', hold, .same rfl rfl⟩
  | unwait hd hb =>
    rcases setDevice_cases hd' with ⟨rfl, rfl⟩ | hold
    · exact ⟨_, hd, .same rfl rfl⟩
    · exact ⟨d', hold, .same rfl rfl⟩
  | takeBound hp hk hobj hstate hnone hfirst hg => exact ⟨d', detach_devices hd', .same rfl rfl⟩
  | _ => exact ⟨d', hd', .same rfl rfl⟩

/-! ### The pools -/

/-- The request slots of every device are well-formed. -/
def Ledger.PoolsWF (v : Ledger) : Prop :=
  ∀ dev d, v.devs.devices dev = some d → d.inflights.WF

theorem Act.poolsWF (act : Act g v v') (h : v.PoolsWF) : v'.PoolsWF := by
  intro dev d' hd'
  obtain ⟨d, hd, hstep⟩ := act.request_step hd'
  cases hstep with
  | same hinf hchains =>
    rw [hinf]
    exact h dev d hd
  | post hp huse howner hsubmit hchains hframe hg => exact Inflights.submit_wf (h dev d hd) hsubmit
  | complete hinf hwf hchains => exact hwf (h dev d hd)

/-! ### Where a request in flight comes from -/

/-- A request with the cookie `userData` is in flight for the ring `id`. -/
def Devices.InFlight (ds : Devices) (id : RingId) (userData : Nat) : Prop :=
  ∃ dev d slot, ds.devices dev = some d ∧ d.inflights.routing slot = some (.ring id userData)

/-- A request in flight was in flight before, or the owner of the ring posts it. -/
theorem Act.inFlight_before (act : Act g v v') {id : RingId} {userData : Nat}
    (h : v'.devs.InFlight id userData) :
    v.devs.InFlight id userData ∨ g.post (v.rings id).owner id := by
  obtain ⟨dev, d', slot, hd', hslot⟩ := h
  obtain ⟨d, hd, hstep⟩ := act.request_step hd'
  cases hstep with
  | same hinf hchains =>
    rw [hinf] at hslot
    exact Or.inl ⟨dev, d, slot, hd, hslot⟩
  | complete hinf hwf hchains =>
    rcases hinf slot with hnone | hsame
    · rw [hnone] at hslot
      cases hslot
    · exact Or.inl ⟨dev, d, slot, hd, hsame.symm.trans hslot⟩
  | post hp huse howner hsubmit hchains hframe hg =>
    obtain ⟨top, -, -, hroute, -⟩ := Inflights.submit_some hsubmit
    rw [hroute] at hslot
    by_cases hne : slot = top
    · rw [hne, Function.update_self, Option.some.injEq, Completion.ring.injEq] at hslot
      obtain ⟨rfl, -⟩ := hslot
      rw [howner]
      exact Or.inr hg
    · rw [Function.update_of_ne hne] at hslot
      exact Or.inl ⟨dev, d, slot, hd, hslot⟩

end Plinth
