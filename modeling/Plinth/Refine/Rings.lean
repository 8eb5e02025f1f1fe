import Plinth.Refine.Calls
import Plinth.Refine.Permits

/-!
# `Plinth.Refine.Rings`: rings, completions and events

A post to a ring (`cqPost_path`) takes its owner out of the wait, and the kernel wakes the owner
later (`wakeAll_path`). In between the owner is in the list `awake` of the ledger.

The loops over completions, subscriptions and submissions are paths by induction on the loop.
-/

set_option autoImplicit false

namespace Plinth

variable {g : Guard} {v : Ledger} {s : Kernel} {core : Core} {proc : Process}

/-! ### Posts -/

/-- A post to a ring. The process that waited for it is in the list `awake` afterwards. -/
theorem cqPost_path {rt : RingTable} (hv : v.rings = rt.rings) (ram : Ram) (id : RingId)
    (userData status : Nat) (dropIfFull : Bool) :
    Path g v { v with
      rings := (rt.cqPost ram id userData status dropIfFull).2.1.rings
      awake := (rt.cqPost ram id userData status dropIfFull).1.2.toList ++ v.awake } := by
  unfold RingTable.cqPost
  dsimp only
  split
  · rw [← hv]
    exact Relation.ReflTransGen.refl
  · split
    · rw [← hv]
      exact Relation.ReflTransGen.refl
    · have hact := Act.ringPost (g := g) (v := v)
        (r := { rt.rings id with cqTail := (rt.rings id).cqTail + 1, waiting := false })
        (by rw [hv]) (by rw [hv]) (by rw [hv]) (by rw [hv]) (by rw [hv]) rfl
      have hwake : (if (rt.rings id).waiting then some (rt.rings id).owner else none).toList
          = if (v.rings id).waiting then [(v.rings id).owner] else [] := by
        rw [hv]
        split <;> rfl
      rw [hwake]
      rw [hv] at hact ⊢
      exact Relation.ReflTransGen.single hact

/-- The process in slot `p` owns the ring `id`, and does not wait for it. -/
structure Serves (R : RingId → Ring) (p : ProcSlot) (id : RingId) : Prop where
  inUse : (R id).inUse = true
  owner : (R id).owner = p
  quiet : (R id).waiting = false

/-- A post to a ring for which nobody waits wakes nobody. -/
theorem cqPost_quiet {rt : RingTable} {p : ProcSlot} {id : RingId} (h : Serves rt.rings p id)
    (ram : Ram) (userData status : Nat) (dropIfFull : Bool) :
    (rt.cqPost ram id userData status dropIfFull).1.2 = none ∧
      Serves (rt.cqPost ram id userData status dropIfFull).2.1.rings p id := by
  unfold RingTable.cqPost
  dsimp only
  split
  · exact ⟨rfl, h⟩
  · split
    · exact ⟨rfl, h⟩
    · have hself : ∀ r, (rt.setRing id r).rings id = r := fun r => Function.update_self ..
      refine ⟨by rw [h.quiet]; rfl, ?_, ?_, ?_⟩
      · dsimp only
        rw [hself]
        exact h.inUse
      · dsimp only
        rw [hself]
        exact h.owner
      · dsimp only
        rw [hself]

/-- A post to a ring of the process that runs. -/
theorem postStatus_path {rt : RingTable} (hv : v.rings = rt.rings) {p : ProcSlot} {id : RingId}
    (h : Serves v.rings p id) (ram : Ram) (userData status : Nat) :
    Path g v { v with rings := (rt.postStatus ram id userData status).1.rings } ∧
      Serves (rt.postStatus ram id userData status).1.rings p id := by
  have hpost := cqPost_path (g := g) hv ram id userData status false
  rw [hv] at h
  obtain ⟨hwake, hserves⟩ := cqPost_quiet h ram userData status false
  rw [hwake] at hpost
  exact ⟨hpost, hserves⟩

/-! ### Wakes -/

/-- The processes that left what they waited for become ready, in order. -/
theorem wakeAll_path {wakes : List ProcSlot} (hrep : Rep s none v) (hbase : v.Base)
    (hawake : v.awake = wakes) (hg : ∀ p ∈ wakes, g.wake p ⟨0, 0, noCap⟩) :
    ∃ state mail, Path g v { v with awake := [], state := state, mail := mail } ∧
      Rep { s with procs := Kernel.wakeAll s.procs wakes } none
        { v with awake := [], state := state, mail := mail } := by
  induction wakes generalizing s v with
  | nil =>
    refine ⟨v.state, v.mail, ?_, ⟨hrep.procs, hrep.ipc, hrep.mem, hrep.rings, hrep.devs⟩⟩
    rw [← hawake]
  | cons w wakes ih =>
    have hact := Act.wake (g := g) hawake (hg w List.mem_cons_self)
    have hblocked : v.state w = .blocked := by
      refine hbase.registered.blocked ?_
      unfold Ledger.regs
      rw [hawake, List.count_cons_self]
      omega
    obtain ⟨state, mail, hpath, hrep'⟩ := ih
      (s := { s with procs := s.procs.wakeWith w 0 0 noCap })
      (v := ({ v with awake := wakes } : Ledger).woken w ⟨0, 0, noCap⟩)
      ⟨hrep.procs.wake hblocked 0 0 noCap, hrep.ipc, hrep.mem, hrep.rings, hrep.devs⟩
      (hact.base hbase) rfl (fun q hq => hg q (List.mem_cons_of_mem _ hq))
    exact ⟨state, mail, hpath.head hact, hrep'⟩

/-- Post first and wake then: the end of an interrupt. -/
theorem Kernel.Good.refines_wakes (h : s.Good) {t : Kernel} {awake wakes : List ProcSlot}
    (path : Path g s.ledger { s.ledger with
      rings := t.rings.rings, devs := t.devs, awake := awake })
    (hg : ∀ p ∈ wakes, g.wake p ⟨0, 0, noCap⟩) (hperm : awake.Perm wakes)
      (hprocs : t.procs = s.procs) (hipc : t.ipc = s.ipc)
    (hmem : t.mem = s.mem) :
    s.Refines g { t with procs := Kernel.wakeAll t.procs wakes } := by
  have hpath : Path g s.ledger { s.ledger with
      rings := t.rings.rings, devs := t.devs, awake := wakes } :=
    path.tail (Act.rouse hperm.symm)
  have hrep : Rep t none { s.ledger with
      rings := t.rings.rings, devs := t.devs, awake := wakes } :=
    ⟨by rw [hprocs]; exact h.rep.procs, by rw [hipc]; exact h.rep.ipc, by rw [hmem]; rfl, rfl,
      rfl⟩
  obtain ⟨state, mail, hwake, hrep'⟩ := wakeAll_path (g := g) hrep (hpath.base h.base) rfl hg
  exact ⟨_, hpath.trans hwake, hrep', ⟨rfl, rfl, rfl, rfl, rfl, rfl, rfl⟩⟩

/-! ### Events -/

theorem deliverOne_path {d : RingTable.Delivery} (hv : v.rings = d.1.rings)
    (hawake : v.awake.Perm d.2.2) (source : Nat) (event : UInt32) (i : Nat) :
    ∃ awake, awake.Perm (RingTable.deliverOne source event d i).2.2 ∧
      Path g v { v with
        rings := (RingTable.deliverOne source event d i).1.rings, awake := awake } := by
  unfold RingTable.deliverOne
  split
  · refine ⟨v.awake, hawake, ?_⟩
    rw [← hv]
  · rename_i sub _
    split
    · refine ⟨v.awake, hawake, ?_⟩
      rw [← hv]
    · have hpost := cqPost_path (g := g) hv d.2.1 sub.ring sub.userData
        (if 0 < sub.dropped then event ||| eventDropped else event).toNat true
      exact ⟨_, (hawake.append_left _).trans List.perm_append_comm, hpost⟩

theorem deliver_path {d : RingTable.Delivery} (hv : v.rings = d.1.rings)
    (hawake : v.awake.Perm d.2.2) (source : Nat) (event : UInt32) (indices : List Nat) :
    ∃ awake, awake.Perm (indices.foldl (RingTable.deliverOne source event) d).2.2 ∧
      Path g v { v with
        rings := (indices.foldl (RingTable.deliverOne source event) d).1.rings
        awake := awake } := by
  induction indices generalizing v d with
  | nil =>
    refine ⟨v.awake, hawake, ?_⟩
    rw [List.foldl_nil, ← hv]
  | cons i indices ih =>
    obtain ⟨awake, hperm, hone⟩ := deliverOne_path (g := g) hv hawake source event i
    obtain ⟨awake', hperm', hrest⟩ := ih (v := { v with
      rings := (RingTable.deliverOne source event d i).1.rings, awake := awake })
      (d := RingTable.deliverOne source event d i) rfl hperm
    exact ⟨awake', hperm', hone.trans hrest⟩

/-- A post changes the tail of one ring, and it may end the wait for it. The wake goes to the
owner that waited. -/
theorem cqPost_wakes {rt : RingTable} {ram : Ram} {id : RingId} {userData status : Nat}
    {dropIfFull : Bool} :
    (∀ id', ((rt.cqPost ram id userData status dropIfFull).2.1.rings id').waiting = true →
      (rt.rings id').waiting = true ∧
        ((rt.cqPost ram id userData status dropIfFull).2.1.rings id').owner
          = (rt.rings id').owner) ∧
      (∀ p ∈ (rt.cqPost ram id userData status dropIfFull).1.2,
        (rt.rings id).waiting = true ∧ (rt.rings id).owner = p) ∧
      (rt.cqPost ram id userData status dropIfFull).2.1.subs = rt.subs := by
  unfold RingTable.cqPost
  dsimp only
  split
  · exact ⟨fun _ h => ⟨h, rfl⟩, fun p hp => (by cases hp), rfl⟩
  · split
    · exact ⟨fun _ h => ⟨h, rfl⟩, fun p hp => (by cases hp), rfl⟩
    · refine ⟨fun id' hwait => ?_, fun p hp => ?_, rfl⟩
      · unfold RingTable.setRing at hwait ⊢
        dsimp only at hwait ⊢
        by_cases hid : id' = id
        · subst hid
          rw [Function.update_self] at hwait
          cases hwait
        · rw [Function.update_of_ne hid] at hwait ⊢
          exact ⟨hwait, rfl⟩
      · dsimp only at hp
        split at hp
        · rename_i hwait
          exact ⟨hwait, by simpa using hp⟩
        · cases hp

/-- During a delivery from the state `s`, the processes to wake waited in `s` on a ring that
subscribes to the source. -/
structure Delivers (s : Kernel) (source : Nat) (d : RingTable.Delivery) : Prop where
  rings : ∀ id, (d.1.rings id).waiting = true → (s.rings.rings id).waiting = true ∧
    (d.1.rings id).owner = (s.rings.rings id).owner
  subs : ∀ sub, some sub ∈ d.1.subs → ∃ sub', some sub' ∈ s.rings.subs ∧
    sub'.source = sub.source ∧ sub'.ring = sub.ring
  wakes : ∀ p ∈ d.2.2, ∃ sub, some sub ∈ s.rings.subs ∧ sub.source = source ∧
    s.waitsOnRing p sub.ring

theorem Delivers.refl (s : Kernel) (source : Nat) :
    Delivers s source (s.rings, s.ram, []) :=
  ⟨fun _ h => ⟨h, rfl⟩, fun sub h => ⟨sub, h, rfl, rfl⟩, fun p hp => by cases hp⟩

theorem deliverOne_wakes {d : RingTable.Delivery} {source : Nat} {event : UInt32} (i : Nat)
    (h : Delivers s source d) : Delivers s source (RingTable.deliverOne source event d i) := by
  unfold RingTable.deliverOne
  split
  · exact h
  · rename_i sub hsub
    have hmem : some sub ∈ d.1.subs := by
      rw [List.getD_eq_getElem?_getD] at hsub
      cases hget : d.1.subs[i]? with
      | none =>
        rw [hget] at hsub
        cases hsub
      | some o =>
        rw [hget] at hsub
        have ho : o = some sub := hsub
        rw [← ho]
        exact List.mem_of_getElem? hget
    split
    · exact h
    · rename_i hsource
      rw [not_not] at hsource
      obtain ⟨hwaiting, hwake, hsubs⟩ := cqPost_wakes



      refine ⟨fun id hwait => ?_, fun sub₁ hsub₁ => ?_, fun p hp => ?_⟩
      · obtain ⟨hd, howner⟩ := hwaiting id hwait
        obtain ⟨hs, hsame⟩ := h.rings id hd
        exact ⟨hs, howner.trans hsame⟩
      · dsimp only at hsub₁
        rw [hsubs] at hsub₁
        rcases List.mem_or_eq_of_mem_set hsub₁ with hold | hnew
        · exact h.subs sub₁ hold
        · simp only [Option.some.injEq] at hnew
          rw [hnew]
          exact h.subs sub hmem
      · rcases List.mem_append.mp hp with hold | hnew
        · exact h.wakes p hold
        · obtain ⟨hd, howner⟩ := hwake p (Option.mem_toList.mp hnew)
          obtain ⟨hs, hsame⟩ := h.rings sub.ring hd
          obtain ⟨sub', hsub', hsource', hring'⟩ := h.subs sub hmem
          refine ⟨sub', hsub', hsource'.trans hsource, ?_⟩
          rw [hring']
          exact ⟨hs, hsame.symm.trans howner⟩

theorem deliver_wakes {d : RingTable.Delivery} {source : Nat} {e : UInt32}
    (indices : List Nat) (h : Delivers s source d) :
    ∀ p ∈ (indices.foldl (RingTable.deliverOne source e) d).2.2,
      ∃ sub, some sub ∈ s.rings.subs ∧ sub.source = source ∧ s.waitsOnRing p sub.ring := by
  induction indices generalizing d with
  | nil => exact h.wakes
  | cons i indices ih => exact ih (deliverOne_wakes i h)

theorem Kernel.deliverEvent_refines (h : s.Good) (source : Nat) (event : UInt32)
    (hg : s.Permits g (.deliverEvent source event)) :
      s.Refines g (s.deliverEvent source event) := by
  obtain ⟨awake, hperm, hpath⟩ := deliver_path (g := g) (v := s.ledger)
    (d := (s.rings, s.ram, [])) rfl (List.Perm.refl []) source event (List.range maxSubs)
  have hwakes := deliver_wakes (d := (s.rings, s.ram, [])) (e := event)
    (List.range maxSubs) (Delivers.refl s source)
  unfold Kernel.deliverEvent RingTable.deliver
  generalize (List.range maxSubs).foldl (RingTable.deliverOne source event)
    (s.rings, s.ram, []) = d at hpath hperm hwakes ⊢
  exact h.refines_wakes (t := { s with rings := d.1, ram := d.2.1 }) hpath
    (fun p hp => hg.wake p _ (hwakes p hp) rfl) hperm rfl rfl rfl

/-! ### Completions -/

/-- Draining the used ring only frees request slots. -/
theorem drainOne_routing (inf : Inflights) (elem : Nat × UInt8) (slot : Nat) :
    (Devices.drainOne inf elem).2.routing slot = none ∨
      (Devices.drainOne inf elem).2.routing slot = inf.routing slot := by
  unfold Devices.drainOne Inflights.complete
  dsimp only
  split
  · rename_i target inf' hcomplete
    split at hcomplete
    · cases hcomplete
    · rename_i done _
      split at hcomplete
      · cases hcomplete
      · simp only [Option.some.injEq, Prod.mk.injEq] at hcomplete
        rw [← hcomplete.2]
        by_cases hslot : slot = done
        · subst hslot
          exact Or.inl (Function.update_self ..)
        · exact Or.inr (Function.update_of_ne hslot ..)
  · exact Or.inr rfl

theorem drainCompletions_routing (used : List (Nat × UInt8)) (inf : Inflights)
    (out : List (Completion × Nat)) (slot : Nat) :
    (Devices.drainCompletions used inf out).2.routing slot = none ∨
      (Devices.drainCompletions used inf out).2.routing slot = inf.routing slot := by
  induction used generalizing inf out with
  | nil => exact Or.inr rfl
  | cons elem used ih =>
    unfold Devices.drainCompletions
    dsimp only
    rcases ih (Devices.drainOne inf elem).2 _ with hnone | hsame
    · exact Or.inl hnone
    · rw [hsame]
      exact drainOne_routing inf elem slot

theorem routeCompletion_path {d : RingTable.Delivery} (hv : v.rings = d.1.rings)
    (hawake : v.awake.Perm d.2.2) (c : Completion × Nat) :
    ∃ awake, awake.Perm (Kernel.routeCompletion d c).2.2 ∧
      Path g v { v with rings := (Kernel.routeCompletion d c).1.rings, awake := awake } := by
  unfold Kernel.routeCompletion
  split
  · refine ⟨v.awake, hawake, ?_⟩
    rw [← hv]
  · rename_i ring userData _
    have hpost := cqPost_path (g := g) hv d.2.1 ring userData c.2 false
    exact ⟨_, (hawake.append_left _).trans List.perm_append_comm, hpost⟩

theorem routeCompletions_path {d : RingTable.Delivery} (hv : v.rings = d.1.rings)
    (hawake : v.awake.Perm d.2.2) (out : List (Completion × Nat)) :
    ∃ awake, awake.Perm (out.foldl Kernel.routeCompletion d).2.2 ∧
      Path g v { v with
        rings := (out.foldl Kernel.routeCompletion d).1.rings, awake := awake } := by
  induction out generalizing v d with
  | nil =>
    refine ⟨v.awake, hawake, ?_⟩
    rw [List.foldl_nil, ← hv]
  | cons c out ih =>
    obtain ⟨awake, hperm, hone⟩ := routeCompletion_path (g := g) hv hawake c
    obtain ⟨awake', hperm', hrest⟩ := ih (v := { v with
      rings := (Kernel.routeCompletion d c).1.rings, awake := awake })
      (d := Kernel.routeCompletion d c) rfl hperm
    exact ⟨awake', hperm', hone.trans hrest⟩

/-- The processes to wake after the completions waited on the rings that these go to. -/
theorem routeCompletions_wakes (out : List (Completion × Nat)) {d : RingTable.Delivery}
    {p : ProcSlot} (hp : p ∈ (out.foldl Kernel.routeCompletion d).2.2) :
    p ∈ d.2.2 ∨ ∃ c ∈ out, ∃ id userData, c.1 = .ring id userData ∧
      (d.1.rings id).waiting = true ∧ (d.1.rings id).owner = p := by
  induction out generalizing d with
  | nil => exact Or.inl hp
  | cons c out ih =>
    have hone : (p ∈ (Kernel.routeCompletion d c).2.2 → p ∈ d.2.2 ∨ ∃ id userData,
        c.1 = .ring id userData ∧ (d.1.rings id).waiting = true ∧ (d.1.rings id).owner = p) ∧
        ∀ id, ((Kernel.routeCompletion d c).1.rings id).waiting = true →
          (d.1.rings id).waiting = true ∧
            ((Kernel.routeCompletion d c).1.rings id).owner = (d.1.rings id).owner := by
      unfold Kernel.routeCompletion
      split
      · exact ⟨Or.inl, fun _ h => ⟨h, rfl⟩⟩
      · rename_i ring userData htarget
        obtain ⟨hwaiting, hwake, -⟩ := cqPost_wakes

        refine ⟨fun hmem => ?_, hwaiting⟩
        rcases List.mem_append.mp hmem with hold | hnew
        · exact Or.inl hold
        · exact Or.inr ⟨ring, userData, htarget, hwake p (Option.mem_toList.mp hnew)⟩
    rcases ih (d := Kernel.routeCompletion d c) hp with hmem | ⟨c', hc', id, userData, htarget,
      hwait, howner⟩
    · rcases hone.1 hmem with hold | ⟨id, userData, htarget, hwaits⟩
      · exact Or.inl hold
      · exact Or.inr ⟨c, List.mem_cons_self, id, userData, htarget, hwaits⟩
    · obtain ⟨hd, hsame⟩ := hone.2 id hwait
      exact Or.inr ⟨c', List.mem_cons_of_mem _ hc', id, userData, htarget, hd,
        hsame.symm.trans howner⟩

/-- One element of the used ring completes a request in flight, or nothing. -/
theorem drainOne_target (inf : Inflights) (elem : Nat × UInt8) (c : Completion × Nat)
    (out : List (Completion × Nat))
    (h : c ∈ (match (Devices.drainOne inf elem).1 with
      | some c' => if out.length < maxSlots then out ++ [c'] else out
      | none => out)) : c ∈ out ∨ ∃ slot, inf.routing slot = some c.1 := by
  unfold Devices.drainOne Inflights.complete at h
  dsimp only at h
  cases hslot : inf.slotOf elem.1 with
  | none =>
    rw [hslot] at h
    exact Or.inl h
  | some slot =>
    rw [hslot] at h
    dsimp only at h
    cases hroute : inf.routing slot with
    | none =>
      rw [hroute] at h
      exact Or.inl h
    | some target =>
      rw [hroute] at h
      dsimp only at h
      split at h
      · rcases List.mem_append.mp h with hold | hnew
        · exact Or.inl hold
        · rw [List.mem_singleton] at hnew
          rw [hnew]
          exact Or.inr ⟨slot, hroute⟩
      · exact Or.inl h

/-- What a drain completes was in flight. -/
theorem drainCompletions_target (used : List (Nat × UInt8)) (inf : Inflights)
    (out : List (Completion × Nat)) :
    ∀ c ∈ (Devices.drainCompletions used inf out).1, c ∈ out ∨
      ∃ slot, inf.routing slot = some c.1 := by
  induction used generalizing inf out with
  | nil => exact fun c hc => Or.inl hc
  | cons elem used ih =>
    intro c hc
    unfold Devices.drainCompletions at hc
    dsimp only at hc
    rcases ih (Devices.drainOne inf elem).2 _ c hc with hout | ⟨slot, hslot⟩
    · rcases drainOne_target inf elem c out hout with hold | hnew
      · exact Or.inl hold
      · exact Or.inr hnew
    · rcases drainOne_routing inf elem slot with hnone | hsame
      · rw [hnone] at hslot
        cases hslot
      · exact Or.inr ⟨slot, hsame.symm.trans hslot⟩

theorem Kernel.completeIrq_refines (h : s.Good) (dev : DevId) (used : List (Nat × UInt8))
    (hg : s.Permits g (.completeIrq dev used)) : s.Refines g (s.completeIrq dev used) := by
  unfold Kernel.completeIrq
  split
  · exact h.refines_self
  · rename_i d hd
    split
    · rename_i b hb
      have hact := Act.unwait (g := g) (v := s.ledger) hd hb
      exact h.refines_wakes (t := { s with
        devs := s.devs.setDevice dev (some { d with bound := some { b with waiter := none } }) })
        (Relation.ReflTransGen.single hact)
        (fun p hp => hg.wake p _ ⟨d, hd, Or.inl (by
          unfold waiterOf
          rw [Option.bind_some, hb, Option.bind_some]
          exact Option.mem_toList.mp hp)⟩ rfl) (by exact .of_eq (List.append_nil _)) rfl rfl rfl
    · have hact := Act.complete (g := g) (v := s.ledger) hd
        (drainCompletions_routing used d.inflights [])
        fun hwf => drainCompletions_wf hwf used []
      obtain ⟨awake, hperm, hpath⟩ := routeCompletions_path (g := g)
        (v := { s.ledger with devs := s.devs.setDevice dev (some { d with
          inflights := (Devices.drainCompletions used d.inflights []).2 }) })
        (d := (s.rings, s.ram, [])) rfl (List.Perm.refl [])
        (Devices.drainCompletions used d.inflights []).1
      exact h.refines_wakes (t := { s with
        devs := s.devs.setDevice dev (some { d with
          inflights := (Devices.drainCompletions used d.inflights []).2 })
        rings := ((Devices.drainCompletions used d.inflights []).1.foldl Kernel.routeCompletion
          (s.rings, s.ram, [])).1
        ram := ((Devices.drainCompletions used d.inflights []).1.foldl Kernel.routeCompletion
          (s.rings, s.ram, [])).2.1 }) (hpath.head hact) (fun p hp => hg.wake p _ ⟨d, hd, Or.inr (by
            obtain ⟨c, hc, id, userData, htarget, hwaits⟩ :=
              (routeCompletions_wakes _ (d := (s.rings, s.ram, [])) hp).resolve_left
                List.not_mem_nil
            rcases drainCompletions_target used d.inflights [] c hc with hnil | ⟨slot, hslot⟩
            · cases hnil
            · exact ⟨id, userData, slot, hslot.trans (by rw [htarget]), hwaits⟩)⟩ rfl)
        hperm rfl rfl rfl

/-! ### Requests -/

theorem Devices.setDomain_self {ds : Devices} {bi : BlockIommu} (h : ds.iommu = some bi) :
    ds.setDomain bi bi.domain = ds := by
  unfold Devices.setDomain
  rw [← h]

/-- To link tables into the shared DMA domain. -/
theorem Links.dma_path {fa fa' : FrameAlloc} {t t' : List (TableKey × Nat)}
    (h : Links fa t fa' t') {b : BlockIommu} (hbi : v.devs.iommu = some b)
    (hfa : v.mem.fa = fa) (ht : b.domain.tables = t) :
    Path g v { v with
      mem := ⟨fa', v.mem.spaces⟩
      devs := v.devs.setDomain b { b.domain with tables := t' } } := by
  induction h generalizing v b with
  | refl =>
    subst hfa ht
    rw [Devices.setDomain_self hbi]
  | @step fa fa₁ fa' t t' key a halloc rest ih =>
    subst hfa ht
    have hrest := ih
      (v := { v with
        mem := ⟨fa₁, v.mem.spaces⟩
        devs := v.devs.setDomain b
          { b.domain with tables := b.domain.tables ++ [(key, a)] } })
      (b := { b with domain :=
        { b.domain with tables := b.domain.tables ++ [(key, a)] } }) rfl rfl rfl
    exact hrest.head (Act.dmaLink hbi halloc)

/-- `block_map_dma`. -/
theorem blockMapDma_path (addr : Nat) :
    Path g v { v with
      mem := ⟨(v.devs.blockMapDma v.mem.fa addr).2, v.mem.spaces⟩
      devs := (v.devs.blockMapDma v.mem.fa addr).1 } ∧
      (v.devs.blockMapDma v.mem.fa addr).1.devices = v.devs.devices := by
  unfold Devices.blockMapDma
  split
  · exact ⟨Relation.ReflTransGen.refl, rfl⟩
  · rename_i bi hbi
    split
    · refine ⟨?_, rfl⟩
      unfold Domain.mapPage
      dsimp only
      generalize addr / frameSize * frameSize = page
      have hlinks := linkTables_links (bi.domain.keys page) v.mem.fa bi.domain.tables
      have hpath := hlinks.dma_path (g := g) hbi rfl rfl
      split
      · exact hpath.tail (@Act.dmaLeaf g _ { bi with domain := { bi.domain with
          tables := (linkTables (bi.domain.keys page) v.mem.fa bi.domain.tables).2.2 } } _ rfl)
      · exact hpath
    · exact ⟨Relation.ReflTransGen.refl, rfl⟩

/-- `s'` implements a ledger that `v` reaches. Nothing is in motion, the processes are the
same, and `p` still serves the ring `id`. -/
def Submits (g : Guard) (p : ProcSlot) (id : RingId) (v : Ledger) (s' : Kernel) : Prop :=
  ∃ v', Path g v v' ∧ Rep s' none v' ∧ v'.Idle ∧ v'.proc = v.proc ∧ Serves v'.rings p id

section

variable {p : ProcSlot} {id : RingId}

theorem Submits.refl (hrep : Rep s none v) (hidle : v.Idle) (hserves : Serves v.rings p id) :
    Submits g p id v s :=
  ⟨v, Relation.ReflTransGen.refl, hrep, hidle, rfl, hserves⟩

theorem postStatus_submits (hrep : Rep s none v) (hidle : v.Idle)
    (hserves : Serves v.rings p id) (userData status : Nat) :
    Submits g p id v (s.postStatus id userData status) := by
  obtain ⟨hpath, hstill⟩ := postStatus_path (g := g) hrep.rings hserves s.ram userData status
  exact ⟨_, hpath, ⟨hrep.procs, hrep.ipc, hrep.mem, rfl, hrep.devs⟩,
    ⟨hidle.transit, hidle.held, hidle.dying, hidle.awake, hidle.frames, hidle.spaces,
      hidle.doomed⟩, rfl, hstill⟩

/-- `subscribe` and `cancel` do not touch the rings. -/
theorem subscribe_submits (hrep : Rep s none v) (hidle : v.Idle)
    (hserves : Serves v.rings p id) {rings : RingTable} (h : rings.rings = s.rings.rings) :
    Submits g p id v { s with rings := rings } :=
  ⟨v, Relation.ReflTransGen.refl,
    ⟨hrep.procs, hrep.ipc, hrep.mem, hrep.rings.trans h.symm, hrep.devs⟩, hidle, rfl, hserves⟩

end

theorem subscribe_rings {rt rt' : RingTable} {source userData : Nat} {id : RingId}
    (h : rt.subscribe source id userData = some rt') : rt'.rings = rt.rings := by
  unfold RingTable.subscribe at h
  split at h
  · cases h
  · split at h
    · simp only [Option.some.injEq] at h
      rw [← h]
    · cases h

theorem cancel_rings (rt : RingTable) (id : RingId) (userData : Nat) :
    (rt.cancel id userData).rings = rt.rings := by
  unfold RingTable.cancel
  split <;> rfl

/-- The frame of a request that passes the checks is named by a capability of the process. -/
theorem resolveRequest_frame {caps : CapTable} {e : SqEntry} {rangeRight frameRight : Rights}
    {dev : DevId} {sector addr : Nat}
    (h : resolveRequest caps e rangeRight frameRight = .ok (dev, sector, addr)) :
    ∃ (k : CapSlot) (cap : Capability), caps.slots k = some cap ∧ cap.object = .frame addr := by
  unfold resolveRequest at h
  split at h
  · cases h
  · split at h
    · split at h
      · cases h
      · split at h
        · cases h
        · split at h
          · cases h
          · rename_i frame hlookup
            split at h
            · rename_i a hobj
              simp only [Except.ok.injEq, Prod.mk.injEq] at h
              obtain ⟨k, -, hk, -⟩ := CapTable.lookup_ok hlookup
              exact ⟨k, frame, hk, by rw [hobj, h.2.2]⟩
            · cases h
    · cases h

theorem postBlock_submits (hrep : Rep s none v) (hidle : v.Idle) {p : ProcSlot} {id : RingId}
    (hserves : Serves v.rings p id) (hp : v.proc p = some proc) (hg : g.post p id) (e : SqEntry)
    (rangeRight frameRight : Rights) (dir : Direction) :
    Submits g p id v (s.postBlock proc.caps id e rangeRight frameRight dir).2 := by
  unfold Kernel.postBlock
  split
  · exact postStatus_submits hrep hidle hserves ..
  · split
    · exact postStatus_submits hrep hidle hserves ..
    · rename_i dev sector addr hresolve
      obtain ⟨k, cap, hk, hobj⟩ := resolveRequest_frame hresolve
      split
      · split
        · rename_i devs fa hpost
          unfold Devices.ringPost at hpost
          split at hpost
          · cases hpost
          · rename_i d hd
            split at hpost
            · cases hpost
            · rename_i head inf hsubmit
              have hd' : v.devs.devices dev = some d := by rw [hrep.devs, hd]
              have hdone : ∀ (ds : Devices) (fa' : FrameAlloc), ds.devices = s.devs.devices →
                  Path g v { v with mem := ⟨fa', v.mem.spaces⟩, devs := ds } →
                  Submits g p id v ({ s with devs := ds.setDevice dev (some { d with
                    inflights := inf
                    chains := Function.update d.chains (head / descPerReq)
                      ⟨sector, e.count * 512, addr, dir⟩ }) }.setFa fa') := by
                intro ds fa' hds hpath
                refine ⟨_, hpath.tail (@Act.post g _ _ _ dev d id _ _ _
                  ⟨sector, e.count * 512, addr, dir⟩ hp
                  ((congrFun hds dev).trans hd) hserves.inUse hserves.owner hsubmit
                  ⟨k, cap, hk, hobj⟩ hg), ?_, ?_, rfl, hserves⟩
                · refine ⟨hrep.procs, hrep.ipc, ?_, hrep.rings, rfl⟩
                  dsimp only
                  rw [hrep.mem]
                  rfl
                · exact ⟨hidle.transit, hidle.held, hidle.dying, hidle.awake, hidle.frames,
                    hidle.spaces, hidle.doomed⟩
              dsimp only at hpost
              simp only [Option.some.injEq, Prod.mk.injEq] at hpost
              obtain ⟨rfl, rfl⟩ := hpost
              split
              · refine hdone s.devs s.mem.fa rfl ?_
                rw [← hrep.devs, ← hrep.mem]
              · obtain ⟨hpath, hds⟩ := blockMapDma_path (g := g) (v := v) addr
                rw [hrep.devs, hrep.mem] at hds
                refine hdone _ _ hds ?_
                rw [hrep.devs, hrep.mem] at hpath
                rw [hrep.mem]
                exact hpath
        · exact Submits.refl hrep hidle hserves
      · exact postStatus_submits hrep hidle hserves ..

theorem postEntry_submits (hrep : Rep s none v) (hidle : v.Idle) {p : ProcSlot} {id : RingId}
    (hserves : Serves v.rings p id) (hp : v.proc p = some proc) (hg : g.post p id)
    (e : SqEntry) : Submits g p id v (s.postEntry proc.caps id e).2 := by
  unfold Kernel.postEntry
  split
  · exact postBlock_submits hrep hidle hserves hp hg ..
  · split
    · exact postBlock_submits hrep hidle hserves hp hg ..
    · split
      · unfold Kernel.postEventSub
        split
        · exact postStatus_submits hrep hidle hserves ..
        · split
          · rename_i hsub
            exact subscribe_submits hrep hidle hserves (subscribe_rings hsub)
          · exact postStatus_submits hrep hidle hserves ..
      · split
        · exact subscribe_submits hrep hidle hserves (cancel_rings ..)
        · exact postStatus_submits hrep hidle hserves ..

theorem submitLoop_submits (hrep : Rep s none v) (hidle : v.Idle) {p : ProcSlot} {id : RingId}
    (hserves : Serves v.rings p id) (hp : v.proc p = some proc) (hg : g.post p id)
    (sqBase : Nat) (mask : UInt32) (n : Nat) (head : UInt32) (consumed : Nat) :
    Submits g p id v (Kernel.submitLoop proc.caps id sqBase mask n head consumed s).2.2 := by
  induction n generalizing s v head consumed with
  | zero => exact Submits.refl hrep hidle hserves
  | succ n ih =>
    unfold Kernel.submitLoop
    have hone := postEntry_submits (g := g) hrep hidle hserves hp hg
      (readSqEntry s.ram sqBase (head &&& mask).toNat)
    split
    · rename_i s' hpost
      rw [hpost] at hone
      obtain ⟨v₁, hpath₁, hrep₁, hidle₁, hproc₁, hserves₁⟩ := hone
      obtain ⟨v₂, hpath₂, hrep₂, hidle₂, hproc₂, hserves₂⟩ :=
        ih hrep₁ hidle₁ hserves₁ (by rw [hproc₁, hp]) (head + 1) (consumed + 1)
      exact ⟨v₂, hpath₁.trans hpath₂, hrep₂, hidle₂, hproc₂.trans hproc₁, hserves₂⟩
    · rename_i s' hpost
      rw [hpost] at hone
      exact hone

/-! ### The ring calls -/

namespace Kernel

theorem ringIdFor_some {slot : Nat} {id : RingId} (h : s.ringIdFor core slot = some id) :
    (s.rings.rings id).inUse = true ∧ (s.rings.rings id).owner = s.procs.currentSlot core ∧
      ∃ proc, s.procs.current core = some proc ∧
        ∃ k cap, proc.caps.slots k = some cap ∧ cap.object = .ring id := by
  unfold ringIdFor at h
  split at h
  · cases h
  · rename_i proc hc
    split at h
    · rename_i id' rights origin hlookup
      obtain ⟨k, -, hk, -⟩ := CapTable.lookup_ok hlookup
      split at h
      · rename_i huse
        simp only [Option.some.injEq] at h
        subst h
        rw [Bool.and_eq_true, beq_iff_eq] at huse
        exact ⟨huse.1, huse.2, proc, hc, k, _, hk, rfl⟩
      · cases h
    · cases h

/-- The process that runs does not wait for the ring that it names. -/
theorem Good.serves (h : s.Good) {slot : Nat} {id : RingId}
    (hid : s.ringIdFor core slot = some id) :
    Serves s.ledger.rings (s.procs.currentSlot core) id := by
  obtain ⟨huse, howner, proc, hc, -⟩ := ringIdFor_some hid
  refine ⟨huse, howner, ?_⟩
  by_contra hwait
  rw [Bool.not_eq_false] at hwait
  have hzero := h.base.registered.regs_zero (p := s.procs.currentSlot core)
    (by rw [h.state_of_current hc]; exact fun heq => by cases heq)
  have hle := Finset.single_le_sum (f := fun id => Plinth.ringWait (s.procs.currentSlot core)
    (s.ledger.rings id)) (fun _ _ => Nat.zero_le _) (Finset.mem_univ id)
  have hone : Plinth.ringWait (s.procs.currentSlot core) (s.ledger.rings id) = 1 :=
    if_pos ⟨hwait, howner⟩
  unfold Ledger.regs ringWaits at hzero
  omega

theorem ringSubmit_refines (h : s.Good) {ringSlot : Nat}
    (hg : s.Permits g (.ringSubmit core ringSlot)) :
    s.Refines g (s.ringSubmit core ringSlot).2 := by
  unfold ringSubmit
  split
  · rename_i proc id hc hid
    have hposts : g.post (s.procs.currentSlot core) id := hg.post _ _ (by
      unfold poster
      dsimp only
      rw [hid]
      rfl)
    obtain ⟨v, hpath, hrep, hidle, -, -⟩ := submitLoop_submits (g := g) h.rep s.ledger_idle
      (h.serves hid) (h.proc_of_current hc) hposts (s.rings.rings id).sqPhys
      (s.rings.rings id).mask
      (s.ram.r32 ((s.rings.rings id).sqPhys + hdrTail) - (s.rings.rings id).sqHead).toNat
      (s.rings.rings id).sqHead 0
    have htick := Act.ringTick (g := g) (v := v) (r := { v.rings id with
      sqHead := (submitLoop proc.caps id (s.rings.rings id).sqPhys (s.rings.rings id).mask
        (s.ram.r32 ((s.rings.rings id).sqPhys + hdrTail) - (s.rings.rings id).sqHead).toNat
        (s.rings.rings id).sqHead 0 s).2.1 }) rfl rfl rfl rfl rfl rfl rfl
    refine ⟨_, hpath.tail htick, ⟨hrep.procs, hrep.ipc, hrep.mem, ?_, hrep.devs⟩,
      ⟨hidle.transit, hidle.held, hidle.dying, hidle.awake, hidle.frames, hidle.spaces,
        hidle.doomed⟩⟩
    dsimp only
    rw [hrep.rings]
    rfl
  · exact h.refines_self

theorem ringWait_refines (h : s.Good) {ringSlot : Nat}
    (hg : s.Permits g (.ringWait core ringSlot)) :
    s.Refines g (s.ringWait core ringSlot).2 := by
  unfold ringWait
  split
  · exact h.refines_self
  · rename_i id hid
    obtain ⟨huse, howner, proc, hc, k, cap, hk, hobj⟩ := ringIdFor_some hid
    dsimp only
    split
    · exact h.refines_self
    · have hact := Act.parkRing (g := g) (v := s.ledger)
        (r := { s.rings.rings id with waiting := true }) (h.proc_of_current hc) hk hobj huse
        (h.state_of_current hc) rfl howner
        howner rfl rfl rfl rfl rfl (hg.park _ _ (by
          unfold parking
          dsimp only
          rw [hid]
          rfl))
      exact ⟨_, Relation.ReflTransGen.single hact,
        ⟨h.rep.procs.block hc, h.rep.ipc, rfl, rfl, rfl⟩, ⟨rfl, rfl, rfl, rfl, rfl, rfl, rfl⟩⟩

theorem bindWait_refines (h : s.Good) {bindSlot usedSeen : Nat} {usedIdx : UInt16}
    (hg : s.Permits g (.bindWait core bindSlot usedSeen usedIdx)) :
    s.Refines g (s.bindWait core bindSlot usedSeen usedIdx).2 := by
  unfold bindWait
  split
  · exact h.refines_self
  · rename_i proc hc
    split
    · rename_i dev _ _ hlookup
      obtain ⟨k, -, hk, -⟩ := CapTable.lookup_ok hlookup
      split
      · exact h.refines_self
      · rename_i d hd
        split
        · exact h.refines_self
        · rename_i b hb
          split
          · exact h.refines_self
          · have hact := Act.parkBind (g := g) (v := s.ledger) (h.proc_of_current hc) hk rfl
              (h.state_of_current hc) hd hb (hg.park _ _ (by
                unfold parking
                dsimp only
                rw [hc, Option.bind_some, hlookup]))
            exact ⟨_, Relation.ReflTransGen.single hact,
              ⟨h.rep.procs.block hc, h.rep.ipc, rfl, rfl, rfl⟩,
              ⟨rfl, rfl, rfl, rfl, rfl, rfl, rfl⟩⟩
    · exact h.refines_self

theorem firstFree_inUse {rt : RingTable} {id : RingId} (h : rt.firstFree = some id) :
    (rt.rings id).inUse = false := by
  unfold RingTable.firstFree at h
  simpa using List.find?_some h

theorem ringRegister_refines (h : s.Good) {sqSlot cqSlot entries : Nat}
    (hg : s.Permits g (.ringRegister core sqSlot cqSlot entries)) :
    s.Refines g (s.ringRegister core sqSlot cqSlot entries).2 := by
  unfold ringRegister
  split
  · exact h.refines_self
  · rename_i hentries
    split
    · exact h.refines_self
    · rename_i proc hc
      split
      · rename_i sqPhys _ _ cqPhys _ _ hsq hcq
        split
        · exact h.refines_self
        · rename_i hne
          split
          · exact h.refines_self
          · rename_i id hfree
            obtain ⟨ksq, -, hksq, -⟩ := CapTable.lookup_ok hsq
            obtain ⟨kcq, -, hkcq, -⟩ := CapTable.lookup_ok hcq
            have hproc := h.proc_of_current hc
            dsimp only
            split
            · rename_i slot t hmint
              obtain ⟨hin, -⟩ := CapTable.install_ok hmint
              have hmask : (UInt32.ofNat (entries - 1)).toNat < maxEntries := by
                simp only [not_or, not_lt] at hentries
                unfold maxEntries at hentries ⊢
                rw [UInt32.toNat_ofNat']
                omega
              have hregisters : s.registers (.ringRegister core sqSlot cqSlot entries)
                  = some (s.procs.currentSlot core, id) := by
                have hroom := CapTable.room_of_install hmint
                simp only [not_or, not_not, not_lt] at hentries
                simp [registers, hc, hfree, CapTable.canRegister, hsq, hcq, hne, hentries, hroom]
              have hw := h.rep.procs.placed.writes_current hc (proc.setCaps t)
              have hwrite := h.rep.write hproc hw
                (procWeight_places_other hin fun id heq => by cases heq)
              have hact := @Act.mintRing g s.ledger _ _ _ ⟨true, s.procs.currentSlot core, sqPhys,
                cqPhys, UInt32.ofNat (entries - 1), 0, 0, false⟩ _ _ _ hproc (firstFree_inUse hfree)
                rfl rfl rfl rfl ⟨ksq, _, hksq, rfl⟩ ⟨kcq, _, hkcq, rfl⟩ hmask hmint
                (hg.register _ _ hregisters)
              exact ⟨_, Relation.ReflTransGen.single hact,
                ⟨hwrite.procs, hwrite.ipc, rfl, rfl, rfl⟩, ⟨rfl, rfl, rfl, rfl, rfl, rfl, rfl⟩⟩
            · have hact := Act.ringStale (g := g) (v := s.ledger)
                (r := ⟨false, s.procs.currentSlot core, sqPhys, cqPhys,
                  UInt32.ofNat (entries - 1), 0, 0, false⟩) (firstFree_inUse hfree) rfl rfl
              refine ⟨_, Relation.ReflTransGen.single hact,
                ⟨h.rep.procs, h.rep.ipc, rfl, ?_, rfl⟩, ⟨rfl, rfl, rfl, rfl, rfl, rfl, rfl⟩⟩
              unfold RingTable.setRing
              dsimp only
              rw [Function.update_self, Function.update_idem]
              rfl
      · exact h.refines_self

end Kernel

end Plinth
