import Plinth.Refine.Transfer

/-!
# `Plinth.Refine.Messages`: send, receive, call and reply

Each operation either parks its caller in a queue (`Good.parks`), or it takes the other side out
of the queue (`Good.dequeues`), transfers, and wakes it (`Rep.wakes`). A call that meets a
waiting server parks its caller without a queue, and the reply capability names it.
-/

set_option autoImplicit false

namespace Plinth

variable {g : Guard} {v : Ledger} {s : Kernel} {core : Core} {p : ProcSlot} {proc : Process}
  {id : EndpointId}

/-! ### Leaving a queue -/

/-- The head waiter of a queue is taken out of it and is about to be woken. -/
theorem Kernel.Good.dequeues (h : s.Good) {b : Bool} {ipc : Ipc}
    (htake : s.ipc.takeWaiting id b = some (p, ipc)) :
    ∃ rest, s.ledger.queue id = p :: rest ∧ s.ledger.sendersWait id = b ∧
      Act g s.ledger { s.ledger with
        queue := Function.update s.ledger.queue id rest, awake := [p] } ∧
      Rep { s with ipc := ipc } none { s.ledger with
        queue := Function.update s.ledger.queue id rest, awake := [p] } ∧
      s.ledger.state p = .blocked ∧ ∃ x, (s.procs.table p).process = some x := by
  obtain ⟨hside, hdeq⟩ := Ipc.takeWaiting_some htake
  obtain ⟨rest, hqueue, hipc⟩ := h.rep.ipc.dequeue hdeq
  have hact := Act.dequeue (g := g) hqueue
  have hblocked : s.ledger.state p = .blocked := by
    refine h.base.registered.blocked ?_
    have hle := count_le_queued s.ledger.queue id p
    rw [hqueue, List.count_cons_self] at hle
    unfold Ledger.regs
    omega
  obtain ⟨-, x, htable, -⟩ := h.rep.procs.table_of_blocked hblocked
  exact ⟨rest, hqueue, hside, hact,
    ⟨h.rep.procs, hipc, rfl, rfl, rfl⟩, hblocked, x, htable⟩

/-- The last process in the list `awake` is made ready. -/
theorem Rep.wakes (h : Rep s none v) (hbase : v.Base) (hawake : v.awake = [p])
    {status payload landing : Nat} (hg : g.wake p ⟨status, payload, landing⟩) :
    Act g v (({ v with awake := [] } : Ledger).woken p ⟨status, payload, landing⟩) ∧
      Rep { s with procs := s.procs.wakeWith p status payload landing } none
        (({ v with awake := [] } : Ledger).woken p ⟨status, payload, landing⟩) := by
  have hblocked : v.state p = .blocked := by
    refine hbase.registered.blocked ?_
    unfold Ledger.regs
    rw [hawake, List.count_cons_self]
    omega
  exact ⟨Act.wake hawake hg, h.procs.wake hblocked status payload landing, h.ipc, h.mem,
    h.rings, h.devs⟩

/-! ### Joining a queue -/

theorem covers_has {rights right : Rights} (hne : right ≠ 0)
    (h : rights.covers right = true) : rights.has right = true := by
  unfold Rights.covers at h
  unfold Rights.has
  rw [beq_iff_eq] at h
  rw [h]
  simpa using hne

theorem ownRight_ne_zero (senders : Bool) : ownRight senders ≠ 0 := by
  cases senders <;> decide

namespace Kernel

theorem endpointIdFor_some {slot : Nat} {right : Rights} (hne : right ≠ 0)
    (h : s.endpointIdFor core slot right = some id) :
    (s.ipc.endpoints id).inUse = true ∧ ∃ proc k cap, s.procs.current core = some proc ∧
      proc.caps.slots k = some cap ∧ reaches id right cap = true := by
  unfold endpointIdFor at h
  split at h
  · cases h
  · rename_i proc hc
    split at h
    · cases h
    · rename_i cap hlookup
      split at h
      · rename_i id' hobj
        split at h
        · rename_i huse
          simp only [Option.some.injEq] at h
          subst h
          obtain ⟨k, -, hk, hcov⟩ := CapTable.lookup_ok hlookup
          refine ⟨huse, proc, k, cap, hc, hk, ?_⟩
          unfold reaches
          rw [hobj, covers_has hne hcov]
          simp
        · cases h
      · cases h

/-- The process that runs joins the queue of an endpoint where no other side waits, and where
the other side exists. -/
theorem Good.parks (h : s.Good) {slot : Nat} (senders : Bool) {mail : Mail}
    (hid : s.endpointIdFor core slot (ownRight senders) = some id)
    (htake : s.ipc.takeWaiting id (!senders) = none)
    (hpeer : 0 < liveTotal (reachWeight id (peerRight senders)) s.ledger.proc)
    (hmail : senders = false → mail = s.ledger.mail (s.procs.currentSlot core))
    (hg : g.park (s.procs.currentSlot core) (if senders then .sender id mail else .receiver id))
    {P : Procs}
    (hprocs : ProcsRep P none s.ledger.proc
      (Function.update s.ledger.state (s.procs.currentSlot core) .blocked) s.ledger.boot
      (Function.update s.ledger.mail (s.procs.currentSlot core) mail)) :
    s.Refines g { s with
      procs := P, ipc := s.ipc.enqueueWaiter id (s.procs.currentSlot core) senders } := by
  obtain ⟨huse, proc, k, cap, hc, hk, hreach⟩ := endpointIdFor_some (ownRight_ne_zero senders) hid
  have hrun := h.state_of_current hc
  have hside : s.ledger.queue id = [] ∨ s.ledger.sendersWait id = senders := by
    rcases Ipc.takeWaiting_none h.rep.ipc.queue_rep htake with hnil | hside
    · exact Or.inl hnil
    · exact Or.inr (by rw [Bool.not_not] at hside; exact hside)
  have hfree : s.ledger.Free (s.procs.currentSlot core) :=
    Or.inl (by rw [hrun]; exact fun heq => by cases heq)
  have hact := Act.parkQueue (g := g) (h.proc_of_current hc) hk hreach hrun huse hside
    (by simpa [Holdings.total, ledger] using hpeer) hmail rfl hg
  refine ⟨_, Relation.ReflTransGen.single hact, ⟨hprocs, ?_, rfl, rfl, rfl⟩,
    ⟨rfl, rfl, rfl, rfl, rfl, rfl, rfl⟩⟩
  exact h.rep.ipc.enqueue senders (h.base.registered.not_queued hfree) fun id' hne x hx =>
    h.base.registered.disjoint hne hx

/-! ### Send -/

theorem peers_pos (h : s.Good) {right : Rights} (hne : peers s.ledger.proc [] id right ≠ 0) :
    0 < liveTotal (reachWeight id right) s.ledger.proc := by
  unfold peers at hne
  rw [listTotal_nil, Nat.add_zero] at hne
  exact Nat.pos_of_ne_zero hne

theorem ipcSend_refines (h : s.Good) {epSlot msg capSlot : Nat}
    (hg : s.Permits g (.send core epSlot msg capSlot)) :
    s.Refines g (s.ipcSend core epSlot msg capSlot).2 := by
  unfold ipcSend
  split
  · exact h.refines_self
  · rename_i id hid
    obtain ⟨-, proc, k, cap, hc, -, -⟩ := endpointIdFor_some (by decide) hid
    split
    · rename_i receiver ipc htake
      obtain ⟨rest, -, -, hdeq, hrep, -, x, htable⟩ := h.dequeues (g := g) htake
      have hbase := hdeq.base h.base
      have htransfer : Transfers g { s.ledger with
          queue := Function.update s.ledger.queue id rest, awake := [receiver] }
          (if capSlot = noCap then (noCap, { s with ipc := ipc })
            else ({ s with ipc := ipc } : Kernel).transferCurrentToBlocked core receiver
              capSlot).2 := by
        split
        · exact Transfers.refl hrep rfl
        · rename_i hcap
          refine transferCurrentToBlocked_transfers hrep hbase ⟨rfl, rfl, rfl⟩ hc htable
            fun p k f hof => hg.give _ p k f ⟨rfl, rfl, rfl, rfl⟩ ?_
          unfold given
          dsimp only
          rw [hid]
          dsimp only
          rw [htake]
          dsimp only
          rw [if_neg hcap]
          exact hof
      obtain ⟨x, hpath, hrep', htransit, hheld, hdying⟩ := htransfer
      have hpath' : Path g s.ledger _ := hpath.head hdeq
      obtain ⟨hwake, hrep''⟩ := hrep'.wakes (g := g) (hpath'.base h.base) rfl
        (hg.wake _ _ ⟨id, ipc, hid, htake⟩ ⟨rfl, rfl⟩)
      exact ⟨_, hpath'.tail hwake, hrep'', ⟨htransit, hheld, hdying, rfl, rfl, rfl, rfl⟩⟩
    · rename_i htake
      split
      · exact h.refines_self
      · rename_i hreceivers
        dsimp only
        rw [h.rep.ipc.receivers] at hreceivers
        have hpend := h.rep.procs.setPending (p := s.procs.currentSlot core)
          (by rw [h.proc_of_current hc]; exact Option.some_ne_none proc) msg capSlot false
        refine h.parks true hid htake (peers_pos h hreceivers)
          (fun hno => by cases hno) (hg.park _ _ ?_) (hpend.block hc)
        unfold parking
        dsimp only
        rw [hid]
        rfl

/-! ### Receive -/

theorem ipcRecv_refines (h : s.Good) {epSlot : Nat} (hg : s.Permits g (.recv core epSlot)) :
    s.Refines g (s.ipcRecv core epSlot).2 := by
  unfold ipcRecv
  split
  · exact h.refines_self
  · rename_i id hid
    obtain ⟨-, proc, k, cap, hc, -, -⟩ := endpointIdFor_some (by decide) hid
    have hproc := h.proc_of_current hc
    split
    · rename_i sender ipc htake
      obtain ⟨rest, hqueue, hside, hdeq, hrep, hblocked, x, htable⟩ := h.dequeues (g := g) htake
      have hbase := hdeq.base h.base
      dsimp only
      split
      · rename_i hcall
        unfold mintReplyIntoCurrent
        split
        · rename_i landing P hmint
          obtain ⟨y, t, hy, hin, rfl⟩ := Procs.onCurrent_eq_some.mp hmint
          obtain rfl : proc = y := by simpa using hc.symm.trans hy
          have hserve : g.serve sender := by
            refine hg.serve _ ?_
            unfold served
            dsimp only
            rw [hid]
            dsimp only
            rw [htake]
            dsimp only
            rw [if_pos hcall]
          have hact := Act.receiveCall (g := g) hqueue hside hcall hproc rfl hin hserve
          have hw := h.rep.procs.placed.writes_current hc (proc.setCaps t)
          have hwrite := hrep.write hproc hw
            (procWeight_places_other (CapTable.reclaim_some hin).1 fun id heq => by cases heq)
          exact ⟨_, Relation.ReflTransGen.single hact,
            ⟨hwrite.procs, hwrite.ipc, rfl, rfl, rfl⟩, ⟨rfl, rfl, rfl, rfl, rfl, rfl, rfl⟩⟩
        · rename_i hmint
          have hfull : s.hasRoom (s.procs.currentSlot core) = false := by
            rw [Procs.onCurrent_eq_none hc] at hmint
            unfold hasRoom
            rw [← h.rep.procs.proc_eq, hproc, Option.bind_some, CapTable.reclaim_none hmint]
            rfl
          have hforget : g.forget sender := by
            refine hg.forget _ ?_
            unfold forgotten
            dsimp only
            rw [hid]
            dsimp only
            rw [htake]
            dsimp only
            rw [if_pos ⟨hcall, by rw [hfull]; exact Bool.false_ne_true⟩]
          exact ⟨_, (Relation.ReflTransGen.single hdeq).tail (Act.forget rfl hforget),
            ⟨hrep.procs, hrep.ipc, rfl, rfl, rfl⟩, ⟨rfl, rfl, rfl, rfl, rfl, rfl, rfl⟩⟩
      · rename_i hcall
        have htransfer : Transfers g { s.ledger with
            queue := Function.update s.ledger.queue id rest, awake := [sender] }
            (if (s.procs.table sender).pendingCap = noCap then (noCap, { s with ipc := ipc })
              else ({ s with ipc := ipc } : Kernel).transferBlockedToCurrent core sender
                (s.procs.table sender).pendingCap).2 := by
          split
          · exact Transfers.refl hrep rfl
          · rename_i hcap
            refine transferBlockedToCurrent_transfers hrep hbase ⟨rfl, rfl, rfl⟩ hc htable
              (Or.inr List.mem_cons_self)
              fun p k f hof => hg.give _ p k f ⟨rfl, rfl, rfl, rfl⟩ ?_
            unfold given
            dsimp only
            rw [hid]
            dsimp only
            rw [htake]
            dsimp only
            rw [if_neg (by rintro (hyes | hno); exacts [hcall hyes, hcap hno])]
            exact hof
        obtain ⟨x, hpath, hrep', htransit, hheld, hdying⟩ := htransfer
        have hpath' : Path g s.ledger _ := hpath.head hdeq
        obtain ⟨hwake, hrep''⟩ := hrep'.wakes (g := g) (hpath'.base h.base) rfl
          (hg.wake _ _ ⟨id, ipc, hid, htake⟩ rfl)
        exact ⟨_, hpath'.tail hwake, hrep'', ⟨htransit, hheld, hdying, rfl, rfl, rfl, rfl⟩⟩
    · rename_i htake
      dsimp only
      split
      · exact ⟨_, Relation.ReflTransGen.refl,
          ⟨h.rep.procs.takeReclaimLanding (by rw [hproc]; exact Option.some_ne_none proc),
            h.rep.ipc, rfl, rfl, rfl⟩, s.ledger_idle⟩
      · rename_i hsenders
        rw [h.rep.ipc.senders] at hsenders
        refine h.parks false hid htake (peers_pos h hsenders) (fun _ => rfl)
          (hg.park _ _ ?_) ?_
        · unfold parking
          dsimp only
          rw [hid]
          rfl
        · rw [Function.update_eq_self]
          exact h.rep.procs.block hc

/-! ### Call -/

theorem ipcCall_refines (h : s.Good) {epSlot req : Nat}
    (hg : s.Permits g (.call core epSlot req)) :
    s.Refines g (s.ipcCall core epSlot req).2 := by
  unfold ipcCall
  split
  · exact h.refines_self
  · rename_i id hid
    obtain ⟨-, proc, k, cap, hc, -, -⟩ := endpointIdFor_some (by decide) hid
    have hrun := h.state_of_current hc
    have hpark : g.park (s.procs.currentSlot core) (s.callPlace core id req) := by
      refine hg.park _ _ ?_
      unfold parking
      dsimp only
      rw [hid]
      rfl
    unfold callPlace at hpark
    dsimp only
    split
    · rename_i server ipc htake
      obtain ⟨rest, -, -, hdeq, hrep, hblocked, x, htable⟩ := h.dequeues (g := g) htake
      have hbase := hdeq.base h.base
      have hne : s.procs.currentSlot core ≠ server := by
        rintro rfl
        rw [hrun] at hblocked
        cases hblocked
      rw [htake] at hpark
      dsimp only at hpark
      have hroom : s.hasRoom server = x.caps.firstFree.isSome := by
        unfold hasRoom
        rw [h.rep.procs.placed.proc_of_table htable, Option.bind_some]
      rw [hroom] at hpark
      unfold mintReplyIntoBlocked
      split
      · rename_i landing P hmint
        unfold Procs.installIntoBlocked at hmint
        obtain ⟨y, t, hy, hin, rfl⟩ := Procs.onTable_eq_some.mp hmint
        obtain rfl : x = y := by simpa using htable.symm.trans hy
        have hserver : s.ledger.proc server = some x := h.rep.procs.proc_of_table hy
        have hfree : x.caps.firstFree.isSome = true := by
          rw [← Option.isSome_map, ← CapTable.reclaim_eq, hin]
          rfl
        rw [hfree, if_pos rfl] at hpark
        have hact := Act.parkCall (g := g)
          (v := { s.ledger with
            queue := Function.update s.ledger.queue id rest, awake := [server] })
          hrun hne hserver rfl hin hpark
        have hw := h.rep.procs.placed.writes_table hy (x.setCaps t)
        have hwrite := hrep.write hserver hw
          (procWeight_places_other (CapTable.reclaim_some hin).1 fun id heq => by cases heq)
        have hready := hwrite.procs.wake hblocked ipcOk req landing
        have hblock : ProcsRep _ none _ (Function.update (Function.update s.ledger.state server
          .ready) (s.procs.currentSlot core) .blocked) _ _ := hready.block hc
        rw [Function.update_comm (Ne.symm hne)] at hblock
        exact ⟨_, ((Relation.ReflTransGen.single hdeq).tail hact).tail
            (Act.wake rfl (hg.wake _ _ ⟨id, ipc, hid, htake⟩ ⟨rfl, rfl⟩)),
          ⟨hblock, hwrite.ipc, rfl, rfl, rfl⟩, ⟨rfl, rfl, rfl, rfl, rfl, rfl, rfl⟩⟩
      · rename_i hmint
        have hnone : x.caps.reclaim (replyCap (s.procs.currentSlot core)) = none := by
          unfold Procs.installIntoBlocked at hmint
          exact (Procs.onTable_eq_none htable).mp hmint
        rw [CapTable.reclaim_none hnone, if_neg (by rw [Option.isSome_none]; decide)] at hpark
        have hact := Act.parkBare (g := g)
          (v := { s.ledger with
            queue := Function.update s.ledger.queue id rest, awake := [server] }) hrun hpark
        have hready := hrep.procs.wake hblocked ipcOk req noCap
        have hblock : ProcsRep _ none _ (Function.update (Function.update s.ledger.state server
          .ready) (s.procs.currentSlot core) .blocked) _ _ := hready.block hc
        rw [Function.update_comm (Ne.symm hne)] at hblock
        exact ⟨_, ((Relation.ReflTransGen.single hdeq).tail hact).tail
            (Act.wake rfl (hg.wake _ _ ⟨id, ipc, hid, htake⟩ ⟨rfl, rfl⟩)),
          ⟨hblock, hrep.ipc, rfl, rfl, rfl⟩, ⟨rfl, rfl, rfl, rfl, rfl, rfl, rfl⟩⟩
    · rename_i htake
      split
      · exact h.refines_self
      · rename_i hreceivers
        rw [h.rep.ipc.receivers] at hreceivers
        have hpend := h.rep.procs.setPending (p := s.procs.currentSlot core)
          (by rw [h.proc_of_current hc]; exact Option.some_ne_none proc) req noCap true
        rw [htake] at hpark
        exact h.parks true hid htake (peers_pos h hreceivers)
          (fun hno => by cases hno) hpark (hpend.block hc)

/-! ### Reply -/

theorem ipcReply_refines (h : s.Good) {replySlot msg : Nat}
    (hg : s.Permits g (.reply core replySlot msg)) :
    s.Refines g (s.ipcReply core replySlot msg).2 := by
  unfold ipcReply
  split
  · exact h.refines_self
  · rename_i proc hc
    split
    · exact h.refines_self
    · rename_i cap hlookup
      obtain ⟨k, rfl, hk, -⟩ := CapTable.lookup_ok hlookup
      split
      · rename_i caller hobj
        split
        · dsimp only
          have hproc := h.proc_of_current hc
          have hrun := h.state_of_current hc
          have hcur : (s.procs.wakeWith caller ipcOk msg noCap).current core = some proc := hc
          have hrevoke : (s.procs.wakeWith caller ipcOk msg noCap).onCurrent core
              (fun t => (t.revoke k).toOption) = some (cap,
                (s.procs.wakeWith caller ipcOk msg noCap).setCurrent core
                  (some (proc.setCaps (proc.caps.set k none)))) := by
            refine Procs.onCurrent_eq_some.mpr ⟨proc, _, hcur, ?_, rfl⟩
            rw [CapTable.revoke_of_slot hk]
            rfl
          rw [hrevoke]
          dsimp only
          have hunmap : unmapForSlot s.mem (proc.setCaps (proc.caps.set k none)) cap k
              = (proc.setCaps (proc.caps.set k none), s.mem) := by
            unfold unmapForSlot
            rw [hobj]
          have htaken : s.taken (.reply core k msg) = some (s.procs.currentSlot core, k) := by
            have hrefuse : releaseAction cap = .refuse := by
              unfold releaseAction
              rw [hobj]
              rfl
            simp [taken, hc, hk, hrefuse]
          have htake : TableAct (fun p k f => s.ledger.Free p ∧ g.give s.ledger p k f)
              (fun p k => s.ledger.Free p ∧ g.take s.ledger p k) (g.strand s.ledger)
              s.ledger.toHoldings _ :=
            .take hproc hk (by unfold Capability.isHoldable; rw [hobj]; trivial) rfl rfl rfl
            ⟨Or.inl (by rw [hrun]; exact fun heq => by cases heq), hg.take _ _ htaken⟩
          rw [show s.ledger.mem = s.mem from rfl, hunmap] at htake
          have hpath : Path g s.ledger _ := (Relation.ReflTransGen.single (Act.table htake)).tail
            (Act.dropReply rfl hobj)
          have hbase := hpath.base h.base
          have hblocked : s.ledger.state caller = .blocked := by
            refine hbase.registered.blocked ?_
            unfold Ledger.regs
            dsimp only
            rw [List.count_cons_self]
            omega
          have hwake := h.rep.procs.wake hblocked ipcOk msg noCap
          have hw := hwake.placed.writes_current hcur (proc.setCaps (proc.caps.set k none))
          have hprocs := hwake.write (p := s.procs.currentSlot core)
            (by rw [hproc]; exact Option.some_ne_none proc) hw
          refine ⟨_, hpath.tail (Act.wake rfl
            (hg.wake _ _ ⟨proc, cap, hc, hlookup, hobj⟩ rfl)),
              ⟨hprocs, h.rep.ipc.same fun id right => ?_,
            rfl, rfl, rfl⟩, ⟨rfl, rfl, rfl, rfl, rfl, rfl, rfl⟩⟩
          have hput := liveTotal_put (reachWeight id right) hproc
            (proc.setCaps (proc.caps.set k none))
          have hrev := procWeight_revoke (reachWeight id right) hk
          rw [Ipc.reachWeight_of_ne right (by rw [hobj]; exact fun heq => by cases heq)] at hrev
          have hheld : s.ledger.held = [] := rfl
          unfold peers
          rw [hheld]
          dsimp only
          omega
        · exact h.refines_self
      · exact h.refines_self

end Kernel

end Plinth
